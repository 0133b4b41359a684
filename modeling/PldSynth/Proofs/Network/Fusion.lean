import PldSynth.Network.Forwarding
import PldSynth.Proofs.Network.Merging

/-!
# Removing a pin node that only forwards a signal

The input of the pin node moves to the node that reads it, and its other consumers read that node
instead. Every value that is still there is kept. The one thing that could go wrong is a pin node that
reads itself, whose input would be cut off on the way.
-/

namespace PldSynth.Network

open Attempt List
open PldSynth.NodeKind (isNamed)

variable {K : NodeKind → Bool} {g g' : Network} {n m a b : NodeId} {c d x o input output kept : ConnId}

/-! ## Which pin nodes only forward -/

/-- `input` is an input of the pin or pin node `a` and reads the output of another pin node `b`. -/
structure Forwarded (g : Network) (input output : ConnId) (a b : NodeId) : Prop where
  mem : input ∈ g.connsOf a
  isInput : g.isInput input = true
  named : g.hasKind isNamed a = true
  refs : g.refsOf input = [output]
  mem_output : output ∈ g.connsOf b
  ne : b ≠ a
  kind : g.kindOf? b = some .pinNode

theorem isAttached_eq_ok (h : g.isAttached c = .ok true) :
    ∃ n, g.ownerOf? c = some n ∧ c ∈ g.connsOf n := by
  simp only [isAttached, bind_eq_ok, pure_eq_ok, conn_eq_ok, node_eq_ok] at h
  obtain ⟨y, hy, z, hz, h⟩ := h
  refine ⟨y.owner, by simp [ownerOf?_def, hy], ?_⟩
  rw [connsOf_of_node? hz]
  simpa using h

/-- What the test for forwarding finds. -/
theorem forwarded_isForwarded (hg : g.Sound) (h : g.isForwarded input = .ok true) :
    ∃ output a b, Forwarded g input output a b := by
  simp only [isForwarded, bind_eq_ok, ite_eq_ok_true, conn_eq_ok, nodeKind_eq_ok]
    at h
  obtain ⟨_, hatt, rfl, y, hy, hdir, k, hk, hnamed, _, -, -, h⟩ := h
  obtain ⟨a, ha, hmem⟩ := isAttached_eq_ok hatt
  split at h
  · simp [pure_eq_ok] at h
  · rename_i output hhead
    simp only [bind_eq_ok, pure_eq_ok, owner_eq_ok, nodeKind_eq_ok] at h
    obtain ⟨b, hb, kb, hkb, h⟩ := h
    have hin : g.isInput input := by simp [Network.isInput, directionOf?_def, hy, hdir]
    have hout : output ∈ g.refsOf input := by
      rw [refsOf_of_conn? hy]
      exact mem_of_head? hhead
    obtain rfl : y.owner = a := by simpa [ownerOf?_def, hy] using ha
    simp only [Bool.and_eq_true, decide_eq_true_eq] at h
    obtain ⟨hne, rfl⟩ := h
    obtain ⟨m, hm⟩ := hg.listed (hg.mirror hout)
    obtain rfl : m = b := Option.mem_unique (hg.owner hm) hb
    exact ⟨output, y.owner, m, hmem, hin, hasKind_of hk hnamed,
      hg.refsOf_eq_singleton (isSink_of_isInput hin) hout, hm, hne, hkb⟩

namespace Forwarded

variable (hf : Forwarded g input output a b) (hg : g.Raw K)
include hf

theorem isSink : g.isSink input := isSink_of_isInput hf.isInput

include hg

theorem isOutput : g.isOutput output :=
  hg.output_of_sink (by simp [hf.refs]) hf.isSink

/-- `b` has no other output. -/
theorem eq_output (hx : x ∈ g.connsOf b) (hout : g.isOutput x) : x = output := by
  have hreg := hg.regular (hasKind_of hf.kind (by simp [isNamed]))
  exact hreg.1 hx hf.mem_output hout (hf.isOutput hg)

theorem kept_ne (hk : kept ∈ g.connsOf b) : kept ≠ input := by
  rintro rfl
  exact hf.ne (hg.eq_of_mem hk hf.mem)

/-- The pin node that goes does not read itself. -/
theorem not_self (hself : g.Selfless) (hk : kept ∈ g.connsOf b) (hs : g.isSink kept) :
    kept ∉ g.refsOf output :=
  fun hmem => hself hf.kind hk hs (hg.mirror hmem) hf.mem_output

end Forwarded

/-! ## Removing a pin node -/

/-- What removing a pin node that only forwards a signal runs through. -/
theorem fuse_eq_ok (hg : g.Raw K) (hf : Forwarded g input output a b)
    (h : g.fuse input = .ok g') : ∃ kept s g1 g2 g3 z, kept ∈ g.connsOf b ∧ g.isInput kept ∧
      g.connNameOf? input = some s ∧ g.detach input = .ok g1 ∧ (g1.renameConn kept s).reparent kept a = .ok g2 ∧
      g2.moveConsumers a output = .ok g3 ∧ g3.node? b = some z ∧
      (g3.absorb a z.absorbed).retire b = .ok g' := by
  simp only [fuse, bind_eq_ok, conn_eq_ok] at h
  obtain ⟨y, hy, h⟩ := h
  rw [← refsOf_of_conn? hy, hf.refs] at h
  simp only [head?_cons, bind_eq_ok, owner_eq_ok, hg.owner hf.mem_output] at h
  obtain ⟨b', hb', l, hl, h⟩ := h
  obtain rfl := Option.some.inj hb'
  obtain ⟨-, hl⟩ := inputs_eq_ok.mp hl
  have howner : y.owner = a := by
    have := hg.owner hf.mem
    simpa [ownerOf?_def, hy] using this
  split at h
  · rename_i kept _
    simp only [bind_eq_ok, node_eq_ok, howner] at h
    obtain ⟨g1, h1, g2, h2, g3, h3, z, hz, h4⟩ := h
    obtain ⟨hk, hki⟩ := mem_filter.mp (hl ▸ mem_singleton_self kept)
    exact ⟨kept, y.name, g1, g2, g3, z, hk, hki, by simp [connNameOf?, hy], h1, h2, h3, hz, h4⟩
  · exact absurd h bind_throw_ne_ok

/-- `g1` is `g` when the input `kept` of a pin node stands on `a` in place of `input`, under its name, and
what reads the pin node has not yet followed. -/
structure MovesInput (input kept : ConnId) (a : NodeId) (g g1 : Network) : Prop where
  sound : g1.Sound
  evolves : Evolves g g1
  connsOf : ∀ m, g1.connsOf m =
    ((g.connsOf m).filter (· ≠ input)).filter (· ≠ kept) ++ if m = a then [kept] else []
  refsOf : ∀ x, g1.refsOf x = if x = input then [] else (g.refsOf x).filter (· ≠ input)
  ownerOf? : ∀ x, g1.ownerOf? x = (g.ownerOf? x).map fun n => if x = kept then a else n
  kindOf? : ∀ n, g1.kindOf? n = g.kindOf? n
  absorbedOf : ∀ n, g1.absorbedOf n = g.absorbedOf n
  connNameOf? : ∀ {x}, (g.conn? x).isSome →
    g1.connNameOf? x = g.connNameOf? (if x = kept then input else x)
  cells : g1.cells = g.cells
  pins : g1.pins = g.pins
  pinNodes : g1.pinNodes = g.pinNodes

section MoveInput

variable {g1 g2 : Network} {s : String} (hg : g.Raw K) (hf : Forwarded g input output a b)
  (hk : kept ∈ g.connsOf b)
include hg hf hk

/-- Moving the input only adds to what comes later. -/
theorem evolves_moveInput (hd : (detached input).Applies g g1)
    (hr : (reparented kept a).Applies (g1.renameConn kept s) g2) : Evolves g g2 := by
  have hal := alike_renameConn (g := g1) (c := kept) s
  have hmem : ∃ m, kept ∈ (g1.renameConn kept s).connsOf m :=
    ⟨b, by rw [hal.connsOf, connsOf_detached hd]; simp [hk, hf.kept_ne hg hk]⟩
  have hnamed : (g1.renameConn kept s).hasKind isNamed a := by
    rw [hasKind, hal.kindOf?, hd.kindOf?]
    exact hf.named
  -- only a connection of a pin node was renamed
  have hrename : ∀ {n c}, g1.hasKind isNamed n = false → c ∈ g1.connsOf n →
      (g1.renameConn kept s).connNameOf? c = g1.connNameOf? c := by
    intro n c hn hc
    apply connNameOf?_renameConn_of_ne
    rintro rfl
    rw [connsOf_detached hd] at hc
    obtain rfl := hg.eq_of_mem hk (mem_filter.mp hc).1
    rw [hasKind, hd.kindOf?, hf.kind] at hn
    cases hn
  exact ((evolves_detached hd).trans (hal.evolves (fun _ => rfl) hrename)).trans
    (evolves_reparented hr hnamed hmem)

/-- The input of the pin node moves in place of the one that read it. -/
theorem movesInput_reparent (hname : g.connNameOf? input = some s) (h1 : g.detach input = .ok g1)
    (h2 : (g1.renameConn kept s).reparent kept a = .ok g2) : MovesInput input kept a g g2 := by
  have hd := applies_detach hg.mirror hg.owner h1
  have hal := alike_renameConn (g := g1) (c := kept) s
  have hs1 := hg.toSound.detached hd
  obtain ⟨hr, hc, ht⟩ := applies_reparent (hal.sound hs1).owner h2
  have hu1 : (g1.renameConn kept s).InUse a :=
    hal.inUse.mpr ((hd.inUse rfl).mpr (hg.inUse hf.mem))
  refine ⟨(hal.sound hs1).reparented hr hc ht hu1, evolves_moveInput hg hf hk hd hr, fun m => ?_,
    fun x => ?_, fun x => ?_, fun n => ?_, fun n => ?_, fun {x} hx => ?_, ?_, ?_, ?_⟩
  · rw [connsOf_reparented hr ht, hal.connsOf, connsOf_detached hd]
  · rw [refsOf_reparented hr, hal.refsOf, refsOf_detached hd]
  · rw [hr.ownerOf?, hal.ownerOf?, hd.ownerOf?, Option.map_map]
    rfl
  · rw [hr.kindOf?, hal.kindOf?, hd.kindOf?]
  · rw [hr.absorbedOf]
    exact hd.absorbedOf
  · have hsome1 : (g1.conn? x).isSome := (evolves_detached hd).conn_isSome hx
    rw [hr.connNameOf?]
    by_cases hxk : x = kept
    · rw [if_pos hxk, hname, hxk, connNameOf?_renameConn_self s (hxk ▸ hsome1)]
    · rw [if_neg hxk, connNameOf?_renameConn_of_ne s hxk, hd.connNameOf?]
  · simp [hr.cells, hal.cells, hd.cells, reparented, detached]
  · simp [hr.pins, hal.pins, hd.pins, reparented, detached]
  · simp [hr.pinNodes, hal.pinNodes, hd.pinNodes, reparented, detached]

end MoveInput

/-- `g'` is `g` without the pin node `b`: its input `kept` stands on `a` in place of `input`, and what
read `b` reads an output of `a`. -/
structure Fuses (input output kept : ConnId) (a b : NodeId) (g g' : Network) : Prop where
  kept_mem : kept ∈ g.connsOf b
  kept_isInput : g.isInput kept = true
  sound : g'.Sound
  evolves : Evolves g g'
  ownerOf? : ∀ {x}, (g.conn? x).isSome →
    g'.ownerOf? x = (g.ownerOf? x).map fun n => if x = kept then a else n
  absorbedOf : ∀ n, g'.absorbedOf n = g.absorbedOf n
  kindOf? : ∀ n, g'.kindOf? n = g.kindOf? n
  connsOf_target : ∃ new, g'.connsOf a = (g.connsOf a).filter (· ≠ input) ++ kept :: new ∧
    (new = [] ∨ ∃ e, new = [e] ∧ g.conn? e = none ∧ g'.isOutput e = true ∧
      ∀ x ∈ g.connsOf a, g.isOutput x = false)
  connsOf_source : g'.connsOf b = []
  input_not_mem : ∀ m, input ∉ g'.connsOf m
  connsOf : ∀ {m}, m ≠ a → m ≠ b → g'.connsOf m = g.connsOf m
  refsOf : ∃ out, ((∃ c ∈ g.refsOf output, c ≠ input) → out ∈ g'.connsOf a ∧ g'.isOutput out = true) ∧
    ∀ {c m}, g.isSink c = true → c ∈ g'.connsOf m →
      g'.refsOf c = if c ∈ g.refsOf output then [out] else g.refsOf c
  connNameOf? : ∀ {x}, (g.conn? x).isSome →
    g'.connNameOf? x = g.connNameOf? (if x = kept then input else x)
  cells : g'.cells = g.cells
  pins : g'.pins = g.pins
  pinNodes : g'.pinNodes = g.pinNodes.filter (· ≠ b)

namespace MovesInput

variable {g1 : Network} (hm : MovesInput input kept a g g1) (hg : g.Raw K)
  (hf : Forwarded g input output a b) (hk : kept ∈ g.connsOf b) (hki : g.isInput kept)
include hm hf

theorem named : g1.hasKind isNamed a :=
  (hasKind_congr (hm.kindOf? a)).trans hf.named

include hg

theorem inUse : g1.InUse a := by
  rw [InUse, hm.cells, hm.pins, hm.pinNodes]
  exact hg.inUse hf.mem

theorem isOutput : g1.isOutput output :=
  (hm.evolves.isOutput (isSome_of_isOutput (hf.isOutput hg))).trans (hf.isOutput hg)

include hki in
theorem mem_output : output ∈ g1.connsOf b := by
  have hout := hf.isOutput hg
  have hoi : output ≠ input := (ne_of_isSink hf.isSink hout).symm
  have hok : output ≠ kept := (ne_of_isSink (isSink_of_isInput hki) hout).symm
  rw [hm.connsOf, if_neg hf.ne]
  simp [hf.mem_output, hoi, hok]

theorem mem_refsOf : c ∈ g1.refsOf output ↔ c ∈ g.refsOf output ∧ c ≠ input := by
  have hoi : output ≠ input := (ne_of_isSink hf.isSink (hf.isOutput hg)).symm
  rw [hm.refsOf, if_neg hoi]
  simp

include hk in
theorem input_not_mem : input ∉ g1.connsOf m := by
  rw [hm.connsOf]
  split <;> simp [(hf.kept_ne hg hk).symm]

include hk hki in
/-- A consumer of `b` other than `input` does not belong to `a`. -/
theorem not_mem_target (hself : g.Selfless) (hc : c ∈ g.refsOf output) (hci : c ≠ input) :
    c ∉ g1.connsOf a := by
  intro hca
  rw [hm.connsOf, if_pos rfl, mem_append, mem_singleton, mem_filter,
    mem_filter] at hca
  rcases hca with hca | rfl
  · exact hci (hg.single hf.named hca.1.1 hf.mem (hg.sink_of_output hc (hf.isOutput hg)) hf.isSink)
  · exact hf.not_self hg hself hk (isSink_of_isInput hki) hc

variable (hc : Closes b a output .nothing g1 g')
include hk hc

theorem input_gone : input ∉ g'.connsOf m := by
  intro hmem
  have hsome := hm.evolves.conn_isSome (hg.conn_isSome hf.mem)
  exact hm.input_not_mem hg hf hk (hc.mem_connsOf hsome hmem).1

/-- What stands on the node that takes the pin node's place. -/
theorem connsOf_target : ∃ new, g'.connsOf a = (g.connsOf a).filter (· ≠ input) ++ kept :: new ∧
    (new = [] ∨ ∃ e, new = [e] ∧ g.conn? e = none ∧ g'.isOutput e ∧
      ∀ x ∈ g.connsOf a, g.isOutput x = false) := by
  obtain ⟨new, hconns, hcase⟩ := hc.connsOf
  have hka : kept ∉ g.connsOf a := fun hmem => hf.ne (hg.eq_of_mem hk hmem)
  refine ⟨new, ?_, ?_⟩
  · rw [hconns, if_neg hf.ne.symm, if_pos rfl, hm.connsOf, if_pos rfl,
      filter_ne_eq_self fun hmem => hka (mem_filter.mp hmem).1, append_assoc]
    rfl
  rcases hcase with rfl | ⟨e, rfl, hnone, hout, hno⟩
  · exact .inl rfl
  refine .inr ⟨e, rfl, ?_, hout, fun x hx => ?_⟩
  · by_contra hsome
    have := hm.evolves.conn_isSome (Option.isSome_iff_ne_none.mpr hsome)
    rw [hnone] at this
    cases this
  · by_cases hxi : x = input
    · rw [hxi, Bool.eq_false_iff]
      exact fun hout => ne_of_isSink hf.isSink hout rfl
    · have hxk : x ≠ kept := fun hxk => hka (hxk ▸ hx)
      rw [← hm.evolves.isOutput (hg.conn_isSome hx)]
      exact hno x (by rw [hm.connsOf]; simp [hx, hxi, hxk])

include hki in
/-- What a connection that stays reads afterwards. -/
theorem refsOf_closed (hself : g.Selfless) :
    ∃ out, ((∃ c ∈ g.refsOf output, c ≠ input) → out ∈ g'.connsOf a ∧ g'.isOutput out) ∧
      ∀ {c m}, g.isSink c → c ∈ g'.connsOf m →
        g'.refsOf c = if c ∈ g.refsOf output then [out] else g.refsOf c := by
  obtain ⟨out, hout, hrefs⟩ := hc.refsOf
  refine ⟨out, ?_, fun {c m} hs hcm => ?_⟩
  · rintro ⟨c, hco, hci⟩
    exact hout (ne_nil_of_mem ((hm.mem_refsOf hg hf).mpr ⟨hco, hci⟩))
  have hci : c ≠ input := by
    rintro rfl
    exact hm.input_gone hg hf hk hc hcm
  rw [hrefs (hm.evolves.keeps_sink hs) hcm]
  by_cases hco : c ∈ g.refsOf output
  · rw [if_pos ((hm.mem_refsOf hg hf).mpr ⟨hco, hci⟩), if_pos hco,
      if_neg (hm.not_mem_target hg hf hk hki hself hco hci)]
  rw [if_neg fun h => hco ((hm.mem_refsOf hg hf).mp h).1, if_neg hco, hm.refsOf, if_neg hci,
    hg.filter_refsOf_ne hf.isSink hs, filter_eq_self]
  -- no driver of `c` goes with `b`: it would be `output`, which `c` does not read
  intro d hd
  have hdb : d ∉ g1.connsOf b := by
    intro hdb
    rw [hm.connsOf, if_neg hf.ne, append_nil, mem_filter, mem_filter] at hdb
    have hmirror := hg.mirror hd
    rw [hf.eq_output hg hdb.1.1 (hg.output_of_sink hd hs)] at hmirror
    exact hco hmirror
  simpa using hdb

include hki in
/-- After the input, the readers of the pin node follow. -/
theorem fuses (hself : g.Selfless) : Fuses input output kept a b g g' where
  kept_mem := hk
  kept_isInput := hki
  sound := hc.sound
  evolves := hm.evolves.trans hc.evolves
  ownerOf? hx := by rw [hc.ownerOf? (hm.evolves.conn_isSome hx), hm.ownerOf?]
  absorbedOf n := by
    -- nothing is taken over, since `b` had taken over nothing
    rw [hc.absorbedOf, hm.absorbedOf]
    split
    · simp [hg.unmerged, Absorbed.union, Absorbed.nothing]
    · rfl
  kindOf? n := by rw [hc.kindOf?, hm.kindOf?]
  connsOf_target := hm.connsOf_target hg hf hk hc
  connsOf_source := by
    obtain ⟨new, hconns, -⟩ := hc.connsOf
    rw [hconns, if_pos rfl]
  input_not_mem _ := hm.input_gone hg hf hk hc
  connsOf hma hmb := by
    obtain ⟨new, hconns, -⟩ := hc.connsOf
    rw [hconns, if_neg hmb, if_neg hma, append_nil, hm.connsOf, if_neg hma, append_nil,
      hg.filter_conns_of_ne hf.mem hma, hg.filter_conns_of_ne hk hmb]
  refsOf := hm.refsOf_closed hg hf hk hki hc hself
  connNameOf? hx := by rw [hc.connNameOf? (hm.evolves.conn_isSome hx), hm.connNameOf? hx]
  cells := by
    rw [hc.cells, hm.cells]
    refine filter_ne_eq_self fun hmem => ?_
    obtain ⟨k, hkb, hcell⟩ := hg.cell_kind hmem
    obtain rfl := Option.mem_unique hf.kind hkb
    cases hcell
  pins := by
    rw [hc.pins, hm.pins]
    refine filter_ne_eq_self fun hmem => ?_
    cases hf.kind.symm.trans (hg.pin_kind hmem)
  pinNodes := by rw [hc.pinNodes, hm.pinNodes]

end MovesInput

/-- What a fusion does. -/
theorem fuses_fuse (hg : g.Raw K) (hself : g.Selfless) (hf : Forwarded g input output a b)
    (h : g.fuse input = .ok g') : ∃ kept, Fuses input output kept a b g g' := by
  obtain ⟨kept, s, g1, g2, g3, z, hk, hki, hname, h1, h2, h3, hz, h4⟩ := fuse_eq_ok hg hf h
  -- the input of the pin node takes the place of `input`, then the consumers follow
  have hm := movesInput_reparent hg hf hk hname h1 h2
  have hout := hm.isOutput hg hf
  have hmem := hm.mem_output hg hf hki
  have hmoves := moves_moveConsumers hm.sound hout (fun ha => hf.ne (hm.sound.eq_of_mem hmem ha)) h3
  have hzn : z.absorbed = .nothing := by
    have habs : g3.absorbedOf b = .nothing := by rw [hmoves.absorbedOf, hm.absorbedOf, hg.unmerged]
    simpa [absorbedOf, hz] using habs
  rw [hzn] at h4
  exact ⟨kept, hm.fuses hg hf hk hki
    (closes_retire hm.sound hmem hout hf.ne (hm.named hf) (hm.inUse hg hf) h3 h4) hself⟩

/-! ### The network afterwards -/

/-- An output that stays answers itself; the output of the pin node that goes is answered by those of
the node that takes its place. -/
def TakesPlace (g g' : Network) (output : ConnId) (a : NodeId) (o o' : ConnId) : Prop :=
  (g.Stays g' o o' ∧ o ≠ output) ∨ (o = output ∧ o' ∈ g'.connsOf a ∧ g'.isOutput o' = true)

namespace Fuses

variable (h : Fuses input output kept a b g g') (hg : g.Raw K) (hf : Forwarded g input output a b)
include h

theorem mem_target (hx : x ∈ g.connsOf a) (hxi : x ≠ input) : x ∈ g'.connsOf a := by
  obtain ⟨new, hnew, -⟩ := h.connsOf_target
  rw [hnew]
  simp [hx, hxi]

theorem kept_mem_target : kept ∈ g'.connsOf a := by
  obtain ⟨new, hnew, -⟩ := h.connsOf_target
  simp [hnew]

/-- A node has the connections it had, and the target receives an input and perhaps a first output. -/
theorem mem_connsOf (hc : c ∈ g'.connsOf n) :
    c ∈ g.connsOf n ∨ n = a ∧ (c = kept ∨ g.conn? c = none ∧ g'.isOutput c) := by
  by_cases hnb : n = b
  · rw [hnb, h.connsOf_source] at hc
    cases hc
  by_cases hna : n = a
  · rcases h.connsOf_target with ⟨new, hnew, hcase⟩
    rw [hna, hnew, mem_append, mem_cons] at hc
    rcases hc with hc | hc | hc
    · exact .inl (hna ▸ (mem_filter.mp hc).1)
    · exact .inr ⟨hna, .inl hc⟩
    · rcases hcase with rfl | ⟨e, rfl, hnone, hout, -⟩
      · cases hc
      · rw [mem_singleton.mp hc]
        exact .inr ⟨hna, .inr ⟨hnone, hout⟩⟩
  · rw [h.connsOf hna hnb] at hc
    exact .inl hc

include hg hf

/-- What drives something in `g`, except for `output`, is still there. -/
theorem stays (hs : g.isSink c) (hd : d ∈ g.refsOf c) (hne : d ≠ output) :
    g.TakesPlace g' output a d d := by
  have hout := hg.output_of_sink hd hs
  obtain ⟨m, hm⟩ := hg.listed (hg.mirror hd)
  refine .inl ⟨⟨rfl, hout, ⟨m, hm⟩, ?_⟩, hne⟩
  by_cases hma : m = a
  · subst hma
    exact ⟨m, h.mem_target hm (ne_of_isSink hf.isSink hout).symm⟩
  · have hmb : m ≠ b := by
      rintro rfl
      exact hne (hf.eq_output hg hm hout)
    exact ⟨m, by rwa [h.connsOf hma hmb]⟩

/-- What a connection that stays reads afterwards answers what it read before. -/
theorem answers (hs : g.isSink c) (hd : g.refsOf c = [d]) (hm : c ∈ g'.connsOf m) :
    ∃ d', g'.refsOf c = [d'] ∧ g.TakesPlace g' output a d d' := by
  obtain ⟨out, hout, hrefs⟩ := h.refsOf
  have hoo := hf.isOutput hg
  by_cases hc : c ∈ g.refsOf output
  · have hci : c ≠ input := by
      rintro rfl
      exact h.input_not_mem m hm
    have hdo : d = output := by
      have := hg.refsOf_consumer hoo hc
      rwa [hd, singleton_inj] at this
    refine ⟨out, by rw [hrefs hs hm, if_pos hc], .inr ⟨hdo, ?_⟩⟩
    exact hout ⟨c, hc, hci⟩
  · refine ⟨d, by rw [hrefs hs hm, if_neg hc, hd], h.stays hg hf hs (by simp [hd]) ?_⟩
    rintro rfl
    exact hc (hg.mirror (by simp [hd]))

/-- Afterwards `a` reads what `b` read. -/
theorem kept_driver (hself : g.Selfless) : ∃ d, g.refsOf kept = [d] ∧ g'.refsOf kept = [d] ∧
    g.TakesPlace g' output a d d := by
  have hs := isSink_of_isInput h.kept_isInput
  have hnot := hf.not_self hg hself h.kept_mem hs
  obtain ⟨d, hd⟩ := hg.driven h.kept_mem hs
  obtain ⟨out, -, hrefs⟩ := h.refsOf
  refine ⟨d, hd, by rw [hrefs hs h.kept_mem_target, if_neg hnot, hd], ?_⟩
  refine h.stays hg hf hs (by simp [hd]) ?_
  rintro rfl
  exact hnot (hg.mirror (by simp [hd]))

theorem single_target (hx : x ∈ g'.connsOf a) (hs : g'.isSink x) : x = kept := by
  obtain ⟨new, hnew, hcase⟩ := h.connsOf_target
  rw [hnew, mem_append, mem_filter, mem_cons] at hx
  rcases hx with ⟨hx, hxi⟩ | hx | hx
  · rw [h.evolves.isSink (hg.conn_isSome hx)] at hs
    have := hg.single hf.named hx hf.mem hs hf.isSink
    simp [this] at hxi
  · exact hx
  · rcases hcase with rfl | ⟨e, rfl, -, hout, -⟩
    · cases hx
    · rw [mem_singleton.mp hx, not_isSink_of_isOutput hout] at hs
      cases hs

omit hg in
theorem named_target : g'.hasKind isNamed a := by
  rw [hasKind, h.kindOf?]
  exact hf.named

theorem driversAt_target (hd : g'.refsOf kept = [d]) : g'.isDerived a ∧ g'.driversAt a = [d] := by
  have hs := isSink_of_isInput h.kept_isInput
  refine driversAt_of_sole (h.sound.nodup_conns a) (h.named_target hf)
    ((h.absorbedOf a).trans (hg.unmerged a)) h.kept_mem_target ?_
    (fun e he hs' => h.single_target hg hf he hs') hd
  exact h.evolves.keeps_sink hs

/-- What can be driven afterwards could be driven before. -/
theorem isSink_before (hc : c ∈ g'.connsOf m) (hs : g'.isSink c) : g.isSink c ∧ ∃ n, c ∈ g.connsOf n := by
  have hold : ∃ n, c ∈ g.connsOf n := by
    by_cases hma : m = a
    · subst hma
      rw [h.single_target hg hf hc hs]
      exact ⟨b, h.kept_mem⟩
    · have hmb : m ≠ b := by
        rintro rfl
        simp [h.connsOf_source] at hc
      exact ⟨m, by rwa [h.connsOf hma hmb] at hc⟩
  obtain ⟨n, hn⟩ := hold
  exact ⟨by rwa [h.evolves.isSink (hg.conn_isSome hn)] at hs, n, hn⟩

omit hg in
theorem not_inUse_source : ¬ g'.InUse b := by
  have hk := (h.kindOf? b).trans hf.kind
  rintro (hu | hu | hu | hu)
  · exact ne_designId h.sound.toOwned hk nofun hu
  · obtain ⟨k, hk', hcell⟩ := h.sound.cell_kind hu
    rw [hk] at hk'
    cases hk'
    cases hcell
  · rw [h.sound.pin_kind hu] at hk
    cases hk
  · simp [h.pinNodes] at hu

/-- The node that takes over keeps a regular shape. -/
theorem regular_target : g'.RegularAt a := by
  obtain ⟨k, hk, hkn⟩ := hasKind_iff.mp hf.named
  have hreg := hg.regular (hasKind_of hk (by simp [hkn]))
  have hki := isSink_of_isInput h.kept_isInput
  obtain ⟨new, hnew, hcase⟩ := h.connsOf_target
  have hout : ∀ {x}, x ∈ g'.connsOf a → g'.isOutput x →
      x ∈ new ∨ x ∈ g.connsOf a ∧ g.isOutput x := by
    intro x hx hxo
    rw [hnew, mem_append, mem_filter, mem_cons] at hx
    rcases hx with ⟨hx, -⟩ | rfl | hx
    · exact .inr ⟨hx, by rwa [h.evolves.isOutput (hg.conn_isSome hx)] at hxo⟩
    · rw [h.evolves.isOutput (isSome_of_isSink hki)] at hxo
      simp [not_isSink_of_isOutput hxo] at hki
    · exact .inl hx
  refine ⟨?_, ?_, fun hc => ?_⟩
  · intro o o' ho ho' hoo hoo'
    rcases hcase with rfl | ⟨e, rfl, -, -, hno⟩
    · have h1 := (hout ho hoo).resolve_left (by simp)
      have h2 := (hout ho' hoo').resolve_left (by simp)
      exact hreg.1 h1.1 h2.1 h1.2 h2.2
    · -- an output is added only if there was none
      have hnew' : ∀ {x}, x ∈ g'.connsOf a → g'.isOutput x → x = e := by
        intro x hx hxo
        rcases hout hx hxo with hx | ⟨hx, hxo⟩
        · exact mem_singleton.mp hx
        · simp [hno x hx] at hxo
      rw [hnew' ho hoo, hnew' ho' hoo']
  · intro hpin x hx
    have hplain := hreg.2 (h.kindOf? a ▸ hpin)
    rw [hnew, mem_append, mem_filter, mem_cons] at hx
    rcases hx with ⟨hx, -⟩ | rfl | hx
    · have hdir := h.evolves.direction (hg.conn_isSome hx)
      rw [isInput_congr hdir, isOutput_congr hdir]
      exact hplain hx
    · exact .inl ((isInput_congr (h.evolves.direction (isSome_of_isSink hki))).trans h.kept_isInput)
    · rcases hcase with rfl | ⟨e, rfl, -, he, -⟩
      · cases hx
      · exact .inr (mem_singleton.mp hx ▸ he)
  · obtain rfl := Option.mem_unique ((h.kindOf? a).symm.trans hc) hk
    cases hkn

/-- A fusion keeps the network raw. -/
theorem raw : g'.Raw K where
  toTidy := by
    apply hg.toTidy.of_nodes h.sound h.evolves.direction
    intro n
    by_cases hna : n = a
    · exact .inr (hna ▸ h.regular_target hg hf)
    · refine .inl ⟨h.kindOf? n, fun c hc => ?_⟩
      by_cases hnb : n = b
      · simp [hnb, h.connsOf_source] at hc
      · rwa [h.connsOf hna hnb] at hc
  unmerged n := (h.absorbedOf n).trans (hg.unmerged n)
  single {n c c'} hk hc hc' hs hs' := by
    by_cases hna : n = a
    · subst hna
      rw [h.single_target hg hf hc hs, h.single_target hg hf hc' hs']
    · have hnb : n ≠ b := by
        rintro rfl
        simp [h.connsOf_source] at hc
      rw [hasKind, h.kindOf?] at hk
      have hs := (h.isSink_before hg hf hc hs).1
      have hs' := (h.isSink_before hg hf hc' hs').1
      rw [h.connsOf hna hnb] at hc hc'
      exact hg.single hk hc hc' hs hs'
  driven {n c} hc hs := by
    obtain ⟨hs, m, hm⟩ := h.isSink_before hg hf hc hs
    obtain ⟨d, hd⟩ := hg.driven hm hs
    obtain ⟨d', hd', -⟩ := h.answers hg hf hs hd hc
    exact ⟨d', hd'⟩

/-- Every pin node that stays is read as before. -/
theorem pinNodesRead (hread : g.PinNodesRead) : g'.PinNodesRead := by
  obtain ⟨out, -, hrefs⟩ := h.refsOf
  intro n hn
  rw [h.pinNodes, mem_filter] at hn
  have hnb : n ≠ b := by simpa using hn.2
  obtain ⟨c, d, hs, hd, hmem⟩ := hread n hn.1
  have hdc : d ∈ g.refsOf c := by simp [hd]
  have hdo : d ≠ output := by
    rintro rfl
    exact hnb (hg.eq_of_mem hmem hf.mem_output)
  have hci : c ≠ input := by
    rintro rfl
    exact hdo (singleton_inj.mp (hd.symm.trans hf.refs))
  have hnot : c ∉ g.refsOf output := fun hc =>
    hdo (singleton_inj.mp (hd.symm.trans (hg.refsOf_consumer (hf.isOutput hg) hc)))
  -- what reads `d` is still there
  obtain ⟨m, hm⟩ := hg.listed hdc
  have hc : ∃ e, c ∈ g'.connsOf e := by
    by_cases hmb : m = b
    · subst hmb
      have hks := isSink_of_isInput h.kept_isInput
      obtain rfl := hg.single (hasKind_of hf.kind rfl) hm h.kept_mem hs hks
      exact ⟨a, h.kept_mem_target⟩
    · by_cases hma : m = a
      · exact ⟨a, h.mem_target (hma ▸ hm) hci⟩
      · exact ⟨m, by rwa [h.connsOf hma hmb]⟩
  obtain ⟨e, he⟩ := hc
  refine ⟨c, d, h.evolves.keeps_sink hs, ?_, ?_⟩
  · rw [hrefs hs he, if_neg hnot, hd]
  · by_cases hna : n = a
    · subst hna
      exact h.mem_target hmem (ne_of_isSink hf.isSink (hg.output_of_sink hdc hs)).symm
    · rwa [h.connsOf hna hnb]

end Fuses

/-! ### The values afterwards -/

namespace Fuses

variable {v : ConnId → Bool} (h : Fuses input output kept a b g g') (hg : g.Fresh K)
  (hf : Forwarded g input output a b)
include h hg hf

/-- An output has the same logic behind it as the one that takes its place. -/
theorem takesPlace_matches {o' : ConnId} (ho : g.TakesPlace g' output a o o') :
    g.Matches g' v v (g.TakesPlace g' output a) o o' := by
  rcases ho with ⟨⟨rfl, hout, ⟨m, hm⟩, hl⟩, hne⟩ | ⟨rfl, ho', hout'⟩
  · have hout' : g'.isOutput o' := h.evolves.keeps_output hout
    have hmb : m ≠ b := by
      rintro rfl
      exact hne (hf.eq_output hg.toRaw hm hout)
    by_cases hma : m = a
    · -- `a` repeated `output`, and now its outputs stand for `output`
      subst hma
      obtain ⟨hder, hdrv⟩ := hg.driversAt_named hf.named hf.mem hf.isSink hf.refs
      have hoi := (ne_of_isSink hf.isSink hout).symm
      exact .passed hder hf.named hm hdrv (.inr ⟨rfl, h.mem_target hm hoi, hout'⟩)
    · apply Matches.frame hm (h.kindOf? m) (h.absorbedOf m) (h.connsOf hma hmb) _ hout' rfl
      intro c hc
      have hc' : c ∈ g'.connsOf m := by rwa [h.connsOf hma hmb]
      apply Corresponds.of_sole hg.toWired (h.evolves.isSink (hg.conn_isSome hc))
      · intro hs hnil
        obtain ⟨d, hd⟩ := hg.driven hc hs
        simp [hd] at hnil
      · intro d hs hd
        obtain ⟨d', hd', hR⟩ := h.answers hg.toRaw hf hs hd hc'
        exact ⟨d', hd', .inl hR⟩
  · -- `output` repeated what `a` reads now
    obtain ⟨d, hd, hd', hR⟩ := h.kept_driver hg.toRaw hf hg.selfless
    have hnamed : g.hasKind isNamed b := hasKind_of hf.kind rfl
    obtain ⟨hder, hdrv⟩ := hg.driversAt_named hnamed h.kept_mem (isSink_of_isInput h.kept_isInput) hd
    obtain ⟨hder', hdrv'⟩ := h.driversAt_target hg.toRaw hf hd'
    obtain ⟨k, hk, hkn⟩ := hasKind_iff.mp (h.named_target hf)
    refine .derived hder hf.kind hf.mem_output hder' hk ho' hout' ?_ ?_
    · funext l
      rw [k.eval_of_isNamed hkn, NodeKind.eval_of_isNamed rfl]
    · rw [hdrv, hdrv']
      exact .cons (.inl hR) .nil

/-- A fusion keeps all values. -/
theorem refines : Refines g g' where
  evolves := h.evolves
  preserves v := by
    have hm : ∀ {o o'}, g.TakesPlace g' output a o o' →
        g.Matches g' v v (g.TakesPlace g' output a) o o' := h.takesPlace_matches hg hf
    have hsink : ∀ {c}, g.isSink c → g'.isSink c := fun hs =>
      h.evolves.keeps_sink hs
    apply Preserves.of_matches hg.toOwned h.sound.toOwned (hg.settled v) hm
    · intro c d m hs hd hc
      obtain ⟨d', hd', hR⟩ := h.answers hg.toRaw hf hs hd hc
      exact ⟨hsink hs, d', hd', .inl hR⟩
    · intro c d' hs hd'
      obtain ⟨m, hm'⟩ := h.sound.listed hd'
      obtain ⟨hs, n, hn⟩ := h.isSink_before hg.toRaw hf hm' hs
      obtain ⟨d, hd⟩ := hg.driven hn hs
      obtain ⟨e, he, hR⟩ := h.answers hg.toRaw hf hs hd hm'
      rw [he, mem_singleton] at hd'
      exact ⟨c, d, hs, by simp [hd], .inl (hd' ▸ hR)⟩
    · intro n c d hk hu hc hs hd
      have hnb : n ≠ b := by
        rintro rfl
        exact h.not_inUse_source hf hu
      by_cases hna : n = a
      · -- what `a` showed was the value of `b`, which is the value that `kept` reads
        subst hna
        obtain rfl := hg.single hk hc hf.mem hs hf.isSink
        obtain rfl : output = d := singleton_inj.mp (hf.refs.symm.trans hd)
        obtain ⟨e, he, he', hR⟩ := h.kept_driver hg.toRaw hf hg.selfless
        have hks := isSink_of_isInput h.kept_isInput
        have hrep := hg.repeats (hasKind_of hf.kind rfl) h.kept_mem hks he hf.mem_output
          (hf.isOutput hg.toRaw)
        refine ⟨kept, h.kept_mem_target, hsink hks, e, he', fun β hβ => ?_⟩
        exact (hrep.computes_source hg.toOwned hβ).follow hg.toOwned h.sound.toOwned hm hR
      · have hc' : c ∈ g'.connsOf n := by rwa [h.connsOf hna hnb]
        obtain ⟨d', hd', hR⟩ := h.answers hg.toRaw hf hs hd hc'
        exact ⟨c, hc', hsink hs, d', hd', fun β hβ =>
          hβ.follow hg.toOwned h.sound.toOwned hm hR⟩

theorem fresh : g'.Fresh K :=
  ⟨h.raw hg.toRaw hf, fun v => ((h.refines hg hf).preserves v).settled⟩

end Fuses

end PldSynth.Network
