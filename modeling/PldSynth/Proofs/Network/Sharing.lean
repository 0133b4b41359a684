import PldSynth.Network.Sharing
import PldSynth.Proofs.Network.CellInputs

/-!
# Port pins and names for shared signals

Turning ports into pins and putting pin nodes behind shared outputs keeps every value, and so does
retiring pin nodes that nothing reads. The walk that finds the shared outputs matters for none of
this: any sequence of such edits would do.
-/

namespace PldSynth

open Attempt List

/-- The outputs of such a node bear no name of their own: it is neither a pin or pin node nor a register
or buffer. -/
def NodeKind.isUnnamed (k : NodeKind) : Bool :=
  !(k.isSequential || k.isNamed)

theorem NodeKind.isUnnamed_of_isCombinational {k : NodeKind} (h : k.isCombinational) : k.isUnnamed := by
  cases k <;> first | rfl | cases h

theorem NodeKind.isUnnamed_iff {k : NodeKind} :
    k.isUnnamed ↔ k.isSequential = false ∧ k.isNamed = false := by
  simp [isUnnamed]

namespace Network

variable {K : NodeKind → Bool} {g g' : Network} {n m : NodeId} {c d p x o : ConnId} {v : ConnId → Bool}
  {ports : List ConnId} {g1 : Network} {w w' : Walk} {more : List Stop} {r : Bool × Network}
  {P : List ConnId → Network → Prop} {source : Node}

/-! ## Port pins -/

/-- `g'` is `g` with the connection `p` on a new pin of its own. -/
structure Exposes (p : ConnId) (g g' : Network) : Prop where
  connsOf : ∀ m, g'.connsOf m = if m = g.nextNode then [p] else (g.connsOf m).filter (· ≠ p)
  refsOf : ∀ x, g'.refsOf x = g.refsOf x
  directionOf? : ∀ x, g'.directionOf? x = g.directionOf? x
  kindOf? : ∀ m, g'.kindOf? m = if m = g.nextNode then some .pin else g.kindOf? m
  absorbedOf : ∀ m, g'.absorbedOf m = g.absorbedOf m
  connNameOf? : ∀ x, g'.connNameOf? x = g.connNameOf? x
  name : g'.nodeNameOf? g.nextNode = g.connNameOf? p
  cells : g'.cells = g.cells
  pins : g'.pins = g.pins ++ [g.nextNode]
  pinNodes : g'.pinNodes = g.pinNodes
  sound : g'.Sound
  evolves : Evolves g g'

/-- What exposing a port does. -/
theorem exposes_exposePort (hg : g.Sound) (hp : p ∈ g.connsOf n) (h : g.exposePort p = .ok g') :
    Exposes p g g' := by
  simp only [exposePort, bind_eq_ok, conn_eq_ok] at h
  obtain ⟨y, hy, h⟩ := h
  have hgrow := grows_addPin (g := g) y.name
  have hg1 := hg.addPin y.name
  obtain ⟨hr, hc, ht⟩ := applies_reparent hg1.owner h
  rw [fst_addPin] at hr ht
  have hnew : (g.addPin y.name).2.kindOf? g.nextNode = some .pin := by simp [hgrow.kindOf?]
  have hnamed : (g.addPin y.name).2.hasKind NodeKind.isNamed g.nextNode :=
    hasKind_of hnew rfl
  have hl : ∃ m, p ∈ (g.addPin y.name).2.connsOf m := ⟨n, by rwa [hgrow.connsOf]⟩
  refine ⟨fun m => ?_, fun x => ?_, fun x => ?_, fun m => ?_, fun m => ?_, fun x => ?_, ?_, ?_, ?_,
    ?_, ?_, ?_⟩
  · rw [connsOf_reparented hr ht, hgrow.connsOf]
    split
    · rename_i hm
      simp [hm, connsOf_nextNode]
    · simp
  · rw [refsOf_reparented hr, hgrow.refsOf]
  · rw [hr.directionOf?, hgrow.directionOf?]
  · rw [hr.kindOf?, hgrow.kindOf?]
  · rw [hr.absorbedOf, hgrow.absorbedOf]
  · rw [hr.connNameOf?, Network.connNameOf?, hgrow.conn?, Network.connNameOf?]
  · rw [hr.nodeNameOf?, hgrow.nodeNameOf?, if_pos rfl, Network.connNameOf?, hy]
    rfl
  · simpa [reparented] using hr.cells
  · simpa [reparented] using hr.pins
  · simpa [reparented] using hr.pinNodes
  · exact hg1.reparented hr hc ht (by simp [InUse])
  · refine (hgrow.evolves fun m hm => ?_).trans (evolves_reparented hr hnamed hl)
    simp only [InUse, cells_addPin, pins_addPin, pinNodes_addPin, mem_append,
      mem_singleton] at hm ⊢
    rcases hm with hm | hm | (hm | hm) | hm <;> simp [hm]

namespace Exposes

variable (h : Exposes p g g')
include h

theorem mem_connsOf (hx : ∃ m, x ∈ g.connsOf m) : ∃ m, x ∈ g'.connsOf m := by
  obtain ⟨m, hm⟩ := hx
  by_cases hxp : x = p
  · exact ⟨g.nextNode, by simp [h.connsOf, hxp]⟩
  · refine ⟨m, ?_⟩
    rw [h.connsOf, if_neg (ne_nextNode (isSome_of_mem_connsOf hm))]
    simp [hm, hxp]

theorem connsOf_of_ne (hg : g.Sound) (hp : p ∈ g.connsOf n) (hx : x ∈ g.connsOf m) (hm : m ≠ n) :
    g'.connsOf m = g.connsOf m := by
  rw [h.connsOf, if_neg (ne_nextNode (isSome_of_mem_connsOf hx)), hg.filter_conns_of_ne hp hm]

/-- Whatever node a former port stands on, its value is given if it is an output. -/
theorem isDerived_port (hg : g.Sound) (ho : o ∈ g.connsOf designId) (hout : g.isOutput o)
    (hm : o ∈ g'.connsOf m) : g'.isDerived m = false := by
  rw [h.connsOf] at hm
  split at hm
  · rename_i hmn
    obtain rfl : o = p := mem_singleton.mp hm
    have hs : g'.isSink o = false :=
      (isSink_congr (h.directionOf? o)).trans (not_isSink_of_isOutput hout)
    simp [isDerived, hasKind, h.kindOf?, hmn, h.connsOf, hs, NodeKind.isCombinational]
  · rename_i hmn
    obtain rfl := hg.eq_of_mem ho (mem_filter.mp hm).1
    have hk : g'.kindOf? designId = some .design := by rw [h.kindOf?, if_neg hmn, hg.design_kind]
    exact isDerived_eq_false hk ⟨rfl, rfl⟩

/-- An output has the same logic behind it. -/
theorem matches_stays (hg : g.Fresh K) (hp : p ∈ g.connsOf designId) {o' : ConnId} (ho : g.Stays g' o o') :
    g.Matches g' v v (g.Stays g') o o' := by
  obtain ⟨rfl, hout, ⟨m, hm⟩, hl⟩ := ho
  have hout' : g'.isOutput o' := isOutput_congr (h.directionOf? o') ▸ hout
  by_cases hmd : m = designId
  · -- a port is given, before and after
    subst hmd
    have hn := isDerived_eq_false hg.design_kind ⟨rfl, rfl⟩
    obtain ⟨m', hm'⟩ := hl
    exact .given hn hm (h.isDerived_port hg.toSound hm hout hm') hm' hout' rfl
  · apply Matches.frame hm _ (h.absorbedOf m) (h.connsOf_of_ne hg.toSound hp hm hmd) _ hout' rfl
    · rw [h.kindOf?, if_neg (ne_nextNode (isSome_of_mem_connsOf hm))]
    · intro c hc
      apply Corresponds.of_eq (isSink_congr (h.directionOf? c)) (h.refsOf c)
      intro d hd hs
      have hdl := hg.listed (hg.mirror hd)
      exact .inl ⟨rfl, hg.output_of_sink hd hs, hdl, h.mem_connsOf hdl⟩

/-- Exposing a port keeps all values. -/
theorem refines (hg : g.Fresh K) (hp : p ∈ g.connsOf designId) : Refines g g' where
  evolves := h.evolves
  preserves v := by
    have hans : ∀ {c d}, g.isSink c → d ∈ g.refsOf c → g'.Answers (g.Stays g') d d := by
      intro c d hs hd
      have hdl := hg.listed (hg.mirror hd)
      exact .inl ⟨rfl, hg.output_of_sink hd hs, hdl, h.mem_connsOf hdl⟩
    have hsink := fun c => isSink_congr (h.directionOf? c)
    apply Preserves.of_matches hg.toOwned h.sound.toOwned (hg.settled v) (h.matches_stays hg hp)
    · intro c d n hs hd _
      rw [hsink, h.refsOf]
      exact ⟨hs, d, hd, hans hs (by simp [hd])⟩
    · intro c d hs hd
      rw [hsink] at hs
      rw [h.refsOf] at hd
      exact ⟨c, d, hs, hd, hans hs hd⟩
    · intro n c d hk hu hc hs hd
      have hn : n ≠ designId := by
        rintro rfl
        simp [hasKind, hg.design_kind, NodeKind.isNamed] at hk
      refine ⟨c, by rwa [h.connsOf_of_ne hg.toSound hp hc hn], by rwa [hsink], d,
        by rwa [h.refsOf], fun b hb => ?_⟩
      exact (hans hs (by simp [hd])).computes hg.toOwned h.sound.toOwned (h.matches_stays hg hp) hb

theorem raw (hg : g.Raw K) : g'.Raw K where
  toTidy := by
    apply hg.toTidy.of_nodes h.sound (fun _ => h.directionOf? _)
    intro n
    by_cases hn : n = g.nextNode
    · right
      -- the pin has one connection, the port
      have hpin : g'.kindOf? n = some .pin := by rw [h.kindOf?, if_pos hn]
      refine ⟨fun o o' ho ho' _ _ => ?_, fun hk => absurd hpin hk, fun hk => nomatch hpin.symm.trans hk⟩
      rw [h.connsOf, if_pos hn, mem_singleton] at ho ho'
      exact ho.trans ho'.symm
    · left
      rw [h.kindOf?, if_neg hn, h.connsOf, if_neg hn]
      exact ⟨rfl, fun c hc => (mem_filter.mp hc).1⟩
  unmerged n := (h.absorbedOf n).trans (hg.unmerged n)
  single {n c c'} hk hc hc' hs hs' := by
    rw [isSink_congr (h.directionOf? _)] at hs hs'
    rw [h.connsOf] at hc hc'
    split at hc
    · rename_i hn
      rw [if_pos hn] at hc'
      exact (mem_singleton.mp hc).trans (mem_singleton.mp hc').symm
    · rename_i hn
      rw [if_neg hn] at hc'
      rw [hasKind, h.kindOf?, if_neg hn] at hk
      exact hg.single hk (mem_filter.mp hc).1 (mem_filter.mp hc').1 hs hs'
  driven {n c} hc hs := by
    rw [isSink_congr (h.directionOf? _)] at hs
    have hs' := isSome_of_isSink hs
    obtain ⟨m, hm⟩ := h.evolves.attached hs' hc
    rw [h.refsOf]
    exact hg.driven hm hs

theorem fresh (hg : g.Fresh K) (hp : p ∈ g.connsOf designId) : g'.Fresh K :=
  ⟨h.raw hg.toRaw, fun v => ((h.refines hg hp).preserves v).settled⟩

/-- No cell loses an input. -/
theorem keepsInputs (hg : g.Sound) (hp : p ∈ g.connsOf designId) : KeepsInputs g g' where
  kept {n c} hk hc _ := by
    have hn : n ≠ designId := by
      rintro rfl
      simp [hasKind, hg.design_kind, NodeKind.isSequential] at hk
    rw [h.connsOf_of_ne hg hp hc hn]
    exact .inl hc
  constants {c d m} _ hd hm hk := by
    have hne : m ≠ g.nextNode := by
      rintro rfl
      rw [h.kindOf?, if_pos rfl] at hk
      cases hk
    rw [h.kindOf?, if_neg hne] at hk
    rw [h.connsOf, if_neg hne] at hm
    exact ⟨(h.refsOf c).symm.trans hd, (mem_filter.mp hm).1, hk⟩

end Exposes

/-- What exposing one port keeps, exposing some of them keeps. Those that are left still stand on the
node of the module. -/
theorem foldlM_exposePort {pre post : List ConnId} (hP : ∀ {l s}, P l s → s.Sound)
    (keeps : ∀ {l p s s'}, P l s → p ∈ s.connsOf designId → Exposes p s s' → P (l ++ [p]) s')
    (hg : P [] g) (hl : g.connsOf designId = pre ++ post) (h : pre.foldlM exposePort g = .ok g') :
    P pre g' ∧ g'.connsOf designId = (g.connsOf designId).filter (· ∉ pre) := by
  have hnd := (hP hg).nodup_conns designId
  refine foldlM_inits (P := fun l s => P l s ∧
    s.connsOf designId = (g.connsOf designId).filter (· ∉ l)) ?_ ⟨hg, by simp⟩ h
  rintro pre' p post' s s' rfl ⟨hs, hdesign⟩ hstep
  rw [hl, append_assoc] at hnd
  have hnot : p ∉ pre' := fun hm => (disjoint_of_nodup_append hnd) hm mem_cons_self
  have hp : p ∈ s.connsOf designId := by simp [hdesign, hl, hnot]
  have hx := exposes_exposePort (hP hs) hp hstep
  refine ⟨keeps hs hp hx, ?_⟩
  have hd : designId ≠ s.nextNode := ne_nextNode (isSome_of_kindOf? (hP hs).design_kind)
  rw [hx.connsOf, if_neg hd, hdesign, filter_filter]
  congr 1
  simp [not_or, Bool.and_comm]

/-- What exposing one port keeps, exposing all of them keeps. -/
theorem exposePorts_invariant (hP : ∀ {l s}, P l s → s.Sound)
    (keeps : ∀ {l p s s'}, P l s → p ∈ s.connsOf designId → Exposes p s s' → P (l ++ [p]) s')
    (hg : P [] g) (h : g.exposePorts = .ok g') : P (g.connsOf designId) g' := by
  simp only [exposePorts, bind_eq_ok, node_eq_ok] at h
  obtain ⟨y, hy, h⟩ := h
  rw [← connsOf_of_node? hy] at h
  exact (foldlM_exposePort (P := P) hP keeps hg (append_nil _).symm h).1

/-- The ports in `ports` have become pins: each is alone on its pin, in order, and the pin bears its
name. -/
structure OnPins (K : NodeKind → Bool) (g : Network) (ports : List ConnId) (g' : Network) : Prop where
  raw : g'.Raw K
  design : g'.connsOf designId = (g.connsOf designId).filter (· ∉ ports)
  pins : List.Forall₂ (fun p n => g'.connsOf n = [p] ∧ g'.nodeNameOf? n = g.connNameOf? p)
    ports g'.pins
  connNameOf? : ∀ x, g'.connNameOf? x = g.connNameOf? x
  refsOf : ∀ x, g'.refsOf x = g.refsOf x
  cells : g'.cells = g.cells
  pinNodes : g'.pinNodes = g.pinNodes

/-- No port has become a pin yet. -/
theorem OnPins.refl (hg : g.Raw K) (hpins : g.pins = []) : OnPins K g [] g := by
  refine ⟨hg, by simp, ?_, fun _ => rfl, fun _ => rfl, rfl, rfl⟩
  rw [hpins]
  exact .nil

/-- One more port has become a pin. -/
theorem OnPins.step (h : OnPins K g ports g1) (hp1 : p ∈ g1.connsOf designId) (hx : Exposes p g1 g') :
    OnPins K g (ports ++ [p]) g' := by
  have hnot : p ∉ ports := by
    rw [h.design, mem_filter] at hp1
    simpa using hp1.2
  have hd : designId ≠ g1.nextNode := ne_nextNode (isSome_of_kindOf? h.raw.design_kind)
  refine ⟨hx.raw h.raw, ?_, ?_, fun x => ?_, fun x => ?_, hx.cells.trans h.cells,
    hx.pinNodes.trans h.pinNodes⟩
  · rw [hx.connsOf, if_neg hd, h.design, filter_filter]
    congr 1
    simp [not_or, Bool.and_comm]
  · rw [hx.pins]
    apply rel_append
    · -- the pins that were there keep their connections, none of which is `p`
      have hold := (forall₂_and_left ports g1.pins).mpr ⟨fun _ h => h, h.pins⟩
      apply hold.imp
      rintro q n ⟨hq, hconns, hname⟩
      have hn : (g1.node? n).isSome := isSome_of_mem_connsOf (c := q) (by simp [hconns])
      have hqp : q ≠ p := fun e => hnot (e ▸ hq)
      refine ⟨?_, (hx.evolves.name hn).trans hname⟩
      rw [hx.connsOf, if_neg (ne_nextNode hn), hconns]
      simp [hqp]
    · refine .cons ⟨by rw [hx.connsOf, if_pos rfl], ?_⟩ .nil
      rw [hx.name, h.connNameOf?]
  · rw [hx.connNameOf?, h.connNameOf?]
  · rw [hx.refsOf, h.refsOf]

theorem onPins_exposePorts (hg : g.Raw K) (hpins : g.pins = []) (h : g.exposePorts = .ok g') :
    OnPins K g (g.connsOf designId) g' :=
  exposePorts_invariant (fun hs => hs.raw.toSound) (fun hs hp hx => hs.step hp hx)
    (.refl hg hpins) h

/-- What holds once the ports in `ports` have become pins of a network whose drivers have values. -/
structure Exposed (K : NodeKind → Bool) (g : Network) (ports : List ConnId) (g' : Network) : Prop
    extends OnPins K g ports g' where
  fresh : g'.Fresh K
  refines : Refines g g'
  inputs : KeepsInputs g g'

theorem Exposed.step (h : Exposed K g ports g1) (hp1 : p ∈ g1.connsOf designId) (hx : Exposes p g1 g') :
    Exposed K g (ports ++ [p]) g' :=
  ⟨h.toOnPins.step hp1 hx, hx.fresh h.fresh hp1, h.refines.trans (hx.refines h.fresh hp1),
    h.inputs.trans h.refines.evolves (hx.keepsInputs h.fresh.toSound hp1) hx.evolves⟩

theorem exposed_exposePorts (hg : g.Fresh K) (hpins : g.pins = []) (h : g.exposePorts = .ok g') :
    Exposed K g (g.connsOf designId) g' :=
  exposePorts_invariant (fun hs => hs.fresh.toSound)
    (fun hs hp hx => hs.step hp hx) ⟨.refl hg.toRaw hpins, hg, .refl hg.settled, .refl g⟩ h

/-! ## Pin nodes behind shared outputs -/

namespace PutsPinNode

variable {source : Node}

variable (h : PutsPinNode o source g g')
include h

theorem connsOf_of_isSome (hm : (g.node? m).isSome) : g'.connsOf m = g.connsOf m := by
  rw [h.connsOf, if_neg (ne_nextNode hm)]

theorem eq_putOut_of_isOutput (hx : x ∈ [g.putOut, g.putIn]) (hout : g'.isOutput x) : x = g.putOut := by
  rcases mem_pair.mp hx with rfl | rfl
  · rfl
  · simp [h.isOutput, putOut_ne_putIn.symm] at hout

theorem eq_putIn_of_isSink (hx : x ∈ [g.putOut, g.putIn]) (hs : g'.isSink x) : x = g.putIn := by
  rcases mem_pair.mp hx with rfl | rfl
  · simp [h.isSink] at hs
  · rfl

/-- The new pin node repeats the output that it stands behind. -/
theorem repeats (hg : g.Wired) (ho : (g.conn? o).isSome) : g'.Repeats o g.putOut := by
  have hk : g'.hasKind NodeKind.isNamed g.nextNode :=
    hasKind_iff.mpr ⟨.pinNode, by simp [h.kindOf?], rfl⟩
  have hin : g'.isSink g.putIn := by simp [h.isSink, putOut_ne_putIn.symm]
  have hout : g'.isSink g.putOut = false := by simp [h.isSink]
  have habs : g'.absorbedOf g.nextNode = .nothing := by
    rw [h.absorbedOf]
    simp [Network.absorbedOf]
  refine ⟨g.nextNode, ?_, hk, by simp [h.connsOf], by simp [h.isOutput], ?_⟩
  · simp [isDerived, hk, habs, h.connsOf, hin, Absorbed.isNothing_iff]
  · simp [driversAt, h.connsOf, hin, hout, h.refsOf ho hg.mirror, putOut_ne_putIn.symm]

/-- What a connection reads afterwards answers what it read before. -/
theorem answers (hg : g.Sound) (ho : g.isOutput o) (hs : g.isSink c) (hd : g.refsOf c = [d]) :
    ∃ d', g'.refsOf c = [d'] ∧ g'.Answers (g.Stays g') d d' := by
  have hmem : d ∈ g.refsOf c := by simp [hd]
  obtain ⟨m, hm⟩ := hg.listed (hg.mirror hmem)
  have hstay : g.Stays g' d d := by
    refine ⟨rfl, hg.output_of_sink hmem hs, ⟨m, hm⟩, m, ?_⟩
    rwa [h.connsOf_of_isSome (isSome_of_mem_connsOf hm)]
  rw [h.refsOf_sink hg ho hs]
  by_cases hc : c ∈ g.refsOf o
  · rw [if_pos hc]
    have hdo : o = d := singleton_inj.mp ((hg.refsOf_consumer ho hc).symm.trans hd)
    exact ⟨g.putOut, rfl, .inr ⟨d, hstay, hdo ▸ h.repeats hg.toWired (isSome_of_isOutput ho)⟩⟩
  · rw [if_neg hc]
    exact ⟨d, hd, .inl hstay⟩

/-- What read nothing before reads nothing afterwards. -/
theorem refsOf_eq_nil (hg : g.Sound) (ho : g.isOutput o) (hs : g.isSink c) (hnil : g.refsOf c = []) :
    g'.refsOf c = [] := by
  have hmem : c ∉ g.refsOf o := by
    intro hmem
    simp [hg.refsOf_consumer ho hmem] at hnil
  rw [h.refsOf_sink hg ho hs, if_neg hmem, hnil]

theorem matches_stays (hg : g.Sound) (ho : g.isOutput o) {e e' : ConnId} (he : g.Stays g' e e') :
    g.Matches g' v v (g.Stays g') e e' := by
  obtain ⟨rfl, hout, ⟨m, hm⟩, -⟩ := he
  have hms := isSome_of_mem_connsOf hm
  have hes := h.evolves.isOutput (isSome_of_isOutput hout)
  apply Matches.frame hm (h.evolves.kind hms) h.absorbedOf (h.connsOf_of_isSome hms) _
    (hes.trans hout) rfl
  intro c hc
  have hcs := hg.conn_isSome hc
  apply Corresponds.of_sole hg.toWired (h.evolves.isSink hcs)
  · exact h.refsOf_eq_nil hg ho
  · exact fun d => h.answers hg ho

/-- Putting in a pin node keeps all values. -/
theorem preserves (hg : g.Sound) (hset : g.Settled v) (ho : g.isOutput o) (hl : ∃ n, o ∈ g.connsOf n)
    (hne : g.refsOf o ≠ []) : Preserves v v g g' := by
  have hg' := h.sound hg ho hl
  have hm : ∀ {e e'}, g.Stays g' e e' → g.Matches g' v v (g.Stays g') e e' := h.matches_stays hg ho
  apply Preserves.of_matches hg.toOwned hg'.toOwned hset hm
  · intro c d n hs hd _
    rw [h.evolves.isSink (isSome_of_isSink hs)]
    exact ⟨hs, h.answers hg ho hs hd⟩
  · intro c' d' hs hd
    rw [h.isSink] at hs
    by_cases hout : c' = g.putOut
    · simp [hout] at hs
    by_cases hin : c' = g.putIn
    · -- the new input reads `o`, which some connection read before
      obtain ⟨c, hc⟩ := exists_mem_of_ne_nil _ hne
      have hdo : d' = o := by
        rw [hin, h.refsOf_putIn hg ho] at hd
        exact mem_singleton.mp hd
      obtain ⟨n, hn⟩ := hl
      refine ⟨c, o, hg.sink_of_output hc ho, hg.mirror hc, .inl ⟨hdo, ho, ⟨n, hn⟩, n, ?_⟩⟩
      rwa [h.connsOf_of_isSome (isSome_of_mem_connsOf hn)]
    rw [if_neg hout, if_neg hin] at hs
    cases hr : g.refsOf c' with
    | nil => simp [h.refsOf_eq_nil hg ho hs hr] at hd
    | cons d l =>
      have hd1 : g.refsOf c' = [d] := hg.refsOf_eq_singleton hs (by simp [hr])
      obtain ⟨e, he, hans⟩ := h.answers hg ho hs hd1
      rw [he, mem_singleton] at hd
      exact ⟨c', d, hs, by simp [hd1], hd ▸ hans⟩
  · intro n c d hk hu hc hs hd
    obtain ⟨d', hd', hans⟩ := h.answers hg ho hs hd
    refine ⟨c, ?_, ?_, d', hd', fun b hb => hans.computes hg.toOwned hg'.toOwned hm hb⟩
    · rwa [h.connsOf_of_isSome (isSome_of_mem_connsOf hc)]
    · rwa [h.evolves.isSink (isSome_of_isSink hs)]

theorem refines (hg : g.Fresh K) (ho : g.isOutput o) (hl : ∃ n, o ∈ g.connsOf n) (hne : g.refsOf o ≠ []) :
    Refines g g' :=
  ⟨h.evolves, fun v => h.preserves hg.toSound (hg.settled v) ho hl hne⟩

theorem tidy (hg : g.Tidy K) (ho : g.isOutput o) (hl : ∃ n, o ∈ g.connsOf n) : g'.Tidy K := by
  apply hg.of_nodes (h.sound hg.toSound ho hl) h.evolves.direction
  intro n
  by_cases hn : n = g.nextNode
  · right
    subst hn
    refine ⟨?_, ?_, fun hk => by simp [h.kindOf?] at hk⟩
    · intro e e' he he' hout hout'
      rw [h.connsOf, if_pos rfl] at he he'
      rw [h.eq_putOut_of_isOutput he hout, h.eq_putOut_of_isOutput he' hout']
    · intro _ c hc
      rw [h.connsOf, if_pos rfl] at hc
      rcases mem_pair.mp hc with rfl | rfl
      · exact .inr (by simp [h.isOutput])
      · exact .inl (by simp [isInput, h.directionOf?, putOut_ne_putIn.symm])
  · left
    rw [h.kindOf?, if_neg hn, h.connsOf, if_neg hn]
    exact ⟨rfl, fun c hc => hc⟩

/-- No pin or pin node gets a second connection that can be driven. -/
theorem eq_of_isSink (hg : g.Sound) {n : NodeId} {c c' : ConnId} (hc : c ∈ g'.connsOf n)
    (hc' : c' ∈ g'.connsOf n) (hs : g'.isSink c) (hs' : g'.isSink c')
    (hold : (g.node? n).isSome → c ∈ g.connsOf n → c' ∈ g.connsOf n → g.isSink c →
      g.isSink c' → c = c') : c = c' := by
  rw [h.connsOf] at hc hc'
  split at hc
  · rename_i hn
    rw [if_pos hn] at hc'
    rw [h.eq_putIn_of_isSink hc hs, h.eq_putIn_of_isSink hc' hs']
  · rename_i hn
    rw [if_neg hn] at hc'
    rw [h.evolves.isSink (hg.conn_isSome hc)] at hs
    rw [h.evolves.isSink (hg.conn_isSome hc')] at hs'
    exact hold (isSome_of_mem_connsOf hc) hc hc' hs hs'

theorem raw (hg : g.Raw K) (ho : g.isOutput o) (hl : ∃ n, o ∈ g.connsOf n) : g'.Raw K where
  toTidy := h.tidy hg.toTidy ho hl
  unmerged n := h.absorbedOf.trans (hg.unmerged n)
  single {n c c'} hk hc hc' hs hs' := by
    apply h.eq_of_isSink hg.toSound hc hc' hs hs'
    intro hn
    rw [h.evolves.hasKind hn] at hk
    exact hg.single hk
  driven {n c} hc hs := by
    rw [h.connsOf] at hc
    split at hc
    · refine ⟨o, ?_⟩
      rw [h.eq_putIn_of_isSink hc hs, h.refsOf_putIn hg.toSound ho]
    · rw [h.evolves.isSink (hg.conn_isSome hc)] at hs
      obtain ⟨d, hd⟩ := hg.driven hc hs
      obtain ⟨d', hd', _⟩ := h.answers hg.toSound ho hs hd
      exact ⟨d', hd'⟩

theorem fresh (hg : g.Fresh K) (ho : g.isOutput o) (hl : ∃ n, o ∈ g.connsOf n) (hne : g.refsOf o ≠ []) :
    g'.Fresh K :=
  ⟨h.raw hg.toRaw ho hl, fun v => ((h.refines hg ho hl hne).preserves v).settled⟩

/-- A new pin node is no constant, and no cell loses an input. -/
theorem keepsInputs (hg : g.Sound) (ho : g.isOutput o) : KeepsInputs g g' where
  kept {n c} _ hc _ := by
    rw [h.connsOf_of_isSome (isSome_of_mem_connsOf hc)]
    exact .inl hc
  constants {c d m} hs hd hm hk := by
    have hne : m ≠ g.nextNode := by
      rintro rfl
      rw [h.kindOf?, if_pos rfl] at hk
      cases hk
    rw [h.kindOf?, if_neg hne] at hk
    rw [h.connsOf, if_neg hne] at hm
    have hds := hg.conn_isSome hm
    rw [h.refsOf_sink hg ho hs] at hd
    split at hd
    · rw [← singleton_inj.mp hd] at hds
      simp [conn?_putOut] at hds
    · exact ⟨hd, hm, hk⟩

/-- The new pin node is read, and so is every pin node that was read before. -/
theorem pinNodesRead (hg : g.Sound) (ho : g.isOutput o) (hne : g.refsOf o ≠ []) (hread : g.PinNodesRead) :
    g'.PinNodesRead := by
  intro n hn
  rw [h.pinNodes, mem_append, mem_singleton] at hn
  rcases hn with hn | rfl
  · obtain ⟨c, d, hs, hd, hmem⟩ := hread n hn
    have hmem' : d ∈ g'.connsOf n := by rwa [h.connsOf_of_isSome (isSome_of_mem_connsOf hmem)]
    by_cases hc : c ∈ g.refsOf o
    · -- a pin node behind `o` is read by the new one
      obtain rfl : o = d := singleton_inj.mp ((hg.refsOf_consumer ho hc).symm.trans hd)
      exact ⟨g.putIn, o, by simp [h.isSink, putOut_ne_putIn.symm], h.refsOf_putIn hg ho, hmem'⟩
    · exact ⟨c, d, h.isSink_old hs, by rw [h.refsOf_sink hg ho hs, if_neg hc, hd], hmem'⟩
  · obtain ⟨c, hc⟩ := exists_mem_of_ne_nil _ hne
    have hs := hg.sink_of_output hc ho
    refine ⟨c, g.putOut, h.isSink_old hs, ?_, by simp [h.connsOf]⟩
    rw [h.refsOf_sink hg ho hs, if_pos hc]

end PutsPinNode

/-! ## The walk -/

/-- `g'` is `g` with a pin node behind `o`, an output of a gate or a constant that several connections
read. -/
structure Shares (o : ConnId) (n : NodeId) (source : Node) (g g' : Network) : Prop where
  puts : PutsPinNode o source g g'
  isOutput : g.isOutput o = true
  mem : o ∈ g.connsOf n
  node : g.node? n = some source
  shared : 1 < (g.refsOf o).length
  unnamed : source.kind.isUnnamed = true

namespace Shares

variable {source : Node}

theorem read (h : Shares o n source g g') : g.refsOf o ≠ [] :=
  ne_nil_of_length_pos (Nat.lt_of_succ_lt h.shared)

theorem given (h : Shares o n source g g') :
    source.kind.isSequential = false ∧ source.kind.isNamed = false :=
  NodeKind.isUnnamed_iff.mp h.unnamed

theorem kind (h : Shares o n source g g') : g.kindOf? n = some source.kind := by
  rw [kindOf?_def, h.node]
  rfl

theorem sound (h : Shares o n source g g') (hg : g.Sound) : g'.Sound :=
  h.puts.sound hg h.isOutput ⟨n, h.mem⟩

end Shares

/-- One item of the walk: an input is one that can be driven. -/
def Stop.Valid (g : Network) : Stop → Prop
  | .node _ => True
  | .input c => g.isSink c = true

/-- An output of a gate gets a pin node if it is shared, and stays as it is otherwise. -/
theorem shares_nameIfShared {k : NodeKind} (hout : w.net.isOutput o) (hg : w.net.Sound)
    (hn : o ∈ w.net.connsOf n) (hk : w.net.kindOf? n = some k)
    (h : w.nameIfShared o k (w.net.refsOf o).length = .ok w') :
    w' = w ∧ (k.isUnnamed → (w.net.refsOf o).length ≤ 1) ∨
      w'.entered = w.entered ∧ ∃ source, Shares o n source w.net w'.net := by
  unfold Walk.nameIfShared at h
  split at h
  · rename_i hshared
    simp only [bind_eq_ok, pure_eq_ok] at h
    obtain ⟨r, hr, rfl⟩ := h
    obtain ⟨n', source, hn', hsource, -, hputs⟩ := puts_putPinNode hg.toWired hr
    obtain rfl := Option.mem_unique hn' (hg.owner hn)
    have hkind : source.kind = k := by simpa [kindOf?_def, hsource] using hk
    rw [Bool.and_eq_true, decide_eq_true_eq] at hshared
    exact .inr ⟨rfl, source, hputs, hout, hn, hsource, hshared.2, hkind ▸ hshared.1⟩
  · rename_i hshared
    refine .inl ⟨(pure_eq_ok.mp h).symm, fun hgate => Nat.le_of_not_lt fun hlt => hshared ?_⟩
    rw [Bool.and_eq_true, decide_eq_true_eq]
    exact ⟨hgate, hlt⟩

/-- What following an input comes to: the input is not driven, or its driver gets a pin node if it is
shared, and the walk goes on from there unless the driver belongs to a pin or pin node. -/
theorem follow_spec (hg : w.net.Sound) (h : w.follow c = .ok (w', more)) :
    (w.net.refsOf c = [] ∧ w' = w ∧ more = []) ∨
      ∃ o n k, w.net.refsOf c = [o] ∧ o ∈ w.net.connsOf n ∧ w.net.kindOf? n = some k ∧
        w.nameIfShared o k (w.net.refsOf o).length = .ok w' ∧
        more = if k.isNamed then [] else [.node n] := by
  simp only [Walk.follow, bind_eq_ok, conn_eq_ok] at h
  obtain ⟨y, hy, h⟩ := h
  have hrefs := refsOf_of_conn? hy
  split at h
  · rename_i hnil
    cases pure_eq_ok.mp h
    exact .inl ⟨hrefs.trans hnil, rfl, rfl⟩
  · rename_i o ho
    have hmem : o ∈ w.net.refsOf c := by simp [hrefs, ho]
    obtain ⟨n, hn⟩ := hg.listed (hg.mirror hmem)
    simp only [bind_eq_ok, conn_eq_ok] at h
    obtain ⟨z, hz, h⟩ := h
    obtain rfl : z.owner = n := by simpa [ownerOf?_def, hz] using hg.owner hn
    split at h
    · simp only [bind_eq_ok, pure_eq_ok, nodeKind_eq_ok] at h
      obtain ⟨k, hk, w1, h1, hw⟩ := h
      obtain ⟨rfl, rfl⟩ := Prod.mk.inj hw
      rw [← refsOf_of_conn? hz] at h1
      exact .inr ⟨o, z.owner, k, hrefs.trans ho, hn, hk, h1, rfl⟩
    · simp only [bind_eq_ok, throw_eq_ok, false_and, and_false, exists_false] at h
  · exact absurd h bind_throw_ne_ok

/-- One step of the walk names one output at most. -/
theorem shares_follow (hg : w.net.Sound) (hc : w.net.isSink c) (h : w.follow c = .ok (w', more)) :
    (w'.net = w.net ∨ ∃ o n source, Shares o n source w.net w'.net) ∧
      ∀ y ∈ more, Stop.Valid w'.net y := by
  rcases follow_spec hg h with ⟨-, rfl, rfl⟩ | ⟨o, n, k, ho, hn, hk, hname, rfl⟩
  · exact ⟨.inl rfl, nofun⟩
  · have hmem : o ∈ w.net.refsOf c := by simp [ho]
    constructor
    · rcases shares_nameIfShared (hg.output_of_sink hmem hc) hg hn hk hname with ⟨rfl, -⟩ | ⟨-, source, hs⟩
      · exact .inl rfl
      · exact .inr ⟨o, n, source, hs⟩
    · intro y hy
      split at hy
      · cases hy
      · rw [mem_singleton.mp hy]
        trivial

theorem enter_spec (h : w.enter n = .ok (w', more)) : w'.net = w.net ∧ ∀ y ∈ more, Stop.Valid w.net y := by
  simp only [Walk.enter, bind_eq_ok] at h
  obtain ⟨k, -, h⟩ := h
  split at h
  · cases h
    exact ⟨rfl, by simp⟩
  · simp only [bind_eq_ok, pure_eq_ok, sinks_eq_ok] at h
    obtain ⟨_, ⟨-, rfl⟩, h⟩ := h
    cases h
    refine ⟨rfl, fun y hy => ?_⟩
    obtain ⟨c, hc, rfl⟩ := mem_map.mp hy
    exact (mem_filter.mp hc).2

/-- Whatever sharing one output keeps, the walk keeps. -/
theorem nameSharedOutputs_invariant {P : Network → Prop} {w : Walk} (hg : g.Sound) (hP : P g)
    (keeps : ∀ {o n source s s'}, s.Sound → P s → Shares o n source s s' → P s')
    (h : g.nameSharedOutputs = .ok w) : P w.net := by
  have hkeep := Attempt.drain_invariant (P := fun w => w.net.Sound ∧ P w.net)
    (I := fun w => Stop.Valid w.net) ?_ ⟨hg, hP⟩ ?_ h
  · exact hkeep.2
  · rintro w x w' more ⟨hs, hPw⟩ hx hstep
    cases x with
    | node n =>
      obtain ⟨hnet, hmore⟩ := enter_spec hstep
      rw [hnet]
      exact ⟨⟨hs, hPw⟩, hmore, fun _ hy => hy⟩
    | input c =>
      obtain ⟨hnet | ⟨o, n, source, hshare⟩, hmore⟩ := shares_follow hs hx hstep
      · rw [hnet] at hmore ⊢
        exact ⟨⟨hs, hPw⟩, hmore, fun _ hy => hy⟩
      · refine ⟨⟨hshare.sound hs, keeps hs hPw hshare⟩, hmore, fun y hy => ?_⟩
        cases y with
        | node => trivial
        | input e =>
          have hes : w.net.isSink e := hy
          exact hshare.puts.evolves.keeps_sink hes
  · intro x hx
    obtain ⟨n, -, rfl⟩ := mem_map.mp hx
    trivial

/-! ## The whole pass -/

/-- What holds at the start, is kept while ports are exposed, and then is kept while outputs are shared
and the list of equations is brought up to date, holds at the end. -/
theorem branch_invariant {P Q : Network → Prop} (hP : ∀ {s}, P s → s.Sound)
    (expose : ∀ {p s s'}, P s → p ∈ s.connsOf designId → Exposes p s s' → P s') (switch : ∀ {s}, P s → Q s)
    (share : ∀ {o n source s s'}, s.Sound → Q s → Shares o n source s s' → Q s')
    (rebuild : ∀ {s s'}, Q s → s.rebuildTop = .ok s' → Q s') (hg : P g) (h : g.branch = .ok r) :
    Q r.2 ∧ r.2.Collected := by
  simp only [branch, bind_eq_ok, pure_eq_ok] at h
  obtain ⟨_, -, g1, h1, w, hw, g2, h2, -, -, rfl⟩ := h
  have hports := exposePorts_invariant hP expose hg h1
  have hwalk := nameSharedOutputs_invariant (hP hports) (switch hports) share hw
  exact ⟨rebuild hwalk h2, collected_rebuildTop h2⟩

/-- The ports of `g` stand on the pins of `g'`, in order, each alone and under its own name. -/
structure Pinned (g g' : Network) : Prop where
  design : g'.connsOf designId = []
  pins : List.Forall₂ (fun p n => g'.connsOf n = [p] ∧ g'.nodeNameOf? n = g.connNameOf? p)
    (g.connsOf designId) g'.pins

theorem OnPins.pinned (h : OnPins K g (g.connsOf designId) g') : Pinned g g' where
  design := by
    rw [h.design]
    simp
  pins := h.pins

theorem Pinned.shares (h : Pinned g g1) (hg1 : g1.Sound) (hs : Shares o n source g1 g') : Pinned g g' where
  design := by
    rw [hs.puts.connsOf_of_isSome (isSome_of_kindOf? hg1.design_kind)]
    exact h.design
  pins := by
    rw [hs.puts.pins]
    apply h.pins.imp
    rintro p n ⟨hconns, hname⟩
    have hn : (g1.node? n).isSome := isSome_of_mem_connsOf (c := p) (by simp [hconns])
    exact ⟨(hs.puts.connsOf_of_isSome hn).trans hconns, (hs.puts.evolves.name hn).trans hname⟩

/-- `g'` is `g` with its ports on pins, in order, and with the same values. A pin node can be
driven, and something reads it. -/
structure Branched (K : NodeKind → Bool) (g g' : Network) : Prop extends Pinned g g' where
  fresh : g'.Fresh K
  refines : Refines g g'
  inputs : KeepsInputs g g'
  cells : ∀ n ∈ g'.cells, n ∈ g.cells
  pinNodes : ∀ n ∈ g'.pinNodes, ∃ c ∈ g'.connsOf n, g'.isSink c = true
  read : g'.PinNodesRead

theorem Branched.of_exposed (hpinNodes : g.pinNodes = [])
    (h : Exposed K g (g.connsOf designId) g') : Branched K g g' where
  toPinned := h.pinned
  fresh := h.fresh
  refines := h.refines
  inputs := h.inputs
  cells n hn := h.cells ▸ hn
  pinNodes n hn := by
    rw [h.pinNodes, hpinNodes] at hn
    cases hn
  read n hn := by
    rw [h.pinNodes, hpinNodes] at hn
    cases hn

/-- A shared output is named. -/
theorem Branched.shares (h : Branched K g g1) (hs : Shares o n source g1 g') : Branched K g g' := by
  have hputs := hs.puts
  have ho := hs.isOutput
  have hl : ∃ n, o ∈ g1.connsOf n := ⟨n, hs.mem⟩
  have hne := hs.read
  have hr := hputs.refines h.fresh ho hl hne
  refine ⟨h.toPinned.shares h.fresh.toSound hs, hputs.fresh h.fresh ho hl hne, h.refines.trans hr,
    h.inputs.trans h.refines.evolves (hputs.keepsInputs h.fresh.toSound ho) hr.evolves, ?_,
    fun n hn => ?_, hputs.pinNodesRead h.fresh.toSound ho hne h.read⟩
  · rw [hputs.cells]
    exact h.cells
  · rw [hputs.pinNodes, mem_append, mem_singleton] at hn
    rcases hn with hn | rfl
    · obtain ⟨c, hc, hs⟩ := h.pinNodes n hn
      refine ⟨c, by rwa [hputs.connsOf_of_isSome (isSome_of_mem_connsOf hc)], ?_⟩
      rw [hr.evolves.isSink (isSome_of_isSink hs)]
      exact hs
    · exact ⟨g1.putIn, by simp [hputs.connsOf], by simp [hputs.isSink, putOut_ne_putIn.symm]⟩

/-- The list of equations is made anew. -/
theorem Branched.rebuilt (h : Branched K g g1) (hrun : g1.rebuildTop = .ok g') : Branched K g g' := by
  have hr := retires_rebuildTop h.fresh.toTidy hrun
  have href : Refines g1 g' := ⟨hr.evolves, fun v => hr.preserves (h.fresh.settled v)⟩
  refine ⟨⟨?_, ?_⟩, hr.fresh h.fresh, h.refines.trans href,
    h.inputs.trans h.refines.evolves (hr.keepsInputs h.fresh.toSound) hr.evolves,
    fun n hn => h.cells n (hr.cells.subset hn), fun n hn => ?_, h.read.rebuilt h.fresh.toTidy hrun⟩
  · rw [hr.connsOf (.inl rfl)]
    exact h.design
  · rw [hr.pins]
    have hmem := (forall₂_and_left _ _).mpr ⟨fun _ hm => hm, h.pins.flip⟩
    apply hmem.flip.imp
    rintro p n ⟨hn, hconns, hname⟩
    have hu : g'.InUse n := .inr (.inr (.inl (hr.pins ▸ hn)))
    exact ⟨(hr.connsOf hu).trans hconns,
      (hr.evolves.name (isSome_of_kindOf? (h.fresh.pin_kind hn))).trans hname⟩
  · obtain ⟨c, hc, hs⟩ := h.pinNodes n (hr.pinNodes.subset hn)
    refine ⟨c, ?_, hr.evolves.keeps_sink hs⟩
    rwa [hr.connsOf (.inr (.inr (.inr hn)))]

theorem branch_spec (hg : g.Fresh K) (hpins : g.pins = []) (hpinNodes : g.pinNodes = [])
    (h : g.branch = .ok r) : Branched K g r.2 ∧ r.2.Collected := by
  simp only [branch, bind_eq_ok, pure_eq_ok] at h
  obtain ⟨_, -, g1, h1, w, hw, g2, h2, -, -, rfl⟩ := h
  have hexp := Branched.of_exposed hpinNodes (exposed_exposePorts hg hpins h1)
  have hwalk := nameSharedOutputs_invariant hexp.fresh.toSound hexp
    (fun _ hP hs => hP.shares hs) hw
  exact ⟨hwalk.rebuilt h2, collected_rebuildTop h2⟩

end Network

end PldSynth
