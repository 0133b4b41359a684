import PldSynth.Proofs.Network.Forwarding
import PldSynth.Proofs.Network.Rehosting

/-!
# What the first two passes leave, circles or not

The passes that name shared signals and remove pin nodes that only forward one do not rely on the search
for circles. Whatever the wiring, a pin node that they leave stands right behind a gate or a constant
and is the only reader of it (`Anchored`), so no pin node reads itself or another one. `Layered` is all
that the passes leave for the takeovers to start from.
-/

namespace PldSynth.Network

open List

variable {K : NodeKind → Bool} {g g' h : Network} {n m a b : NodeId}
  {c d x o p input output kept : ConnId} {source : Node} {s : Takeover} {r : Bool × Network}

/-! ## Pin nodes and what they read -/

/-- What a pin node reads belongs neither to a pin or pin node nor to a register or buffer, and nothing
else reads it. -/
def Anchored (g : Network) : Prop :=
  ∀ ⦃n c d m⦄, g.kindOf? n = some .pinNode → c ∈ g.connsOf n → g.isSink c = true → d ∈ g.refsOf c →
    d ∈ g.connsOf m → g.hasKind NodeKind.isNamed m = false ∧
      g.hasKind NodeKind.isSequential m = false ∧ ∀ x ∈ g.refsOf d, x = c

theorem Anchored.selfless (h : g.Anchored) : g.Selfless := by
  intro n c d hk hc hs hd hn
  have hnamed := (h hk hc hs hd hn).1
  rw [hasKind, hk] at hnamed
  cases hnamed

/-- Without pin nodes there is nothing to say. -/
theorem anchored_of_pinNodes (hg : g.Owned) (hnone : g.pinNodes = []) : g.Anchored := by
  intro n c d m hk hc
  have hn := hg.mem_of_isNamed hc (hasKind_of hk rfl)
  rw [hnone, append_nil] at hn
  rw [hg.pin_kind hn] at hk
  cases hk

/-- Taking connections and wires away keeps it. -/
theorem Anchored.mono (h : g.Anchored) (hkind : ∀ n, g'.kindOf? n = g.kindOf? n)
    (hdir : ∀ {n c}, c ∈ g.connsOf n → g'.isSink c = g.isSink c)
    (hconns : ∀ {n c}, c ∈ g'.connsOf n → c ∈ g.connsOf n)
    (hrefs : ∀ {c d}, d ∈ g'.refsOf c → d ∈ g.refsOf c) : g'.Anchored := by
  intro n c d m hk hc hs hd hm
  rw [hkind] at hk
  rw [hdir (hconns hc)] at hs
  rcases h hk (hconns hc) hs (hrefs hd) (hconns hm) with ⟨hnamed, hseq, hsole⟩
  exact ⟨(hasKind_congr (hkind m)).trans hnamed, (hasKind_congr (hkind m)).trans hseq,
    fun x hx => hsole x (hrefs hx)⟩

/-- A new pin node is put behind an output that several connections read, so no pin node reads it. -/
theorem Shares.anchored (h : Shares o n source g g') (hg : g.Sound) (ha : g.Anchored) : g'.Anchored := by
  have hputs := h.puts
  have hold : ∀ {k}, g'.kindOf? k = some .pinNode → k ≠ g.nextNode → g.kindOf? k = some .pinNode := by
    intro k hk hne
    rwa [hputs.kindOf?, if_neg hne] at hk
  have hkind : ∀ {P : NodeKind → Bool} {k}, k ≠ g.nextNode → g'.hasKind P k = g.hasKind P k := by
    intro P k hne
    rw [hasKind, hputs.kindOf?, if_neg hne, hasKind]
  have hon : o ∈ g'.connsOf n := by
    rw [hputs.connsOf_of_isSome (isSome_of_mem_connsOf h.mem)]
    exact h.mem
  intro k c d m hk hc hs hd hm
  by_cases hkn : k = g.nextNode
  · -- the new pin node
    subst hkn
    rw [hputs.connsOf, if_pos rfl] at hc
    obtain rfl := hputs.eq_putIn_of_isSink hc hs
    rw [hputs.refsOf_putIn hg h.isOutput, mem_singleton] at hd
    subst hd
    have hnm : m = n := (h.sound hg).eq_of_mem hm hon
    have hne : n ≠ g.nextNode := ne_nextNode (isSome_of_mem_connsOf h.mem)
    refine ⟨?_, ?_, fun x hx => ?_⟩
    · rw [hnm, hkind hne, hasKind, h.kind]
      exact h.given.2
    · rw [hnm, hkind hne, hasKind, h.kind]
      exact h.given.1
    · rw [hputs.refsOf_self hg h.isOutput] at hx
      exact mem_singleton.mp hx
  · have hk0 := hold hk hkn
    rw [hputs.connsOf, if_neg hkn] at hc
    rw [hputs.evolves.isSink (hg.conn_isSome hc)] at hs
    rw [hputs.refsOf_sink hg h.isOutput hs] at hd
    split at hd
    · -- then `o` would have one consumer only
      rename_i hread
      have hsole := (ha hk0 hc hs (hg.mirror hread) h.mem).2.2
      have hrep := eq_replicate_of_mem hsole
      have hnd := hg.nodup_refs o
      rw [hrep, nodup_replicate] at hnd
      have := h.shared
      omega
    · rename_i hread
      have hds := isSome_of_mem_refsOf (hg.mirror hd)
      have hmn : m ≠ g.nextNode := by
        rintro rfl
        rw [hputs.connsOf] at hm
        have hput := ne_put hds
        simp [hput] at hm
      have hdo : d ≠ o := by
        rintro rfl
        exact hread (hg.mirror hd)
      rw [hputs.connsOf, if_neg hmn] at hm
      rw [hkind hmn, hkind hmn, hputs.refsOf_output hg h.isOutput (hg.output_of_sink hd hs) hdo]
      exact ha hk0 hc hs hd hm

/-- A node that forwards a pin node is a pin, so the pin nodes that stay read what they read. -/
theorem Fuses.anchored (h : Fuses input output kept a b g g') (hg : g.Raw K)
    (hf : Forwarded g input output a b) (ha : g.Anchored) : g'.Anchored := by
  have hb : g.hasKind NodeKind.isNamed b := hasKind_of hf.kind rfl
  -- no pin node reads the pin node that goes
  have hnot : ∀ {n c}, g.kindOf? n = some .pinNode → c ∈ g.connsOf n → g.isSink c →
      output ∉ g.refsOf c := by
    intro n c hk hc hs hr
    rw [(ha hk hc hs hr hf.mem_output).1] at hb
    cases hb
  rcases h.refsOf with ⟨out, hout, hrefs⟩
  intro n c d m hk hc hs hd hm
  rw [h.kindOf?] at hk
  have hna : n ≠ a := by
    rintro rfl
    exact hnot hk hf.mem hf.isSink (by simp [hf.refs])
  have hnb : n ≠ b := by
    rintro rfl
    simp [h.connsOf_source] at hc
  have hs0 := (h.isSink_before hg hf hc hs).1
  have hc0 : c ∈ g.connsOf n := by rwa [h.connsOf hna hnb] at hc
  rw [hrefs hs0 hc] at hd
  split at hd
  · rename_i hread
    exact absurd (hg.mirror hread) (hnot hk hc0 hs0)
  rcases hg.listed (hg.mirror hd) with ⟨m0, hm0⟩
  rcases ha hk hc0 hs0 hd hm0 with ⟨hnamed, hseq, hsole⟩
  have hma : m0 ≠ a := by
    rintro rfl
    rw [hf.named] at hnamed
    cases hnamed
  have hmb : m0 ≠ b := by
    rintro rfl
    rw [hb] at hnamed
    cases hnamed
  have hm1 : d ∈ g'.connsOf m0 := by rwa [h.connsOf hma hmb]
  obtain rfl : m = m0 := h.sound.eq_of_mem hm hm1
  refine ⟨(hasKind_congr (h.kindOf? m)).trans hnamed, (hasKind_congr (h.kindOf? m)).trans hseq,
    fun x hx => ?_⟩
  · -- a reader that came over from the pin node reads an output of `a`
    have hxd := h.sound.mirror hx
    rcases h.sound.listed hxd with ⟨k, hk'⟩
    have hdo : g'.isOutput d := by
      rw [h.evolves.isOutput (hg.conn_isSome hm0)]
      exact hg.output_of_sink hd hs0
    have hxs := (h.isSink_before hg hf hk' (h.sound.sink_of_output hx hdo)).1
    rw [hrefs hxs hk'] at hxd
    split at hxd
    · rename_i hread
      have hxi : x ≠ input := by
        rintro rfl
        exact h.input_not_mem k hk'
      have hda := (hout ⟨x, hread, hxi⟩).1
      rw [← mem_singleton.mp hxd] at hda
      exact absurd (h.sound.eq_of_mem hm1 hda) hma
    · exact hsole x (hg.mirror hxd)

theorem Retires.anchored (h : Retires K g g') (hg : g.Sound) (ha : g.Anchored) : g'.Anchored := by
  refine ha.mono h.kindOf? (fun hc => h.evolves.isSink (hg.conn_isSome hc)) (fun {n c} hc => ?_)
    fun {c d} hd => (h.refsOf c).subset hd
  rw [h.connsOf (h.tidy.inUse hc)] at hc
  exact hc

/-- An edit of the pass leaves pin nodes behind gates and constants. -/
theorem Trims.anchored (h : Trims g g') (hg : g.Raw K) (ha : g.Anchored) : g'.Anchored := by
  cases h with
  | fuse hf h => exact h.anchored hg hf ha
  | drop _ _ _ h =>
    refine ha.mono (fun _ => h.kindOf?) (fun _ => isSink_congr h.directionOf?) (fun {n c} hc => ?_)
      fun {c d} hd => ?_
    · rw [connsOf_detached h] at hc
      exact (mem_filter.mp hc).1
    · rw [refsOf_detached h] at hd
      split at hd
      · cases hd
      · exact (mem_filter.mp hd).1
  | retire hk hun h => exact (retires_retired h hg.toTidy hk ⟨nofun, nofun, rfl⟩ hun).anchored hg.toSound ha
  | rebuild h => exact (retires_rebuildTop hg.toTidy h).anchored hg.toSound ha

/-! ## Bidirectional ports -/

/-- `h` comes from `g`, and its bidirectional connections from the ports of `g`: those that are not
exposed yet are ports, and one that stands on a pin is a port with the name of the pin. -/
structure Ported (g h : Network) : Prop where
  evolves : Evolves g h
  design : ∀ {c}, c ∈ h.connsOf designId → c ∈ g.connsOf designId ∧ h.connNameOf? c = g.connNameOf? c
  pins : ∀ {n c}, h.kindOf? n = some .pin → c ∈ h.connsOf n →
    h.directionOf? c = some .bidirectional → c ∈ g.connsOf designId ∧ h.nodeNameOf? n = g.connNameOf? c

theorem Ported.refl (hg : g.Owned) (hnone : g.pins = []) : Ported g g where
  evolves := .refl g
  design hc := ⟨hc, rfl⟩
  pins {n c} hk hc := by
    have hn := hg.mem_of_isNamed hc (hasKind_of hk rfl)
    rw [hnone] at hn
    rw [hg.pinNode_kind hn] at hk
    cases hk

theorem Ported.design_step (hp : Ported g h) (hh : h.Owned) (he : Evolves h g')
    (hc : c ∈ g'.connsOf designId) : c ∈ g.connsOf designId ∧ g'.connNameOf? c = g.connNameOf? c := by
  have hd := isSome_of_kindOf? hh.design_kind
  have hnamed : h.hasKind NodeKind.isNamed designId = false := by
    rw [hasKind, hh.design_kind]
    rfl
  have hc0 := he.shrinks hd hnamed hc
  rw [he.connName hd hnamed (hh.conn_isSome hc0) hc]
  exact hp.design hc0

/-- An edit that makes no pin and gives a pin nothing but inputs and outputs keeps this. -/
theorem Ported.step (hp : Ported g h) (hh : h.Owned) (he : Evolves h g')
    (hkind : ∀ {n}, g'.kindOf? n = some .pin → h.kindOf? n = some .pin)
    (hconns : ∀ {n c}, g'.kindOf? n = some .pin → c ∈ g'.connsOf n →
      c ∈ h.connsOf n ∨ g'.isInput c ∨ g'.isOutput c) : Ported g g' where
  evolves := hp.evolves.trans he
  design := hp.design_step hh he
  pins {n c} hk hc hd := by
    rcases hconns hk hc with hc | hin | hout
    · rw [he.direction (hh.conn_isSome hc)] at hd
      rw [he.name (isSome_of_mem_connsOf hc)]
      exact hp.pins (hkind hk) hc hd
    · simp [isInput, hd] at hin
    · simp [isOutput, hd] at hout

/-- A port that is exposed stands on a pin with its name. -/
theorem Exposes.ported (hx : Exposes p h g') (hh : h.Owned) (hp : Ported g h)
    (hmem : p ∈ h.connsOf designId) : Ported g g' where
  evolves := hp.evolves.trans hx.evolves
  design := hp.design_step hh hx.evolves
  pins {n c} hk hc hd := by
    rw [hx.connsOf] at hc
    by_cases hn : n = h.nextNode
    · rw [if_pos hn, mem_singleton] at hc
      rcases hp.design hmem with ⟨hport, hname⟩
      rw [hn, hc, hx.name]
      exact ⟨hport, hname⟩
    · rw [if_neg hn, mem_filter] at hc
      rw [hx.kindOf?, if_neg hn] at hk
      rw [hx.directionOf?] at hd
      rw [hx.evolves.name (isSome_of_mem_connsOf hc.1)]
      exact hp.pins hk hc.1 hd

theorem PutsPinNode.ported (hx : PutsPinNode o source h g') (hh : h.Owned) (hp : Ported g h) :
    Ported g g' := by
  have hne : ∀ {n}, g'.kindOf? n = some .pin → n ≠ h.nextNode := by
    rintro n hk rfl
    rw [hx.kindOf?, if_pos rfl] at hk
    cases hk
  refine hp.step hh hx.evolves (fun hk => ?_) fun hk hc => .inl ?_
  · have hn := hne hk
    rwa [hx.kindOf?, if_neg hn] at hk
  · rwa [hx.connsOf, if_neg (hne hk)] at hc

theorem Retires.ported (hr : Retires K h g') (hh : h.Owned) (hp : Ported g h) : Ported g g' := by
  refine hp.step hh hr.evolves (fun hk => ?_) fun _ hc => .inl ?_
  · rwa [hr.kindOf?] at hk
  · rwa [hr.connsOf (hr.tidy.inUse hc)] at hc

theorem Fuses.ported (hf : Fuses input output kept a b h g') (hh : h.Owned) (hp : Ported g h) :
    Ported g g' := by
  refine hp.step hh hf.evolves (fun hk => ?_) fun {n c} _ hc => ?_
  · rwa [hf.kindOf?] at hk
  rcases hf.mem_connsOf hc with hc | ⟨-, rfl | ⟨-, hout⟩⟩
  · exact .inl hc
  · right
    left
    rw [isInput_congr (hf.evolves.direction (hh.conn_isSome hf.kept_mem))]
    exact hf.kept_isInput
  · exact .inr (.inr hout)

theorem Trims.ported (ht : Trims h g') (hh : h.Raw K) (hp : Ported g h) : Ported g g' := by
  cases ht with
  | fuse _ hf => exact hf.ported hh.toOwned hp
  | drop _ _ _ hd =>
    refine hp.step hh.toOwned (evolves_detached hd) (fun hk => ?_) fun _ hc => .inl ?_
    · rwa [hd.kindOf?] at hk
    · rw [connsOf_detached hd] at hc
      exact (mem_filter.mp hc).1
  | retire hk hun hr => exact (retires_retired hr hh.toTidy hk ⟨nofun, nofun, rfl⟩ hun).ported hh.toOwned hp
  | rebuild hr => exact (retires_rebuildTop hh.toTidy hr).ported hh.toOwned hp

theorem Takeover.Applies.ported (ha : s.Applies h g') (hh : h.Owned) (hp : Ported g h) : Ported g g' := by
  refine hp.step hh ha.evolves (fun hk => ?_) fun {n c} _ hc => ?_
  · rwa [ha.kindOf?] at hk
  rcases ha.mem_connsOf hc with hc | hc | hout
  · exact .inl hc
  · rcases ha.isInput hc with ⟨hmem, hin⟩
    right
    left
    rw [isInput_congr (ha.evolves.direction (hh.conn_isSome hmem))]
    exact hin
  · exact .inr (.inr hout)

theorem TakesOver.ported {g1 g2 : Network} (ht : TakesOver s h g1 g2 g') (hh : h.Poised K)
    (hp : Ported g h) : Ported g g' := by
  have hp1 : Ported g g1 := by
    have hseats := ht.seats
    generalize s.target = t, s.slot = slot at hseats
    cases hseats with
    | existing => exact hp
    | fresh hx => exact hx.ported hh.toOwned hp
  exact (ht.retires hh).ported (ht.poised2 hh).toOwned (ht.applies.ported (ht.poised1 hh).toOwned hp1)

/-! ## The first two passes -/

/-- What the first two passes keep of a network `g`, and what the takeovers start from. -/
structure Layered (K : NodeKind → Bool) (g h : Network) : Prop extends Raw K h where
  anchored : h.Anchored
  read : h.PinNodesRead
  data : ∀ {n}, h.kindOf? n = some .triState → h.OneDataAt n
  ported : Ported g h

theorem Layered.poised (hh : Layered K g h) : h.Poised K :=
  hh.toRaw.poised hh.data

theorem Exposes.layered (hx : Exposes p h g') (hh : Layered K g h) (hnone : h.pinNodes = [])
    (hmem : p ∈ h.connsOf designId) : Layered K g g' where
  toRaw := hx.raw hh.toRaw
  anchored := anchored_of_pinNodes hx.sound.toOwned (hx.pinNodes.trans hnone)
  read n hn := by
    rw [hx.pinNodes, hnone] at hn
    cases hn
  data {n} hk := by
    rw [hx.kindOf?] at hk
    split at hk
    · cases hk
    · exact (hh.data hk).evolves hh.toOwned hk hx.evolves
  ported := hx.ported hh.toOwned hh.ported hmem

theorem Shares.layered (hs : Shares o n source h g') (hh : Layered K g h) : Layered K g g' where
  toRaw := hs.puts.raw hh.toRaw hs.isOutput ⟨n, hs.mem⟩
  anchored := hs.anchored hh.toSound hh.anchored
  read := hs.puts.pinNodesRead hh.toSound hs.isOutput hs.read hh.read
  data := (hs.puts.poised hh.poised hs.isOutput ⟨n, hs.mem⟩).data
  ported := hs.puts.ported hh.toOwned hh.ported

theorem Trims.layered (ht : Trims h g') (hh : Layered K g h) : Layered K g g' where
  toRaw := ht.raw hh.toRaw
  anchored := ht.anchored hh.toRaw hh.anchored
  read := ht.pinNodesRead hh.toRaw hh.read
  data {n} hk := by
    rw [ht.kindOf? hh.toTidy] at hk
    exact (hh.data hk).evolves hh.toOwned hk (ht.evolves hh.toTidy)
  ported := ht.ported hh.toRaw hh.ported

theorem layered_refl (hg : g.Raw K) (hpins : g.pins = []) (hpinNodes : g.pinNodes = [])
    (hdata : ∀ {n}, g.kindOf? n = some .triState → g.OneDataAt n) : Layered K g g := by
  refine ⟨hg, anchored_of_pinNodes hg.toOwned hpinNodes, fun n hn => ?_, hdata, .refl hg.toOwned hpins⟩
  rw [hpinNodes] at hn
  cases hn

theorem layered_branch (hg : g.Raw K) (hpins : g.pins = []) (hpinNodes : g.pinNodes = [])
    (hdata : ∀ {n}, g.kindOf? n = some .triState → g.OneDataAt n) (hrun : g.branch = .ok r) :
    Layered K g r.2 := by
  refine (branch_invariant (P := fun h => Layered K g h ∧ h.pinNodes = [])
    (fun hh => hh.1.toSound) ?_ (fun hh => hh.1) (fun _ hh hs => hs.layered hh) ?_
    ⟨layered_refl hg hpins hpinNodes hdata, hpinNodes⟩ hrun).1
  · rintro p h h' ⟨hh, hnone⟩ hmem hx
    exact ⟨hx.layered hh hnone hmem, hx.pinNodes.trans hnone⟩
  · intro h h' hh hr
    exact (Trims.rebuild hr).layered hh

theorem layered_simplify (hh : Layered K g h) (hrun : h.simplify = .ok r) : Layered K g r.2 :=
  (simplify_invariant (fun hs => ⟨hs.toRaw, hs.anchored.selfless⟩)
    (fun hs ht => ht.layered hs) hh hrun).1

end PldSynth.Network
