import PldSynth.Proofs.Network.Bounds
import PldSynth.Proofs.Network.Liveness
import PldSynth.Proofs.Network.Success

/-!
# Removing pin nodes does not fail

Every pin node that took over nothing can be removed as long as it is driven at its one input and has an
output (`PinNodesFree`). Copying the logic behind it then succeeds for each consumer, and so does retiring
what is no longer read. What is left is free in the same sense, so the budget can be kept to its end
(`exists_expand`).
-/

namespace PldSynth.Network

open Attempt Relation

variable {K : NodeKind → Bool} {g g' g1 g2 : Network} {n m pn : NodeId} {v : ConnId → Bool}
  {c d o x root out input consumer : ConnId} {f : ConnId → List ConnId → List ConnId} {cone : Cone}

/-! ## Walks through the logic -/

theorem exists_coneOf (hg : g.Sound) (hroot : ∃ n, root ∈ g.connsOf n) :
    ∃ cone, g.coneOf root = .ok cone :=
  (follows_coneOf hg.closed hroot).exists_ok

theorem exists_offer? (hg : g.Sound) (hn : (g.node? n).isSome) : ∃ r, g.offer? n = .ok r :=
  (follows_offer? hg.closed hn).exists_ok

theorem exists_nextCandidate (hg : g.Sound) : ∃ r, g.nextCandidate = .ok r :=
  (follows_nextCandidate hg.closed fun _ hn => isSome_of_kindOf? (hg.pinNode_kind hn)).exists_ok

/-! ## One pin node -/

/-- A pin node that is driven at its one input and has an output can be removed. -/
theorem exists_inlinePinNode (hg : g.Tidy K) (hK : ∀ k, k.isCombinational → K k) (hset : g.Settled v)
    (hr : g.Removable pn input root out) : ∃ ns g1 g2 g', g.inlinePinNode pn = .ok g' ∧
      Removal K pn input root out ns g g1 g2 g' := by
  have hn : (g.node? pn).isSome := isSome_of_kindOf? hr.kind
  have hreg := hg.regular (hasKind_of hr.kind (by simp [NodeKind.isNamed]))
  -- a pin node has no bidirectional connection
  have hinput : g.isInput input := by
    rcases hreg.plain (by simp [hr.kind]) hr.input_mem with hin | hout
    · exact hin
    · have hs := hr.input_sink
      rw [not_isSink_of_isOutput hout] at hs
      cases hs
  have hinputs : (g.connsOf pn).filter g.isInput = [input] :=
    filter_of_sole (hg.nodup_conns pn) hr.input_mem hinput fun c hc hin =>
      hr.sole c hc (isSink_of_isInput hin)
  have hfind : (g.connsOf pn).find? g.isOutput = some out := by
    cases hf : (g.connsOf pn).find? g.isOutput with
    | none => exact absurd hr.out_output (List.find?_eq_none.mp hf out hr.out_mem)
    | some o =>
      rw [hreg.lone (List.mem_of_find?_eq_some hf) hr.out_mem (List.find?_some hf) hr.out_output]
  have hrefs : root ∈ g.refsOf input := by simp [hr.driven]
  have hlisted := hg.listed (hg.mirror hrefs)
  -- the logic behind the pin node is copied for each of its consumers
  rcases exists_coneOf hg.toSound hlisted with ⟨cone, hcone⟩
  have hiscone := isCone_coneOf hg hK hlisted hcone
  rcases hr.exists_removal hg hK hset hiscone with ⟨g1, g2, g', hloop, hretire, hrest, hrem⟩
  rcases Option.isSome_iff_exists.mp (isSome_of_isOutput hr.out_output) with ⟨y, hy⟩
  rw [refsOf_of_conn? hy] at hloop
  refine ⟨cone.inner, g1, g2, g', ?_, hrem⟩
  simp only [inlinePinNode, inputs_eq_ok.mpr ⟨hn, hinputs⟩, driver?_eq_ok.mpr
    ⟨isSome_of_isSink hr.input_sink, (by simp [hr.driven] : (g.refsOf input).head? = some root)⟩,
    output?_eq_ok.mpr ⟨hn, hfind⟩, hcone, conn_eq_ok.mpr hy, hloop, hretire, hrest, ok_bind]

/-! ## Keeping within the budget -/

/-- Every pin node that took over nothing can be removed. -/
def PinNodesFree (g : Network) : Prop :=
  ∀ pn ∈ g.pinNodes, g.absorbedOf pn = .nothing → ∃ input root out, g.Removable pn input root out

/-- A pin node that stays is driven and has its output as before. -/
theorem PinNodesFree.unfolds {origin : ConnId → ConnId} (h : g.PinNodesFree) (hg : g.Sound)
    (hset : g.Settled v) (hu : Unfolds K origin g g') : g'.PinNodesFree := by
  intro pn hpn hnothing
  have hpn0 := hu.pinNodes.subset hpn
  have hn : (g.node? pn).isSome := isSome_of_kindOf? (hg.pinNode_kind hpn0)
  have hconns := hu.connsOf hn (.inr (.inr (.inr hpn)))
  rw [hu.absorbedOf hn] at hnothing
  rcases h pn hpn0 hnothing with ⟨input, root, out, hr⟩
  rcases (hu.preserves hset).trails hr.input_sink hr.driven ⟨pn, hconns ▸ hr.input_mem⟩ with
    ⟨hs, root', hdriven, -⟩
  refine ⟨input, root', out, ⟨(hu.evolves.kind hn).trans hr.kind, (hu.absorbedOf hn).trans hnothing,
    hconns ▸ hr.input_mem, hs, fun c hc hcs => ?_, hdriven, hconns ▸ hr.out_mem, ?_⟩⟩
  · rw [hconns] at hc
    rw [hu.evolves.isSink (hg.conn_isSome hc)] at hcs
    exact hr.sole c hc hcs
  · exact hu.evolves.keeps_output hr.out_output

/-! ### Free pin nodes after the takeovers -/

/-- Every pin node that took over nothing can be removed, and no register or buffer drives it. -/
def PinNodesCombinational (g : Network) : Prop :=
  ∀ pn ∈ g.pinNodes, g.absorbedOf pn = .nothing → ∃ input root out m,
    g.Removable pn input root out ∧ root ∈ g.connsOf m ∧ g.hasKind NodeKind.isSequential m = false

theorem PinNodesCombinational.free (h : g.PinNodesCombinational) : g.PinNodesFree := by
  intro pn hpn hnothing
  rcases h pn hpn hnothing with ⟨input, root, out, m, hr, -⟩
  exact ⟨input, root, out, hr⟩

theorem Trimmable.pinNodesCombinational (hg : g.Trimmable K) : g.PinNodesCombinational := by
  intro pn hpn hnothing
  have hkind := hg.pinNode_kind hpn
  have hnamed : g.hasKind NodeKind.isNamed pn := hasKind_of hkind rfl
  rcases hg.fed pn hpn with ⟨input, hin, hs⟩
  rcases hg.driven hin hs with ⟨root, hroot⟩
  have hmem : root ∈ g.refsOf input := by simp [hroot]
  rcases hg.listed (hg.mirror hmem) with ⟨m, hm⟩
  rcases hg.read pn hpn with ⟨c, out, hcs, hrefs, hout⟩
  have hr : g.Removable pn input root out :=
    ⟨hkind, hnothing, hin, hs, fun c hc hcs => hg.single hnamed hc hin hcs hs, hroot, hout,
      hg.output_of_sink (by simp [hrefs]) hcs⟩
  exact ⟨input, root, out, m, hr, hm, (hg.anchored hkind hin hs hmem hm).2.1⟩

section Takeover

variable {s : Takeover} (ht : TakesOver s g g1 g2 g')
include ht

/-- A pin node that took over nothing was there before and is not the node that takes over. -/
theorem TakesOver.pinNode_before (hg : g.Poised K) (hn : n ∈ g'.pinNodes)
    (hnothing : g'.absorbedOf n = .nothing) :
    n ∈ g.pinNodes ∧ g.absorbedOf n = .nothing ∧ n ≠ s.cell ∧ n ≠ s.target := by
  rcases ht.ne_target hg hnothing with ⟨htarget, hnothing0⟩
  have hn2 : n ∈ g1.pinNodes := ht.applies.pinNodes ▸ (ht.retires hg).pinNodes.subset hn
  have hn0 := ht.seats.mem_pinNodes_of_ne hn2 htarget
  refine ⟨hn0, hnothing0, ?_, htarget⟩
  rintro rfl
  have hk := ht.hasKind_cell
  rw [hasKind, hg.pinNode_kind hn0] at hk
  cases hk

/-- What drives a combinational pin node is not on the cell, and it is read, so both stay. -/
theorem TakesOver.pinNodesCombinational (hg : g.Ready K) (h : g.PinNodesCombinational) :
    g'.PinNodesCombinational := by
  have hp := hg.toPoised
  have hret := ht.retires hp
  have he := ht.evolves hp
  intro pn hpn hnothing
  rcases ht.pinNode_before hp hpn hnothing with ⟨hpn0, hnothing0, hcell, htarget⟩
  rcases h pn hpn0 hnothing0 with ⟨input, root, out, m, hr, hm, hseq⟩
  have hn := isSome_of_kindOf? hr.kind
  have hmc : m ≠ s.cell := by
    rintro rfl
    rw [ht.hasKind_cell] at hseq
    cases hseq
  have hconns : g'.connsOf pn = g.connsOf pn := calc
    g'.connsOf pn = g2.connsOf pn := hret.connsOf (.inr (.inr (.inr hpn)))
    _ = g1.connsOf pn := ht.applies.connsOf_of_ne hcell htarget
    _ = g.connsOf pn := ht.connsOf1 hn
  have hin : input ∈ g'.connsOf pn := hconns ▸ hr.input_mem
  have hs : g'.isSink input :=
    he.keeps_sink hr.input_sink
  -- first the takeover, then what goes when the list of equations is brought up to date
  rcases ht.keeps_driver hp hr.input_mem hcell htarget hr.input_sink hr.driven hm hmc with
    ⟨hin2, hroot2, hm2⟩
  have hdriven : g'.refsOf input = [root] := by
    have hs2 : g2.isSink input := by
      rw [← hret.evolves.isSink ((ht.poised2 hp).conn_isSome hin2)]
      exact hs
    exact hret.refsOf_eq (ht.settled2 hp (hg.settled fun _ => false)) hs2 hroot2 ⟨pn, hin⟩
  have hroot : root ∈ g'.connsOf m := by
    have hmem : root ∈ g'.refsOf input := by simp [hdriven]
    rcases hret.tidy.listed (hret.tidy.mirror hmem) with ⟨m', hm'⟩
    have hback := hm'
    rw [hret.connsOf (hret.tidy.inUse hm')] at hback
    exact (ht.poised2 hp).eq_of_mem hback hm2 ▸ hm'
  refine ⟨input, root, out, m, ⟨(he.kind hn).trans hr.kind, hnothing, hin, hs, fun c hc hcs => ?_,
    hdriven, hconns ▸ hr.out_mem, ?_⟩, hroot, (he.hasKind (isSome_of_mem_connsOf hm) _).trans hseq⟩
  · rw [hconns] at hc
    rw [he.isSink (hg.conn_isSome hc)] at hcs
    exact hr.sole c hc hcs
  · exact he.keeps_output hr.out_output

end Takeover

/-- After the takeovers every pin node that took over nothing can be removed. -/
theorem pinNodesFree_collapse {r : Bool × Network} (hg : g.Ready K) (h : g.PinNodesCombinational)
    (hrun : g.collapse = .ok r) : r.2.Ready K ∧ r.2.PinNodesFree := by
  rcases collapse_invariant hg h
    (fun hs hP _ ht => ht.pinNodesCombinational hs hP) id
    (fun hs hQ _ ht => ht.pinNodesCombinational hs hQ) hrun with ⟨hready, -, hcomb⟩
  exact ⟨hready, hcomb.free⟩

/-! ### All removals -/

/-- A pin node that took over nothing is removed, and the network is in order afterwards. -/
theorem exists_removal (hg : g.Tidy K) (hK : ∀ k, k.isCombinational → K k) (hset : g.Settled v)
    (hfree : g.PinNodesFree) (hpn : pn ∈ g.pinNodes) (hnothing : g.absorbedOf pn = .nothing) :
    ∃ input root out ns s1 s2 g1 g2, g.inlinePinNode pn = .ok g1 ∧
      Removal K pn input root out ns g s1 s2 g1 ∧ g1.rebuildTop = .ok g2 ∧ g2.checkAll = .ok () := by
  rcases hfree pn hpn hnothing with ⟨input, root, out, hr⟩
  rcases exists_inlinePinNode hg hK hset hr with ⟨ns, s1, s2, g1, h1, hrem⟩
  rcases hrem.unfolds with ⟨origin, hu⟩
  rcases exists_rebuildTop hu.tidy.toSound with ⟨g2, h2, hsound⟩
  exact ⟨input, root, out, ns, s1, s2, g1, g2, h1, hrem, h2, hsound.checkAll⟩

/-- One pin node after the other is removed. -/
theorem exists_inlineAll {limit bound : Nat} (hg : g.Tidy K)
    (hK : ∀ k, k.isCombinational → K k) (hset : g.Settled v) (hfree : g.PinNodesFree) :
    ∃ r, inlineAll limit bound g = .ok r := by
  induction bound generalizing g with
  | zero => exact ⟨_, rfl⟩
  | succ bound ih =>
    rw [inlineAll]
    split
    · exact ⟨_, rfl⟩
    rcases exists_nextCandidate hg.toSound with ⟨candidate, hcand⟩
    refine exists_bind hcand ?_
    split
    · exact ⟨_, rfl⟩
    rename_i pn
    rcases nextCandidate_spec hcand with ⟨hpn, hnothing⟩
    rcases exists_removal hg hK hset hfree hpn hnothing with
      ⟨_, _, _, ns, s1, s2, g1, g2, h1, hrem, h2, hcheck⟩
    have hstep : RemovalStep K g g2 := ⟨hg, pn, _, _, _, ns, s1, s2, g1, hpn, hrem, h2⟩
    rcases hstep.unfolds with ⟨origin, hu⟩
    rcases ih hu.tidy (hu.settled hset) (hfree.unfolds hg.toSound hset hu) with ⟨r, hrest⟩
    have hround : g.inlineRound pn = .ok g2 := by
      simp only [inlineRound, h1, h2, hcheck, ok_bind]
      rfl
    exact exists_bind hround (exists_bind hrest ⟨_, rfl⟩)

theorem exists_expand (limit : Option Nat) (hg : g.Tidy K)
    (hK : ∀ k, k.isCombinational → K k) (hset : g.Settled v) (hfree : g.PinNodesFree) :
    ∃ r, expand limit g = .ok r := by
  cases limit with
  | none => exact ⟨_, rfl⟩
  | some limit => exact exists_inlineAll hg hK hset hfree

end PldSynth.Network
