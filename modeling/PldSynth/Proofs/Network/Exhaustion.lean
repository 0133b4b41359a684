import PldSynth.Proofs.Network.FixedPoint
import PldSynth.Proofs.Network.Trails

/-!
# The budget is met exactly

A pin node that took over nothing reads logic, and nothing depends on itself, so that logic does not read
the pin node (`Removable.isFeedback_eq`). Hence as long as there is such a pin node, there is one to remove
next (`exists_candidate`). If every pin node is read, no other one goes with it, and what is left is read
again. So the pass stops at the limit, or when all that is left took over a register or buffer
(`meetsBudget_inlineAll`).
-/

namespace PldSynth.Network

open Attempt List Relation

variable {K : NodeKind → Bool} {g g' : Network} {n m pn : NodeId} {v : ConnId → Bool}
  {c d o root out input : ConnId} {limit : Nat}

/-! ## Logic does not read its own pin node -/

/-- A step of the walk adds no node to the border but the one it stands at. -/
theorem coneStep_boundary (hg : g.Owned) {cone cone' : Cone} {more : List ConnId}
    (hn : o ∈ g.connsOf n) (hrun : g.coneStep cone o = .ok (cone', more))
    (hm : cone'.boundary.contains m) : cone.boundary.contains m ∨ m = n := by
  simp only [coneStep, bind_eq_ok, owner_eq_ok, hg.owner hn] at hrun
  rcases hrun with ⟨n', hn', k, -, hrun⟩
  obtain rfl := Option.some.inj hn'
  by_cases hbound : k.isBoundary = true
  · rw [if_pos hbound] at hrun
    cases hrun
    by_cases hmn : m = n
    · exact .inr hmn
    · rw [NodeSet.contains_insert_of_ne cone.boundary hmn] at hm
      exact .inl hm
  · rw [if_neg hbound] at hrun
    left
    split at hrun
    · cases hrun
      exact hm
    · simp only [bind_eq_ok, pure_eq_ok, Prod.mk.injEq] at hrun
      rcases hrun with ⟨cs, -, ds, -, rfl, -⟩
      exact hm

/-- Where the logic behind `root` ends, there is something that `root` depends on. -/
theorem boundary_coneOf {cone : Cone} (hg : g.Tidy K) (hroot : ∃ n, root ∈ g.connsOf n)
    (h : g.coneOf root = .ok cone) :
    ∀ n, cone.boundary.contains n → ∃ o ∈ g.connsOf n, ReflTransGen g.Feeds o root := by
  refine Attempt.drain_invariant
    (P := fun cone : Cone => ∀ n, cone.boundary.contains n = true →
      ∃ o ∈ g.connsOf n, ReflTransGen g.Feeds o root)
    (I := fun _ o => g.Ahead root o) ?_ (fun n hn => ?_) (fun o ho => ?_) h
  · intro cone o cone' more hends ho hstep
    refine ⟨fun m hm => ?_, ho.step hg hstep, fun _ hy => hy⟩
    rcases ho with ⟨⟨n, hn⟩, hfeeds⟩
    rcases coneStep_boundary hg.toOwned hn hstep hm with hm | rfl
    · exact hends m hm
    · exact ⟨o, hn, hfeeds⟩
  · rw [NodeSet.contains_empty] at hn
    cases hn
  · rw [mem_singleton.mp ho]
    exact ⟨hroot, .refl⟩

namespace Removable

variable (h : g.Removable pn input root out) (hg : g.Tidy K) (hset : g.Settled v)
include h hg hset

/-- The logic behind the pin node does not read it. -/
theorem isFeedback_eq : g.isFeedback pn = .ok false := by
  have hn : (g.node? pn).isSome := isSome_of_kindOf? h.kind
  have hsinks : (g.connsOf pn).filter g.isSink = [input] :=
    filter_of_sole (hg.nodup_conns pn) h.input_mem h.input_sink h.sole
  have hmem : root ∈ g.refsOf input := by simp [h.driven]
  have hroot := hg.listed (hg.mirror hmem)
  have hdrivers : g.driversOf ((g.connsOf pn).filter g.isSink) = .ok [root] := by
    rcases exists_driversOf fun c hc => isSome_of_isSink (mem_filter.mp hc).2 with ⟨ds, hds⟩
    have heq : ds = [root] := by
      rw [driversOf_eq_ok hds, hsinks]
      simp [h.driven]
    rw [hds, heq]
  rcases exists_coneOf hg.toSound hroot with ⟨cone, hcone⟩
  have hnot : cone.boundary.contains pn = false := by
    rw [Bool.eq_false_iff]
    intro hends
    -- the root would depend on the pin node, which depends on the root
    rcases boundary_coneOf hg hroot hcone pn hends with ⟨o, ho, hfeeds⟩
    rcases h.derived hg.toOwned with ⟨hder, hdrv⟩
    have hro : g.Feeds root o := ⟨pn, hder, ho, by simp [hdrv]⟩
    exact not_transGen_feeds ((hset.wellFounded hg.toSound).apply root) (.head' hro hfeeds)
  simp only [isFeedback, sinks_eq_ok.mpr ⟨hn, rfl⟩, ok_bind, hdrivers, List.anyM, hcone, hnot]
  rfl

theorem exists_offer : ∃ cost, g.offer? pn = .ok (some (pn, cost)) := by
  rcases exists_offer? hg.toSound (isSome_of_kindOf? h.kind) with ⟨r, hr⟩
  have hrun := hr
  simp only [offer?, bind_eq_ok, node_eq_ok, h.isFeedback_eq hg hset, ok_bind] at hrun
  rcases hrun with ⟨y, hy, hrun⟩
  have hnothing : y.absorbed.isNothing := by
    have habs := h.nothing
    rw [absorbedOf, hy] at habs
    exact (Absorbed.isNothing_iff _).mpr habs
  rw [if_pos hnothing] at hrun
  simp only [Bool.false_eq_true, if_false, bind_eq_ok, pure_eq_ok] at hrun
  rcases hrun with ⟨cost, -, rfl⟩
  exact ⟨cost, hr⟩

end Removable

/-! ## The next pin node -/

theorem cheapest_isSome {l : List (NodeId × Nat)} (hl : l ≠ []) : (cheapest l).isSome := by
  cases l with
  | nil => exact absurd rfl hl
  | cons x l =>
    rw [cheapest]
    split
    · rfl
    · split <;> rfl

/-- As long as there is a pin node that took over nothing, one of them is next. -/
theorem exists_candidate (hg : g.Tidy K) (hset : g.Settled v) (hfree : g.PinNodesFree)
    (hn : n ∈ g.pinNodes) (hnothing : g.absorbedOf n = .nothing) :
    ∃ pn, g.nextCandidate = .ok (some pn) := by
  rcases exists_nextCandidate hg.toSound with ⟨r, hr⟩
  have hrun := hr
  simp only [nextCandidate, bind_eq_ok, pure_eq_ok, mapM_eq_ok] at hrun
  rcases hrun with ⟨offers, hoffers, rfl⟩
  rcases hfree n hn hnothing with ⟨input, root, out, hrem⟩
  rcases hrem.exists_offer hg hset with ⟨cost, hcost⟩
  have hmem : (n, cost) ∈ offers.filterMap id := by
    rcases exists_right_of_forall₂ hoffers hn with ⟨offer, hoffer, heq⟩
    rw [hcost] at heq
    exact mem_filterMap.mpr ⟨offer, hoffer, (Except.ok.inj heq).symm⟩
  rcases Option.isSome_iff_exists.mp (cheapest_isSome (ne_nil_of_mem hmem)) with ⟨x, hx⟩
  rw [hx] at hr
  exact ⟨x.1, hr⟩

/-! ## Counting -/

/-- How many pin nodes took over a register or buffer. -/
def mergedPinNodes (g : Network) : Nat :=
  g.pinNodes.countP fun n => !(g.absorbedOf n).isNothing

theorem mergedPinNodes_le : g.mergedPinNodes ≤ g.pinNodes.length :=
  countP_le_length

/-- Not all pin nodes are merged if and only if one has taken over nothing. -/
theorem mergedPinNodes_lt_iff :
    g.mergedPinNodes < g.pinNodes.length ↔ ∃ n ∈ g.pinNodes, g.absorbedOf n = .nothing := by
  have hle := g.mergedPinNodes_le
  have hall : g.mergedPinNodes = g.pinNodes.length ↔ ∀ n ∈ g.pinNodes, g.absorbedOf n ≠ .nothing := by
    rw [mergedPinNodes]
    simp [← Absorbed.isNothing_iff]
  constructor
  · intro hlt
    by_contra hnone
    have := hall.mpr fun n hn hnothing => hnone ⟨n, hn, hnothing⟩
    omega
  · rintro ⟨n, hn, hnothing⟩
    have hne : g.mergedPinNodes ≠ g.pinNodes.length := fun heq => hall.mp heq n hn hnothing
    omega

/-- What `limit` leaves of the pin nodes of `g`: those that took over a register or buffer, and others as
long as the limit allows. -/
structure MeetsBudget (limit : Nat) (g g' : Network) : Prop where
  sublist : g'.pinNodes.Sublist g.pinNodes
  removed : ∀ n ∈ g.pinNodes, n ∉ g'.pinNodes → g.absorbedOf n = .nothing
  length : g'.pinNodes.length = max g.mergedPinNodes (min limit g.pinNodes.length)

theorem MeetsBudget.refl
    (h : g.pinNodes.length ≤ limit ∨ ¬ g.mergedPinNodes < g.pinNodes.length) : MeetsBudget limit g g where
  sublist := .refl _
  removed _ hn hgone := absurd hn hgone
  length := by
    have hle := g.mergedPinNodes_le
    omega

/-- One pin node goes and leaves the others as they are. -/
theorem MeetsBudget.step {g1 : Network} (h : MeetsBudget limit g1 g') (hg : g.Owned)
    (hpn : pn ∈ g.pinNodes) (hnothing : g.absorbedOf pn = .nothing) (many : limit < g.pinNodes.length)
    (hpinNodes : g1.pinNodes = g.pinNodes.filter (· ≠ pn))
    (habsorbed : ∀ n ∈ g.pinNodes, g1.absorbedOf n = g.absorbedOf n) : MeetsBudget limit g g' := by
  have hsub : g1.pinNodes.Sublist g.pinNodes := by
    rw [hpinNodes]
    exact filter_sublist
  constructor
  · exact h.sublist.trans hsub
  · intro n hn hgone
    by_cases hne : n = pn
    · rw [hne]
      exact hnothing
    · have hn1 : n ∈ g1.pinNodes := by
        rw [hpinNodes, mem_filter]
        exact ⟨hn, by simpa using hne⟩
      rw [← habsorbed n hn]
      exact h.removed n hn1 hgone
  · have hlength : g1.pinNodes.length + 1 = g.pinNodes.length := by
      rw [hpinNodes]
      exact length_filter_ne hg.nodup_pinNodes hpn
    -- the pin node that goes has taken over nothing, so it was not counted
    have hmerged : g1.mergedPinNodes = g.mergedPinNodes := by
      rw [mergedPinNodes, hpinNodes, countP_filter]
      refine countP_congr fun n hn => ?_
      rw [habsorbed n hn]
      by_cases hne : n = pn
      · subst hne
        simp [hnothing, (Absorbed.isNothing_iff _).mpr]
      · simp [hne]
    have hle := g1.mergedPinNodes_le
    rw [h.length]
    omega

/-! ## The whole run -/

section Run

variable {bound : Nat} {r : Bool × Network} (hg : g.Tidy K)
  (hK : ∀ k, k.isCombinational → K k) (hset : g.Settled v) (hfree : g.PinNodesFree)
include hg hK hset hfree

omit hK in
/-- Nothing is left to remove only if all pin nodes took over a register or buffer. -/
theorem not_mergedPinNodes_lt (hnone : g.nextCandidate = .ok none) :
    ¬ g.mergedPinNodes < g.pinNodes.length := by
  intro hlt
  rcases mergedPinNodes_lt_iff.mp hlt with ⟨n, hn, hnothing⟩
  rcases exists_candidate hg hset hfree hn hnothing with ⟨pn, hpn⟩
  rw [hpn] at hnone
  cases hnone

omit hK in
/-- Something is removed if and only if there are too many pin nodes and one that took over nothing. -/
theorem inlineAll_changed_iff (hbound : g.pinNodes.length ≤ bound)
    (hrun : inlineAll limit bound g = .ok r) :
    r.1 ↔ limit < g.pinNodes.length ∧ g.mergedPinNodes < g.pinNodes.length := by
  cases bound with
  | zero =>
    cases hrun
    simp only [Bool.false_eq_true, false_iff, not_and]
    omega
  | succ bound =>
    rcases inlineAll_cases hrun with ⟨rfl, hstop⟩ | ⟨pn, g1, g2, r', many, hcand, -, -, -, -, rfl⟩
    · simp only [Bool.false_eq_true, false_iff, not_and]
      intro many
      rcases hstop with few | hnone
      · omega
      · exact not_mergedPinNodes_lt hg hset hfree hnone
    · rcases nextCandidate_spec hcand with ⟨hpn, hnothing⟩
      exact iff_of_true rfl ⟨many, mergedPinNodes_lt_iff.mpr ⟨pn, hpn, hnothing⟩⟩

/-- If every pin node is read, they go one at a time, so no more of them go than have to. -/
theorem meetsBudget_inlineAll (hread : g.PinNodesRead) (hbound : g.pinNodes.length ≤ bound)
    (hrun : inlineAll limit bound g = .ok r) : MeetsBudget limit g r.2 := by
  induction bound generalizing g r with
  | zero =>
    cases hrun
    exact .refl (.inl (by omega))
  | succ bound ih =>
    rcases inlineAll_cases hrun with ⟨rfl, hstop⟩ | ⟨pn, g1, g2, r', many, hcand, h1, h2, -, hrest, rfl⟩
    · exact .refl (hstop.imp_right (not_mergedPinNodes_lt hg hset hfree))
    rcases nextCandidate_spec hcand with ⟨hpn, hnothing⟩
    rcases removal_inlinePinNode hg hK hset hpn hnothing h1 with ⟨input, root, out, ns, s1, s2, hrem⟩
    have hstep : RemovalStep K g g2 := ⟨hg, pn, input, root, out, ns, s1, s2, g1, hpn, hrem, h2⟩
    rcases hstep.unfolds with ⟨origin, hu⟩
    -- bringing the list of equations up to date retires nothing
    have hpinNodes : g2.pinNodes = g.pinNodes.filter (· ≠ pn) := by
      rcases hrem.unfolds with ⟨origin1, hu1⟩
      rw [(hrem.pinNodesRead hg hpn hread).rebuildTop hu1.tidy] at h2
      cases h2
      exact hrem.pinNodes
    have hlength := length_filter_ne hg.nodup_pinNodes hpn
    have hmeets : MeetsBudget limit g2 r'.2 := by
      refine ih hu.tidy (hu.settled hset) (hfree.unfolds hg.toSound hset hu) (hstep.pinNodesRead hread) ?_
        hrest
      rw [hpinNodes]
      omega
    exact hmeets.step hg.toOwned hpn hnothing many hpinNodes fun n hn =>
      hu.absorbedOf (isSome_of_kindOf? (hg.pinNode_kind hn))

end Run

end PldSynth.Network
