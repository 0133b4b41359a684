import PldSynth.Proofs.Equation.Writable
import PldSynth.Proofs.Network.Demand
import PldSynth.Proofs.Network.Readers

/-!
# What removing pin nodes leaves of the gates

Removing a pin node makes an expression longer and may double gates, but the ways back from a pin or a
register through the gates are the same, if pin nodes on the way are passed. Since every pin node is
live, each live gate lies on such a way from a node that stays (`Live.exists_lasting`). So the equations
can be written afterwards exactly if every live gate has enough inputs, as long as there are too few gates
for an expression that is nested too deeply (`writable_expand_iff`).
-/

namespace PldSynth.Network

open PldSynth.NodeKind (isBoundary isCombinational isNamed)
open List

open Relation

variable {K : NodeKind → Bool} {g g' : Network} {n m : NodeId} {c d o p : ConnId} {v : ConnId → Bool}
  {k : NodeKind} {j : Nat} {l : List (NodeKind × Nat)}
  {limit : Option Nat} {r : Bool × Network} {gates : List NodeId}

/-! ## Ways back from live gates -/

theorem isDerived_of_readAt (hr : g.ReadAt o c n) (hn : g.hasKind isNamed n)
    (hnothing : g.absorbedOf n = .nothing) : g.isDerived n := by
  rw [isDerived, hn, (Absorbed.isNothing_iff _).mpr hnothing]
  simp only [Bool.and_true, Bool.true_and, Bool.or_eq_true, any_eq_true]
  exact .inr ⟨c, hr.mem, hr.sink⟩

/-- A live output is on a way back from a pin, a pin node, a register or a buffer. -/
theorem Live.exists_trail (hlive : g.Live o) (hg : g.Wired) (hl : g.Trail o l) :
    ∃ c d n pre, g.hasKind isBoundary n ∧ g.ReadAt d c n ∧ ReflTransGen g.Feeds o d ∧
      g.Trail d (pre ++ l) := by
  induction hlive generalizing l with
  | @leaves o h =>
    rcases h with ⟨c, n, hr, hn⟩
    exact ⟨c, o, n, [], hn, hr, .refl, hl⟩
  | @gate o c p n hr hn hp _ _ ih =>
    -- the way on from the gate's output passes the gate first
    rcases hasKind_iff.mp hn with ⟨k, hk, hcomb⟩
    have hd := hr.mem_driversAt hg
    rcases ih (.cons hk hcomb hp hd hl) with ⟨c, d, m, pre, hm, hread, hpath, htrail⟩
    refine ⟨c, d, m, pre ++ [(k, (g.driversAt n).length)], hm, hread,
      .head ⟨n, isDerived_of_isCombinational hk hcomb, hp, hd⟩ hpath, ?_⟩
    rwa [append_assoc]

/-- The gates on a way back from a live output are live. -/
theorem Trail.exists_gate (ht : g.Trail o l) (hg : g.Sound) (hout : g.isOutput o) (hlive : g.Live o)
    (hmem : (k, j) ∈ l) : ∃ n p, g.kindOf? n = some k ∧ k.isCombinational ∧
      (g.driversAt n).length = j ∧ p ∈ g.connsOf n ∧ g.isOutput p ∧ g.Live p := by
  induction ht with
  | nil => cases hmem
  | @gate n o k' hk hcomb ho =>
    cases mem_singleton.mp hmem
    exact ⟨n, o, hk, hcomb, rfl, ho, hout, hlive⟩
  | @cons n o d k' l hk hcomb ho hd _ ih =>
    rcases mem_cons.mp hmem with heq | hmem
    · cases heq
      exact ⟨n, o, hk, hcomb, rfl, ho, hout, hlive⟩
    · rcases readAt_of_mem_driversAt hd with ⟨c, hr⟩
      exact ih (hg.driver_spec hd).1 (.gate hr (hasKind_of hk hcomb) ho hout hlive) hmem
  | @pass n o d l _ hnamed _ hd _ ih =>
    rcases readAt_of_mem_driversAt hd with ⟨c, hr⟩
    exact ih (hg.driver_spec hd).1 (.leaves ⟨c, n, hr, isBoundary_of_isNamed hnamed⟩) hmem

/-- An expression that is nested has as many gates on a way back. -/
theorem Nested.exists_trail (h : g.Nested j o) : ∃ l, l.length = j ∧ g.Trail o l := by
  induction h with
  | flat => exact ⟨[], rfl, .nil⟩
  | deeper hf _ ih =>
    rcases ih with ⟨l, hlen, ht⟩
    rcases hf with ⟨n, hn, ho, -, hd⟩
    rcases hasKind_iff.mp hn with ⟨k, hk, hcomb⟩
    exact ⟨_, congrArg (· + 1) hlen, .cons hk hcomb ho hd ht⟩

/-- Where nothing depends on itself, the gates on a way back are different ones. -/
theorem Trail.exists_nodup (ht : g.Trail o l) (hg : g.Tidy K)
    (hK : ∀ k, k.isCombinational → K k) (hwf : WellFounded g.Feeds) (hout : g.isOutput o) :
    ∃ ns : List NodeId, ns.length = l.length ∧ ns.Nodup ∧
      ∀ n ∈ ns, g.hasKind isCombinational n ∧
        ∃ p ∈ g.connsOf n, g.isOutput p ∧ ReflTransGen g.Feeds p o := by
  induction ht with
  | nil => exact ⟨[], rfl, nodup_nil, nofun⟩
  | @gate n o k hk hcomb ho =>
    refine ⟨[n], rfl, nodup_singleton n, fun m hm => ?_⟩
    obtain rfl := mem_singleton.mp hm
    exact ⟨hasKind_of hk hcomb, o, ho, hout, .refl⟩
  | @cons n o d k l hk hcomb ho hd _ ih =>
    rcases ih (hg.driver_spec hd).1 with ⟨ns, hlen, hnodup, hall⟩
    have hn : g.hasKind isCombinational n := hasKind_of hk hcomb
    have hfeeds : g.Feeds d o := ⟨n, isDerived_of_isCombinational hk hcomb, ho, hd⟩
    -- if the gate came again, its one output would depend on itself
    have hnew : n ∉ ns := by
      intro hmem
      rcases (hall n hmem).2 with ⟨p, hp, hpo, hpath⟩
      have hlone := (hg.regularAt_of_isLogic hK (isLogic_of_isCombinational hn)).lone
      rw [hlone hp ho hpo hout] at hpath
      exact not_transGen_feeds (hwf.apply o) (.tail' hpath hfeeds)
    refine ⟨n :: ns, congrArg (· + 1) hlen, nodup_cons.mpr ⟨hnew, hnodup⟩, fun m hm => ?_⟩
    rcases mem_cons.mp hm with rfl | hm
    · exact ⟨hn, o, ho, hout, .refl⟩
    · rcases hall m hm with ⟨hk, p, hp, hpo, hpath⟩
      exact ⟨hk, p, hp, hpo, hpath.tail hfeeds⟩
  | @pass n o d l hder _ ho hd _ ih =>
    rcases ih (hg.driver_spec hd).1 with ⟨ns, hlen, hnodup, hall⟩
    refine ⟨ns, hlen, hnodup, fun m hm => ?_⟩
    rcases hall m hm with ⟨hk, p, hp, hpo, hpath⟩
    exact ⟨hk, p, hp, hpo, hpath.tail ⟨n, hder, ho, hd⟩⟩

/-- Where the equations can be written, a gate of any network has enough inputs if its kind and the number
of its drivers are found on a way back from a live output. -/
theorem Writable.gateFed (hw : g.Writable) (hg : g.Sound) (hout : g.isOutput o) (hlive : g.Live o)
    (ht : g.Trail o l) (hk : g'.kindOf? n = some k) (hmem : (k, (g'.driversAt n).length) ∈ l) :
    g'.GateFed n := by
  rcases ht.exists_gate hg hout hlive hmem with ⟨m, p, hm, hcomb, hlen, hp, hpout, hplive⟩
  have hfed := (hw (hasKind_of hm hcomb) hp hpout hplive).1
  rwa [GateFed, hm, ← length_driversAt, hlen, length_driversAt, ← hk] at hfed

/-! ## Nodes that stay -/

/-- A node outside of the logic that is no pin node to be removed. -/
structure Lasting (g : Network) (n : NodeId) : Prop where
  boundary : g.hasKind isBoundary n = true
  kept : g.kindOf? n = some .pinNode → g.absorbedOf n ≠ .nothing

/-- What depends on an output comes to an end, since there are finitely many outputs. -/
theorem wellFounded_flip_feeds (hg : g.Sound) (hwf : WellFounded g.Feeds) : WellFounded (flip g.Feeds) := by
  have hcircle : ∀ o, ¬ TransGen (flip g.Feeds) o o := fun o ho =>
    not_transGen_feeds (hwf.apply o) (transGen_swap.mp ho)
  refine wellFounded_of_no_circle (fun i : Fin g.conns.size => (⟨i⟩ : ConnId)) (fun {p o} hp => ?_) hcircle
  rcases hp with ⟨n, -, hp, -⟩
  exact ⟨⟨p.index, conn?_isSome.mp (hg.conn_isSome hp)⟩, rfl⟩

/-- A live output is on a way back from a node that stays. Where the way ends at a pin node that will be
removed, it goes on from there, since the pin node is live too. -/
theorem Live.exists_lasting (hlive : g.Live o) (hg : g.Sound) (hwf : WellFounded g.Feeds)
    (hpn : g.PinNodesLive) (hl : g.Trail o l) :
    ∃ c d n pre, g.Lasting n ∧ g.ReadAt d c n ∧ g.Trail d (pre ++ l) := by
  induction o using (wellFounded_flip_feeds hg hwf).transGen.induction generalizing l with
  | _ o ih =>
    rcases hlive.exists_trail hg.toWired hl with ⟨c, d, n, pre, hn, hr, hpath, ht⟩
    by_cases hlast : g.Lasting n
    · exact ⟨c, d, n, pre, hlast, hr, ht⟩
    have hgoes : g.kindOf? n = some .pinNode ∧ g.absorbedOf n = .nothing := by
      by_contra hnot
      exact hlast ⟨hn, fun hk hnothing => hnot ⟨hk, hnothing⟩⟩
    have hnamed : g.hasKind isNamed n := hasKind_of hgoes.1 rfl
    rcases hpn n (hg.mem_pinNodes_of_kind hr.mem hgoes.1) hgoes.2 with ⟨p, hp, -, hplive⟩
    have hder := isDerived_of_readAt hr hnamed hgoes.2
    have hd := hr.mem_driversAt hg.toWired
    rcases ih p (transGen_swap.mpr (.tail' hpath ⟨n, hder, hp, hd⟩)) hplive (.pass hder hnamed hp hd ht) with
      ⟨x, e, m, pre', hm, hread, htrail⟩
    rw [← append_assoc] at htrail
    exact ⟨x, e, m, pre' ++ pre, hm, hread, htrail⟩

/-! ## Removing pin nodes -/

section Removing

variable {pn : NodeId} {input root out : ConnId} {ns : List NodeId} {g1 g2 : Network}

/-- No other pin node goes with the one that is removed. -/
theorem Removal.pinNodes (h : Removal K pn input root out ns g g1 g2 g') :
    g'.pinNodes = g.pinNodes.filter (· ≠ pn) := by
  -- copies are made of logic only, and only logic is cleared away after the pin node
  have hcopied : g1.pinNodes = g.pinNodes := by
    have hrun := h.copies
    clear h
    induction hrun with
    | refl => rfl
    | tail _ hstep ih => exact hstep.pinNodes.trans ih
  have hcleared : g'.pinNodes = g2.pinNodes := by
    have hrun := h.clears
    clear h hcopied
    induction hrun with
    | refl => rfl
    | tail _ hstep ih =>
      rcases hstep.node with ⟨m, -, hlogic, -, happ⟩
      rw [happ.pinNodes, ← ih]
      refine filter_eq_self.mpr fun n hn => ?_
      refine decide_eq_true ?_
      rintro rfl
      rw [hasKind, hstep.tidy.pinNode_kind hn] at hlogic
      cases hlogic
  rw [hcleared, h.retired.pinNodes, hcopied]
  rfl

/-- A pin node that took over something stays. -/
theorem RemovalStep.mem_pinNodes (h : RemovalStep K g g') (hread : g.PinNodesRead) (hn : n ∈ g.pinNodes)
    (habs : g.absorbedOf n ≠ .nothing) : n ∈ g'.pinNodes := by
  rcases h.removal with ⟨pn, input, root, out, ns, g1, g2, g3, hpn, hrem, htop⟩
  rcases hrem.unfolds with ⟨origin, hu⟩
  have hne : n ≠ pn := by
    rintro rfl
    exact habs hrem.removable.nothing
  rw [(hrem.pinNodesRead h.tidy hpn hread).rebuildTop hu.tidy] at htop
  cases htop
  rw [hrem.pinNodes, mem_filter]
  exact ⟨hn, by simpa using hne⟩

theorem mem_pinNodes_expand (hg : g.Tidy K)
    (hK : ∀ k, k.isCombinational → K k) (hset : g.Settled v) (hread : g.PinNodesRead)
    (h : expand limit g = .ok r) (hn : n ∈ g.pinNodes) (habs : g.absorbedOf n ≠ .nothing) :
    n ∈ r.2.pinNodes := by
  have hkeeps : n ∈ r.2.pinNodes ∧ r.2.absorbedOf n ≠ .nothing ∧ r.2.PinNodesRead := by
    refine expand_keeps hg hK hset h
      (P := fun s => n ∈ s.pinNodes ∧ s.absorbedOf n ≠ .nothing ∧ s.PinNodesRead) ?_ ⟨hn, habs, hread⟩
    rintro s s' ⟨hn, habs, hread⟩ hstep
    rcases hstep.unfolds with ⟨origin, hu⟩
    refine ⟨hstep.mem_pinNodes hread hn habs, ?_, hstep.pinNodesRead hread⟩
    rwa [hu.absorbedOf (isSome_of_kindOf? (hstep.tidy.pinNode_kind hn))]
  exact hkeeps.1

end Removing

/-- A cell outside of the logic is a register or a buffer. -/
theorem Owned.isSequential_of_isBoundary (hg : g.Owned) (hcell : n ∈ g.cells)
    (hn : g.hasKind isBoundary n) : g.hasKind NodeKind.isSequential n := by
  rcases hg.cell_kind hcell with ⟨k, hk, hkc⟩
  rcases hasKind_iff.mp hn with ⟨k', hk', hb⟩
  obtain rfl := Option.mem_unique hk hk'
  refine hasKind_iff.mpr ⟨k, hk, ?_⟩
  by_contra hseq
  rw [NodeKind.not_isBoundary_of_isCell hkc (Bool.not_eq_true _ ▸ hseq)] at hb
  cases hb

section Unfolding

variable {origin : ConnId → ConnId} (hg : g.Tidy K) (hset : g.Settled v) (hu : Unfolds K origin g g')
include hg hu

/-- No pin, pin node, register or buffer is new. -/
theorem Unfolds.boundary_before (hn : g'.hasKind isBoundary n) (hc : c ∈ g'.connsOf n) :
    g.hasKind isBoundary n ∧ c ∈ g.connsOf n := by
  have huse := hu.tidy.inUse hc
  have hsome : (g.node? n).isSome := by
    rcases huse with rfl | hcell | hpin | hpn
    · exact isSome_of_kindOf? hg.design_kind
    · by_contra hnone
      have hseq := hu.logic (Option.not_isSome_iff_eq_none.mp hnone)
      rw [hu.tidy.isSequential_of_isBoundary hcell hn] at hseq
      cases hseq
    · exact isSome_of_kindOf? (hg.pin_kind (hu.pins ▸ hpin))
    · exact isSome_of_kindOf? (hg.pinNode_kind (hu.pinNodes.subset hpn))
  exact ⟨(hu.evolves.hasKind hsome _).symm.trans hn, hu.connsOf hsome huse ▸ hc⟩

/-- A node that stays keeps its connections. -/
theorem Lasting.connsOf (hn : g.Lasting n) (hc : c ∈ g.connsOf n)
    (hstay : ∀ {n}, n ∈ g.pinNodes → g.absorbedOf n ≠ .nothing → n ∈ g'.pinNodes) :
    g'.connsOf n = g.connsOf n := by
  have huse : g'.InUse n := by
    rcases hg.inUse hc with rfl | hcell | hpin | hpn
    · exact .inl rfl
    · exact .inr (.inl ((hu.sequential (hg.isSequential_of_isBoundary hcell hn.boundary)).mpr hcell))
    · exact .inr (.inr (.inl (hu.pins ▸ hpin)))
    · exact .inr (.inr (.inr (hstay hpn (hn.kept (hg.pinNode_kind hpn)))))
  exact hu.connsOf (isSome_of_hasKind hn.boundary) huse

include hset

/-- A way back from a live output afterwards is part of one before. -/
theorem Unfolds.trail_before (hlive : g'.Live o) (hl : g'.Trail o l) :
    ∃ d pre, g.isOutput d ∧ g.Live d ∧ g.Trail d (pre ++ l) := by
  rcases hlive.exists_trail hu.tidy.toWired hl with ⟨c, d', n, pre, hn, hr, -, ht⟩
  rcases hu.boundary_before hg hn hr.mem with ⟨hn0, hc⟩
  have hs : g.isSink c := (hu.evolves.isSink (hg.conn_isSome hc)).symm.trans hr.sink
  -- copying drives nothing that was not driven
  have hdriven : g.refsOf c ≠ [] := by
    intro hnone
    have hrefs := hr.refs
    rw [hu.undriven hr.mem hs hnone] at hrefs
    cases hrefs
  rcases exists_mem_of_ne_nil _ hdriven with ⟨d, hd⟩
  rcases (hu.preserves hset).trails hs (hg.refsOf_eq_singleton hs hd) ⟨n, hr.mem⟩ with ⟨-, e, hrefs, htrail⟩
  obtain rfl : d' = e := mem_singleton.mp (hrefs ▸ hr.refs)
  exact ⟨d, pre, hg.output_of_sink hd hs, .leaves ⟨c, n, ⟨hc, hs, hd⟩, hn0⟩, (htrail _).mp ht⟩

/-- A way back from a live output before is part of one afterwards. -/
theorem Unfolds.trail_after (hpn : g.PinNodesLive)
    (hstay : ∀ {n}, n ∈ g.pinNodes → g.absorbedOf n ≠ .nothing → n ∈ g'.pinNodes)
    (hlive : g.Live o) (hl : g.Trail o l) :
    ∃ d pre, g'.isOutput d ∧ g'.Live d ∧ g'.Trail d (pre ++ l) := by
  rcases hlive.exists_lasting hg.toSound (hset.wellFounded hg.toSound) hpn hl with
    ⟨c, d, n, pre, hn, hr, ht⟩
  have hc : c ∈ g'.connsOf n := hn.connsOf hg hu hr.mem hstay ▸ hr.mem
  have hn' := (hu.evolves.hasKind (isSome_of_hasKind hn.boundary) isBoundary).trans hn.boundary
  rcases (hu.preserves hset).trails hr.sink (hg.refsOf_eq_singleton hr.sink hr.refs) ⟨n, hc⟩ with
    ⟨hs, d', hrefs, htrail⟩
  have hd' : d' ∈ g'.refsOf c := by simp [hrefs]
  exact ⟨d', pre, hu.tidy.output_of_sink hd' hs, .leaves ⟨c, n, ⟨hc, hs, hd'⟩, hn'⟩, (htrail _).mpr ht⟩

end Unfolding

/-- Where nothing depends on itself, no way back passes more gates than there are. -/
theorem Trail.length_le (ht : g.Trail o l) (hg : g.Tidy K)
    (hK : ∀ k, k.isCombinational → K k) (hwf : WellFounded g.Feeds) (hout : g.isOutput o)
    (hall : ∀ {n c}, g.hasKind isCombinational n → c ∈ g.connsOf n → n ∈ gates) :
    l.length ≤ gates.length := by
  rcases ht.exists_nodup hg hK hwf hout with ⟨ns, hlen, hnodup, hns⟩
  rw [← hlen]
  refine (hnodup.subperm fun n hn => ?_).length_le
  rcases hns n hn with ⟨hk, p, hp, -⟩
  exact hall hk hp

/-- Keeping within the budget does not decide whether the equations can be written, if there are too few
gates for an expression that is nested too deeply. -/
theorem writable_expand_iff (hg : g.Tidy K)
    (hK : ∀ k, k.isCombinational → K k) (hset : g.Settled v) (hread : g.PinNodesRead)
    (hpn : g.PinNodesLive) (hall : ∀ {n c}, g.hasKind isCombinational n → c ∈ g.connsOf n → n ∈ gates)
    (hfew : gates.length < Equation.maxDepth) (h : expand limit g = .ok r) : r.2.Writable ↔ g.Writable := by
  rcases unfolds_expand hg hK hset h with ⟨⟨origin, hu⟩, -⟩
  have hstay : ∀ {n}, n ∈ g.pinNodes → g.absorbedOf n ≠ .nothing → n ∈ r.2.pinNodes :=
    mem_pinNodes_expand hg hK hset hread h
  have hwf := hset.wellFounded hg.toSound
  constructor
  · intro hw n o hn ho hout hlive
    rcases hasKind_iff.mp hn with ⟨k, hk, hcomb⟩
    rcases hu.trail_after hg hset hpn hstay hlive (.gate hk hcomb ho) with ⟨d, pre, hd, hdlive, ht⟩
    refine ⟨hw.gateFed hu.tidy.toSound hd hdlive ht hk (by simp), fun hnested => ?_⟩
    -- an expression of that depth would pass more gates than there are
    rcases hnested.exists_trail with ⟨l, hlen, ht⟩
    have := ht.length_le hg hK hwf hout hall
    omega
  · intro hw n o hn ho hout hlive
    rcases hasKind_iff.mp hn with ⟨k, hk, hcomb⟩
    rcases hu.trail_before hg hset hlive (.gate hk hcomb ho) with ⟨d, pre, hd, hdlive, ht⟩
    refine ⟨hw.gateFed hg.toSound hd hdlive ht hk (by simp), fun hnested => ?_⟩
    -- gates may be doubled by now, so the way is counted where it comes from
    rcases hnested.exists_trail with ⟨l, hlen, ht⟩
    rcases hu.trail_before hg hset hlive ht with ⟨d, pre, hd, -, ht⟩
    have := ht.length_le hg hK hwf hd hall
    rw [length_append] at this
    omega

end PldSynth.Network
