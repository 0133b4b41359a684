import Mathlib.Logic.Relation
import PldSynth.Proofs.Network.Completion
import PldSynth.Proofs.Network.Labels

/-!
# What stays unread while pin nodes are removed

Here a gate may have any number of outputs and bidirectional connections. A copy of such a gate need not
have its values, and a gate may go although one of its outputs is still read. But every wire of a copy
leads to an output that was read before or to another copy, so what nothing read is still unread
(`Isolated.expand`).

That copies are wired at all rests on the fact that nothing depends on itself. Copies keep this: every
way through the new network is the image of a way through the old one (`Splices.feedsNode`).
-/

namespace PldSynth.Network

open PldSynth.NodeKind (isLogic spec_of_isLogic)
open List

open Attempt Relation

variable {K : NodeKind → Bool} {g g' g1 : Network} {n m pn : NodeId} {v : ConnId → Bool}
  {c d o x root root' out input consumer : ConnId} {copies : List (NodeId × NodeId)}
  {original : NodeId → NodeId}

/-! ## Nodes that depend on each other -/

/-- The outputs of `n` follow from what it reads, and it reads an output of `m`. -/
def FeedsNode (g : Network) (m n : NodeId) : Prop :=
  g.isDerived n = true ∧ ∃ d ∈ g.driversAt n, d ∈ g.connsOf m

theorem acc_feedsNode (h : Acc g.Feeds o) (ho : o ∈ g.connsOf n) : Acc g.FeedsNode n := by
  induction h generalizing n with
  | intro o _ ih =>
    refine ⟨n, fun m hm => ?_⟩
    obtain ⟨hder, d, hd, hdm⟩ := hm
    exact ih d ⟨n, hder, ho, hd⟩ hdm

theorem acc_feeds (hg : g.Sound) (h : Acc g.FeedsNode n) (ho : o ∈ g.connsOf n) : Acc g.Feeds o := by
  induction h generalizing o with
  | intro n _ ih =>
    refine ⟨o, fun d hd => ?_⟩
    obtain ⟨n', hder, ho', hdrv⟩ := hd
    obtain rfl : n' = n := hg.eq_of_mem ho' ho
    obtain ⟨m, hm⟩ := (hg.driver_spec hdrv).2
    exact ih m ⟨hder, d, hdrv, hm⟩ hm

/-- No output depends on itself if and only if no node does. -/
theorem wellFounded_feedsNode_iff (hg : g.Sound) : WellFounded g.FeedsNode ↔ WellFounded g.Feeds := by
  constructor
  · intro h
    refine ⟨fun o => ⟨o, fun d hd => ?_⟩⟩
    obtain ⟨n, -, -, hdrv⟩ := hd
    obtain ⟨m, hm⟩ := (hg.driver_spec hdrv).2
    exact acc_feeds hg (h.apply m) hm
  · intro h
    refine ⟨fun n => ⟨n, fun m hm => ?_⟩⟩
    obtain ⟨-, d, -, hdm⟩ := hm
    exact acc_feedsNode (h.apply d) hdm

theorem feedsNode_of_read (hg : g.Wired) (hder : g.isDerived n) (hc : c ∈ g.connsOf n) (hs : g.isSink c)
    (hd : d ∈ g.refsOf c) (hm : d ∈ g.connsOf m) : g.FeedsNode m n := by
  refine ⟨hder, d, mem_driversAt.mpr ⟨c, hc, hs, ?_⟩, hm⟩
  simp [hg.refsOf_eq_singleton hs hd]

/-! ## Copies -/

/-- A map that leads every copy to the node it is a copy of. -/
theorem Copies.exists_original (h : Copies copies g g1) : ∃ original : NodeId → NodeId,
    (∀ {n}, (g.node? n).isSome → original n = n) ∧ ∀ p ∈ copies, original p.2 = p.1 := by
  classical
  refine ⟨fun n => if hn : ∃ p ∈ copies, p.2 = n then hn.choose.1 else n, fun {n} hn => ?_,
    fun p hp => ?_⟩
  · refine dif_neg fun ⟨p, hp, heq⟩ => ?_
    simp [← heq, h.new p hp] at hn
  · have hex : ∃ q ∈ copies, q.2 = p.2 := ⟨p, hp, rfl⟩
    have heq : hex.choose = p :=
      inj_on_of_nodup_map h.nodup hex.choose_spec.1 hp hex.choose_spec.2
    exact (dif_pos hex).trans (congrArg Prod.fst heq)

namespace Splices

variable (h : Splices copies root root' consumer g g1 g') (hg : g.Sound)
include h hg

theorem isDerived_old (hn : (g.node? n).isSome) : g'.isDerived n = g.isDerived n := by
  have ha : g'.absorbedOf n = g.absorbedOf n := by
    rw [absorbedOf, h.node?_old hn, ← absorbedOf]
  refine isDerived_eq (h.kindOf?_old hn) ha ?_
  rw [h.connsOf_old hn, forall₂_same]
  exact fun c hc => h.evolves.isSink (hg.conn_isSome hc)

omit hg in
/-- What a copy reads belongs to the copy of a node, or to a node that was there. -/
theorem original_of_echoes
    (hold : ∀ {n}, (g.node? n).isSome → original n = n) (hnew : ∀ p ∈ copies, original p.2 = p.1)
    {d' : ConnId} (hd : ∃ k, d ∈ g.connsOf k) (hecho : Echoes copies g g1 d d')
    (hm : d' ∈ g'.connsOf m) : d ∈ g.connsOf (original m) := by
  rcases hecho with ⟨p, hp, hdp, hd', -⟩ | ⟨rfl, -⟩
  · rw [← h.connsOf_copy] at hd'
    obtain rfl := h.sound.eq_of_mem hm hd'
    rw [hnew p hp]
    exact hdp
  · obtain ⟨k, hk⟩ := hd
    have hks := isSome_of_mem_connsOf hk
    obtain rfl : m = k := h.sound.eq_of_mem hm (h.connsOf_old hks ▸ hk)
    rw [hold hks]
    exact hk

/-- Every way through the new network is the image of a way through the old one: a copy depends on what
its node depends on, and the consumer depended on the root by way of the pin node. -/
theorem feedsNode (hrep : g.Repeats root out) (hwas : g.refsOf consumer = [out])
    (hsink : g.isSink consumer) (hlogic : ∀ p ∈ copies, g.hasKind isLogic p.1)
    (hold : ∀ {n}, (g.node? n).isSome → original n = n)
    (hnew : ∀ p ∈ copies, original p.2 = p.1) (hf : g'.FeedsNode m n) :
    TransGen g.FeedsNode (original m) (original n) := by
  obtain ⟨hder, d, hdrv, hdm⟩ := hf
  obtain ⟨c, hc, hs, hhead⟩ := mem_driversAt.mp hdrv
  rcases h.read_cases hg hc hs (mem_of_head? hhead) with
    ⟨hc, -, hs, hd⟩ | ⟨hc, rfl, rfl⟩ | ⟨p, hp, rfl, y, d0, hy, hys, hd0, hecho⟩
  · -- a wire that was there
    have hn := isSome_of_mem_connsOf hc
    rw [hold hn]
    rw [h.isDerived_old hg hn] at hder
    obtain ⟨k, hk⟩ := hg.listed (hg.mirror hd)
    have hks := isSome_of_mem_connsOf hk
    obtain rfl : m = k := h.sound.eq_of_mem hdm (h.connsOf_old hks ▸ hk)
    rw [hold hks]
    exact .single (feedsNode_of_read hg.toWired hder hc hs hd hk)
  · -- the consumer read the pin node, which is driven by the root
    have hn := isSome_of_mem_connsOf hc
    rw [hold hn]
    rw [h.isDerived_old hg hn] at hder
    obtain ⟨k, hkder, -, hok, -, hkdrv⟩ := hrep
    have hrmem : root ∈ g.driversAt k := by simp [hkdrv]
    have hroot := h.original_of_echoes hold hnew (hg.driver_spec hrmem).2 h.root_echo hdm
    exact .tail (.single ⟨hkder, root, hrmem, hroot⟩)
      (feedsNode_of_read hg.toWired hder hc hsink (by simp [hwas]) hok)
  · -- a wire of a copy
    rw [hnew p hp]
    obtain ⟨k, hk, hl⟩ := hasKind_iff.mp (hlogic p hp)
    have hkind : g'.kindOf? p.2 = some k := (h.kindOf?_copy hp).trans hk
    have hder0 : g.isDerived p.1 := by
      rw [isDerived, hasKind, hasKind, hk]
      rw [isDerived, hasKind, hasKind, hkind] at hder
      simpa [(spec_of_isLogic hl).1] using hder
    have hlist := hg.listed (hg.mirror hd0)
    exact .single (feedsNode_of_read hg.toWired hder0 hy hys hd0
      (h.original_of_echoes hold hnew hlist hecho hdm))

/-- Nothing depends on itself afterwards. -/
theorem settled (hrep : g.Repeats root out) (hwas : g.refsOf consumer = [out])
    (hsink : g.isSink consumer) (hlogic : ∀ p ∈ copies, g.hasKind isLogic p.1) (hset : g.Settled v) :
    g'.Settled v := by
  have hwf := (wellFounded_feedsNode_iff hg).mpr (hset.wellFounded hg)
  obtain ⟨original, hold, hnew⟩ := h.copied.exists_original
  refine settled_of_wellFounded h.sound ((wellFounded_feedsNode_iff h.sound).mp ?_) v
  exact Subrelation.wf (fun hf => h.feedsNode hg hrep hwas hsink hlogic hold hnew hf)
    (InvImage.wf original hwf.transGen)

/-- What was there and is read afterwards was read before. -/
theorem read_before (hroot : ∃ y, root ∈ g.refsOf y) (hd : (g.conn? d).isSome)
    (hs : g'.isSink c) (hread : d ∈ g'.refsOf c) : ∃ y, d ∈ g.refsOf y := by
  obtain ⟨n, hn⟩ := h.sound.listed hread
  rcases h.read_cases hg hn hs hread with ⟨-, -, -, hd'⟩ | ⟨-, -, rfl⟩ | ⟨-, -, -, y, d0, -, -, hy, hecho⟩
  · exact ⟨c, hd'⟩
  · rcases h.root_echo.new_or_eq h.copied with hnone | rfl
    · simp [hnone] at hd
    · exact hroot
  · rcases hecho.new_or_eq h.copied with hnone | rfl
    · simp [hnone] at hd
    · exact ⟨y, hy⟩

end Splices

/-! ## Networks whose registers are unread -/

/-- Nothing depends on itself, and nothing reads a register, a buffer or a port of the design. -/
structure Isolated (K : NodeKind → Bool) (g : Network) : Prop where
  tidy : g.Tidy K
  settled : ∀ v, g.Settled v
  unread : ∀ {n}, g.hasKind NodeKind.isSequential n = true → g.UnreadAt n
  design : g.connsOf designId = []

/-- A copy for one consumer keeps the logic apart. -/
theorem Isolated.splices (hg : g.Isolated K) (hr : g.Removable pn input root out)
    (h : Splices copies root root' consumer g g1 g') (hcons : consumer ∈ g.refsOf out)
    (hlogic : ∀ p ∈ copies, g.hasKind isLogic p.1) : g'.Isolated K := by
  have hs := hg.tidy.toSound
  have hwas := hs.refsOf_consumer hr.out_output hcons
  have hsink := hs.sink_of_output hcons hr.out_output
  refine ⟨h.tidy hg.tidy, fun v => ?_, fun {n} hk => ?_, ?_⟩
  · exact h.settled hs (hr.repeats hs.toOwned) hwas hsink hlogic (hg.settled v)
  · -- a register or buffer is no copy
    have hn : (g.node? n).isSome := by
      by_contra hnone
      rcases h.new_node hnone with ⟨p, hp, rfl⟩ | hnone'
      · obtain ⟨k, hkp, hl⟩ := hasKind_iff.mp (hlogic p hp)
        rw [hasKind, h.kindOf?_copy hp, hkp, Option.any_some, (spec_of_isLogic hl).2.1] at hk
        cases hk
      · simp [hasKind, kindOf?_def, hnone'] at hk
    rw [h.evolves.hasKind hn] at hk
    intro o ho hout
    rw [h.connsOf_old hn] at ho
    have hos := hs.conn_isSome ho
    have hout0 : g.isOutput o := by rwa [h.evolves.isOutput hos] at hout
    rw [eq_nil_iff_forall_not_mem]
    intro x hx
    obtain ⟨y, hy⟩ := h.read_before hs ⟨input, by simp [hr.driven]⟩ hos
      (h.sound.sink_of_output hx hout) (h.sound.mirror hx)
    have hback := hs.mirror hy
    rw [hg.unread hk ho hout0] at hback
    cases hback
  · rw [h.connsOf_old (isSome_of_kindOf? hs.design_kind), hg.design]

section Retired

variable (h : (retired m (g.connsOf m)).Applies g g')
include h

/-- A node that goes takes wires along and adds none. -/
theorem feeds_of_retired (hg : g.Sound) (hf : g'.Feeds d o) : g.Feeds d o := by
  obtain ⟨n, hder, ho, hdrv⟩ := hf
  have hnm : n ≠ m := by
    rintro rfl
    rw [connsOf_retired h, if_pos rfl] at ho
    cases ho
  have hconns : g'.connsOf n = g.connsOf n := by rw [connsOf_retired h, if_neg hnm]
  have hder0 : g'.isDerived n = g.isDerived n := by
    refine isDerived_eq h.kindOf? h.absorbedOf ?_
    rw [hconns, forall₂_same]
    exact fun c _ => isSink_congr h.directionOf?
  obtain ⟨c, hc, hs, hhead⟩ := mem_driversAt.mp hdrv
  rw [isSink_congr h.directionOf?] at hs
  rw [hconns] at hc ho
  have hmem := mem_of_head? hhead
  rw [refsOf_retired h] at hmem
  split at hmem
  · cases hmem
  · have hd := (mem_filter.mp hmem).1
    refine ⟨n, hder0 ▸ hder, ho, mem_driversAt.mpr ⟨c, hc, hs, ?_⟩⟩
    simp [hg.refsOf_eq_singleton hs hd]

/-- Taking a node out of use keeps it apart. -/
theorem Isolated.retired (hg : g.Isolated K) : g'.Isolated K := by
  have hs := hg.tidy.toSound
  have hsub : ∀ {n c}, c ∈ g'.connsOf n → c ∈ g.connsOf n := by
    intro n c hc
    rw [connsOf_retired h] at hc
    split at hc
    · cases hc
    · exact hc
  refine ⟨tidy_retired h hg.tidy, fun v => ?_, fun {n} hk o ho hout => ?_, ?_⟩
  · refine settled_of_wellFounded (hs.retired h) ?_ v
    exact Subrelation.wf (feeds_of_retired h hs) ((hg.settled v).wellFounded hs)
  · rw [hasKind, h.kindOf?] at hk
    rw [isOutput_congr h.directionOf?] at hout
    rw [refsOf_retired h, hg.unread hk (hsub ho) hout]
    simp
  · rw [eq_nil_iff_forall_not_mem]
    intro c hc
    have := hsub hc
    simp [hg.design] at this

end Retired

theorem Isolated.retires (hg : g.Isolated K) (h : Retires K g g') : g'.Isolated K where
  tidy := h.tidy
  settled v := (h.preserves (hg.settled v)).settled
  unread {n} hk o ho hout := by
    rw [hasKind, h.kindOf?] at hk
    rw [h.connsOf (h.tidy.inUse ho)] at ho
    rw [h.evolves.isOutput (hg.tidy.conn_isSome ho)] at hout
    have hsub := h.refsOf o
    rw [hg.unread hk ho hout] at hsub
    exact sublist_nil.mp hsub
  design := by
    rw [h.connsOf (.inl rfl), hg.design]

/-! ## One pin node -/

/-- What holds while the consumers of the pin node get their copies: those in `pre` no longer read
it. -/
structure Served (K : NodeKind → Bool) (pn : NodeId) (input root out : ConnId) (ns : List NodeId)
    (g : Network) (pre : List ConnId) (g' : Network) : Prop where
  isolated : g'.Isolated K
  removable : g'.Removable pn input root out
  apart : Apart pn ns g'
  logic : ∀ n ∈ ns, g'.hasKind isLogic n = true
  readers : ∀ {x}, x ∈ g'.refsOf out ↔ x ∈ g.refsOf out ∧ x ∉ pre

/-- The next consumer gets its copy. -/
theorem Served.exists_step {pre : List ConnId} {cone : Cone}
    (h : Served K pn input root out cone.inner g pre g1) (hmem : consumer ∈ g.refsOf out)
    (hpre : consumer ∉ pre) : ∃ g2, inlineInto cone root pn out g1 consumer = .ok g2 ∧
      Served K pn input root out cone.inner g (pre ++ [consumer]) g2 := by
  have hs := h.isolated.tidy.toSound
  have hr := h.removable
  have hcons : consumer ∈ g1.refsOf out := h.readers.mpr ⟨hmem, hpre⟩
  have hwas := hs.refsOf_consumer hr.out_output hcons
  obtain ⟨g2, copies, g', root', hrun, hkeys, hsp⟩ := hr.exists_splices hs h.logic h.apart hcons
  have hlogic : ∀ p ∈ copies, g1.hasKind isLogic p.1 := fun p hp =>
    h.logic p.1 (hkeys ▸ mem_map.mpr ⟨p, hp, rfl⟩)
  have hne := hr.root_ne_out hs (h.isolated.settled fun _ => false)
  refine ⟨g2, hrun, h.isolated.splices hr hsp hcons hlogic, hr.splices hs hsp hwas hne, ?_, ?_, fun {x} => ?_⟩
  · exact hsp.apart hs h.apart (fun n hn => isSome_of_hasKind (h.logic n hn)) hr.out_mem hwas
  · intro n hn
    rw [hsp.evolves.hasKind (isSome_of_hasKind (h.logic n hn))]
    exact h.logic n hn
  · rw [hsp.readers hs (hkeys.symm ▸ h.apart) hr.out_mem hr.out_output hne, h.readers, and_assoc,
      mem_append, mem_singleton, not_or]

/-- Removing a pin node keeps the logic apart. -/
theorem Isolated.inlinePinNode (hg : g.Isolated K) (hpn : pn ∈ g.pinNodes)
    (hnothing : g.absorbedOf pn = .nothing) (h : g.inlinePinNode pn = .ok g') : g'.Isolated K := by
  obtain ⟨input, root, out, cone, g1, g2, hin, hroot, hout, hcone, hloop, hretire, hrest⟩ :=
    inlinePinNode_cases h
  have hs := hg.tidy.toSound
  have hr := removable_of_inputs hg.tidy hpn hnothing hin hroot hout
  have hrmem : root ∈ g.refsOf input := by simp [hr.driven]
  have hbehind := behind_coneOf hg.tidy (hs.listed (hs.mirror hrmem)) hcone
  have hstart : Served K pn input root out cone.inner g [] g :=
    ⟨hg, hr, hr.apart hg.tidy (hg.settled fun _ => false) hbehind, fun n hn => (hbehind n hn).logic,
      by simp⟩
  have hdone : Served K pn input root out cone.inner g (g.refsOf out) g1 := by
    apply Ends.of_ok (E := fun _ : NetworkError => False)
    rw [← hloop]
    refine Ends.foldlM_inits (fun pre x post s hl hs' => .inl ?_) hstart
    have hnd := hs.nodup_refs out
    rw [hl] at hnd
    exact hs'.exists_step (by simp [hl])
      fun hmem => (nodup_append.mp hnd).2.2 _ hmem _ mem_cons_self rfl
  -- the pin node goes, and then the logic whose first output is unread
  have hgone := hdone.isolated.retired (applies_retire hdone.isolated.tidy.mirror hretire)
  refine foldlM_invariant (fun s n s' _ hiso hstep => ?_) hgone hrest
  obtain rfl | happ := retireIfUnread_cases hiso.tidy.toSound hstep
  · exact hiso
  · exact hiso.retired happ

/-- Keeping within the budget makes nothing read a register, a buffer or a port of the design. -/
theorem Isolated.expand {limit : Option Nat} {r : Bool × Network} (hg : g.Isolated K)
    (h : g.expand limit = .ok r) : r.2.Isolated K := by
  refine expand_invariant ?_ hg h
  intro pn s s1 s' hs hpn hnothing h1 h2 _
  have hrem := hs.inlinePinNode hpn hnothing h1
  exact hrem.retires (retires_rebuildTop hrem.tidy h2)

end PldSynth.Network
