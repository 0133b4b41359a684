import PldSynth.Proofs.Network.Budget

/-!
# Pin nodes stay read while others are removed

When a pin node goes, the logic behind it goes too, and with it some connections that read other pin
nodes. Each of these pin nodes is still read: by a copy of that logic, or by the consumer that got the
copy. So after one copy every other pin node has a reader outside of what goes (`ReadOutside`), and
that is kept until the end.
-/

namespace PldSynth.Network

open Relation

variable {K : NodeKind → Bool} {g g' g1 g2 : Network} {n m pn : NodeId} {v : ConnId → Bool}
  {c d o x root out input : ConnId} {ns : List NodeId}

/-- Every pin node but `pn` is read by a node that is neither `pn` nor one of `ns`. -/
def ReadOutside (pn : NodeId) (ns : List NodeId) (g : Network) : Prop :=
  ∀ q ∈ g.pinNodes, q ≠ pn → ∃ c d e, c ∈ g.connsOf e ∧ e ≠ pn ∧ e ∉ ns ∧ g.isSink c = true ∧
    g.refsOf c = [d] ∧ d ∈ g.connsOf q

theorem ReadOutside.pinNodesRead (h : g.ReadOutside pn ns) (hpn : pn ∉ g.pinNodes) : g.PinNodesRead := by
  intro q hq
  have hne : q ≠ pn := fun heq => hpn (heq ▸ hq)
  obtain ⟨c, d, e, -, -, -, hs, hd, hmem⟩ := h q hq hne
  exact ⟨c, d, hs, hd, hmem⟩

namespace CopyStep

variable (h : CopyStep K pn input root out ns g g')
include h

theorem pinNodes : g'.pinNodes = g.pinNodes := by
  obtain ⟨copies, root', consumer, g1, -, -, hi⟩ := h.inlines
  exact hi.pinNodes

/-- What is read on a pin node was not copied. -/
theorem not_logic {q : NodeId} (hq : q ∈ g.pinNodes) (hd : d ∈ g.connsOf q) (hn : n ∈ ns) :
    d ∉ g.connsOf n := by
  intro hmem
  obtain ⟨k, hk, hl⟩ := hasKind_iff.mp (h.logic n hn)
  rw [h.tidy.eq_of_mem hmem hd, h.tidy.pinNode_kind hq] at hk
  cases hk
  cases hl

/-- What goes on reading: a connection outside of the logic and of the pin node. -/
theorem reads_outside {e q : NodeId} (hc : c ∈ g.connsOf e) (hs : g.isSink c) (hd : g.refsOf c = [d])
    (hdq : d ∈ g.connsOf q) (hq : q ≠ pn) :
    c ∈ g'.connsOf e ∧ g'.isSink c ∧ g'.refsOf c = [d] ∧ d ∈ g'.connsOf q := by
  obtain ⟨copies, root', consumer, g1, -, hcons, hi⟩ := h.inlines
  have hwas := h.tidy.refsOf_consumer h.removable.out_output hcons
  have hne : c ≠ consumer := by
    rintro rfl
    obtain rfl : out = d := List.singleton_inj.mp (hwas.symm.trans hd)
    exact hq (h.tidy.eq_of_mem hdq h.removable.out_mem)
  refine ⟨?_, ?_, ?_, ?_⟩
  · rwa [hi.connsOf_old (isSome_of_mem_connsOf hc)]
  · exact hi.evolves.keeps_sink hs
  · rw [hi.other hs hne, hd]
  · rwa [hi.connsOf_old (isSome_of_mem_connsOf hdq)]

theorem readOutside (hread : g.ReadOutside pn ns) : g'.ReadOutside pn ns := by
  intro q hq hne
  rw [h.pinNodes] at hq
  obtain ⟨c, d, e, hc, hepn, hens, hs, hd, hdq⟩ := hread q hq hne
  obtain ⟨hc', hs', hd', hdq'⟩ := h.reads_outside hc hs hd hdq hne
  exact ⟨c, d, e, hc', hepn, hens, hs', hd', hdq'⟩

/-- After the first copy every other pin node is read from outside: what the logic reads, the copy
reads too, and what the pin node read, the consumer reads now. -/
theorem readOutside_of_read (hread : g.PinNodesRead) : g'.ReadOutside pn ns := by
  intro q hq hne
  rw [h.pinNodes] at hq
  obtain ⟨c, d, hs, hd, hdq⟩ := hread q hq
  obtain ⟨e, hc⟩ := h.tidy.listed (c := c) (d := d) (by simp [hd])
  obtain ⟨copies, root', consumer, g1, hkeys, hcons, hi⟩ := h.inlines
  have hwas := h.tidy.refsOf_consumer h.removable.out_output hcons
  have hdq' : d ∈ g'.connsOf q := by rwa [hi.connsOf_old (isSome_of_mem_connsOf hdq)]
  -- `d` has no twin, since it belongs to a pin node
  have huntwinned : ∀ {x}, (d, x) ∉ twinPairs copies g g1 := by
    intro x hx
    obtain ⟨p, hp, hmem, -⟩ := hi.copied.mem_twinPairs hx
    exact h.not_logic hq hdq (hkeys ▸ List.mem_map.mpr ⟨p, hp, rfl⟩) hmem
  by_cases hepn : e = pn
  · -- the pin node that goes read `q`, and now the consumer does
    subst hepn
    obtain rfl := h.removable.sole c hc hs
    obtain rfl : root = d := List.singleton_inj.mp (h.removable.driven.symm.trans hd)
    have hroot : root' = root := (hi.root_copy.resolve_left huntwinned).1
    have hcs := h.tidy.sink_of_output hcons h.removable.out_output
    obtain ⟨f, hf⟩ := h.tidy.listed (h.tidy.mirror hcons)
    refine ⟨consumer, root, f, ?_, ?_, ?_, ?_, hroot ▸ hi.moved, hdq'⟩
    · rwa [hi.connsOf_old (isSome_of_mem_connsOf hf)]
    · rintro rfl
      obtain rfl := h.removable.sole consumer hf hcs
      exact h.ne (List.singleton_inj.mp (h.removable.driven.symm.trans hwas))
    · intro hfn
      exact h.separate.apart f hfn consumer hf hcs out (by simp [hwas]) (h.tidy.owner h.removable.out_mem)
    · exact hi.evolves.keeps_sink hcs
  by_cases hens : e ∈ ns
  · -- the logic that goes read `q`, and now its copy does
    obtain ⟨p, hp, rfl⟩ := List.mem_map.mp (hkeys.symm ▸ hens)
    obtain ⟨c', hc', htwin⟩ := hi.exists_twin hp hc
    obtain ⟨d', hd', hrefs⟩ := hi.wired (c, c') htwin hs d hd
    obtain rfl := (hd'.resolve_left huntwinned).1
    have hnew := hi.copied.new p hp
    refine ⟨c', d', p.2, hc', ?_, ?_, ?_, hrefs, hdq'⟩
    · rintro heq
      have := isSome_of_kindOf? h.removable.kind
      rw [← heq, hnew] at this
      cases this
    · intro hmem
      have := isSome_of_hasKind (h.logic p.2 hmem)
      rw [hnew] at this
      cases this
    · rw [isSink, hi.direction_twin htwin]
      exact hs
  · obtain ⟨hc', hs', hd', hdq'⟩ := h.reads_outside hc hs hd hdq hne
    exact ⟨c, d, e, hc', hepn, hens, hs', hd', hdq'⟩

end CopyStep

theorem CopyStep.readOutside_run (h : ReflTransGen (CopyStep K pn input root out ns) g g')
    (hread : g.ReadOutside pn ns) : g'.ReadOutside pn ns := by
  induction h with
  | refl => exact hread
  | tail _ hstep ih => exact hstep.readOutside ih

/-- What goes reads nothing that counts. -/
theorem ReadOutside.retired (h : g.ReadOutside pn ns) (hg : g.Sound) (hun : g.UnreadAt n)
    (hn : n = pn ∨ n ∈ ns) (happ : (retired n (g.connsOf n)).Applies g g') : g'.ReadOutside pn ns := by
  intro q hq hne
  rw [happ.pinNodes] at hq
  obtain ⟨hq, hqn⟩ := List.mem_filter.mp hq
  have hqn : q ≠ n := by simpa [Network.retired] using hqn
  obtain ⟨c, d, e, hc, hepn, hens, hs, hd, hdq⟩ := h q hq hne
  have hen : e ≠ n := by
    rintro rfl
    rcases hn with hn | hn
    · exact hepn hn
    · exact hens hn
  refine ⟨c, d, e, ?_, hepn, hens, (isSink_congr happ.directionOf?).trans hs, ?_, ?_⟩
  · rwa [connsOf_retired happ, if_neg hen]
  · rw [hun.refsOf_retired happ hg hc hen hs, hd]
  · rwa [connsOf_retired happ, if_neg hqn]

theorem ReadOutside.clears (h : g.ReadOutside pn ns) (hrun : ReflTransGen (RetireStep K ns) g g') :
    g'.ReadOutside pn ns := by
  induction hrun with
  | refl => exact h
  | tail _ hstep ih =>
    obtain ⟨n, hn, -, hun, happ⟩ := hstep.node
    exact ih.retired hstep.tidy.toSound hun (.inr hn) happ

/-- Removing a pin node leaves every other pin node read. -/
theorem Removal.pinNodesRead (h : Removal K pn input root out ns g g1 g2 g') (hg : g.Tidy K)
    (hpn : pn ∈ g.pinNodes) (hread : g.PinNodesRead) : g'.PinNodesRead := by
  -- the pin node itself has a consumer, so there is a first copy
  have hsome : g.refsOf out ≠ [] := by
    obtain ⟨c, d, hs, hd, hmem⟩ := hread pn hpn
    have hdc : d ∈ g.refsOf c := by simp [hd]
    have hreg := hg.regular (hasKind_of h.removable.kind (by simp [NodeKind.isNamed]))
    rw [← hreg.lone hmem h.removable.out_mem (hg.output_of_sink hdc hs) h.removable.out_output]
    exact List.ne_nil_of_mem (hg.mirror hdc)
  have hout1 : g1.ReadOutside pn ns := by
    rcases ReflTransGen.cases_head h.copies with heq | ⟨s, hfirst, hrest⟩
    · exact absurd h.unread (heq ▸ hsome)
    · exact CopyStep.readOutside_run hrest (hfirst.readOutside_of_read hread)
  have hout2 := hout1.retired h.tidy1.toSound h.unreadAt (.inl rfl) h.retired
  refine (hout2.clears h.clears).pinNodesRead fun hmem => ?_
  have hsub := (retireSteps_retires h.retires.tidy h.clears).pinNodes.subset hmem
  rw [h.retired.pinNodes] at hsub
  simp [Network.retired] at hsub

theorem RemovalStep.pinNodesRead (h : RemovalStep K g g') (hread : g.PinNodesRead) : g'.PinNodesRead := by
  obtain ⟨pn, input, root, out, ns, g1, g2, g3, hpn, hrem, htop⟩ := h.removal
  obtain ⟨origin, hu⟩ := hrem.unfolds
  exact (hrem.pinNodesRead h.tidy hpn hread).rebuilt hu.tidy htop

/-- Keeping within the budget leaves every pin node read. -/
theorem pinNodesRead_expand {limit : Option Nat} {r : Bool × Network} (hg : g.Tidy K)
    (hK : ∀ k, k.isCombinational → K k) (hset : g.Settled v) (hread : g.PinNodesRead)
    (h : expand limit g = .ok r) : r.2.PinNodesRead :=
  expand_keeps hg hK hset h (fun hs hstep => hstep.pinNodesRead hs) hread

end PldSynth.Network
