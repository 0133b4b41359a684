import PldSynth.Proofs.Network.Jams
import PldSynth.Proofs.Network.Removals

/-!
# Pin nodes are live

A pin node is made where the walk through the logic comes by, so what it names is needed (`PinNodesLive`).
It stays so: when a pin node is removed or a register is taken over, another pin or pin node takes the
place of each of its readers.
-/

namespace PldSynth.Network

variable {K : NodeKind → Bool} {g g' g1 g2 : Network} {n m : NodeId} {c o p x : ConnId} {r : Bool × Network}

/-- The output of a pin node that took over nothing is live. -/
def PinNodesLive (g : Network) : Prop :=
  ∀ n ∈ g.pinNodes, g.absorbedOf n = .nothing → ∃ p ∈ g.connsOf n, g.isOutput p = true ∧ g.Live p

/-- An output stays live if its readers are where they were, or stand outside of the logic. -/
theorem Live.keeps (hlive : g.Live p) (hg : g.Owned) (hg' : g'.Tidy K) (h : KeepsLogic g g')
    (hreader : ∀ {c n}, g.ReadAt p c n → ∃ c' n', g'.ReadAt p c' n' ∧
      (n' = n ∨ g'.hasKind NodeKind.isBoundary n')) : g'.Live p := by
  rcases hlive.exists_due with ⟨c, n, hr, hdue⟩
  rcases hreader hr with ⟨c', n', hr', rfl | hn'⟩
  · exact hr'.live (hdue.keepsLogic hg h) hg'
  · exact .leaves ⟨c', n', hr', hn'⟩

theorem readAt_setTop {l : List ConnId} (hr : g.ReadAt o c n) :
    ({ g with top := l } : Network).ReadAt o c n :=
  ⟨hr.mem, hr.sink, hr.refs⟩

/-! ## The first pass -/

/-- The walk makes pin nodes for what is needed. -/
theorem pinNodesLive_branch (hg : g.Fresh K) (hpins : g.pins = []) (hpinNodes : g.pinNodes = [])
    (hrun : g.branch = .ok r) : r.2.PinNodesLive := by
  simp only [branch, Attempt.bind_eq_ok, Attempt.pure_eq_ok] at hrun
  rcases hrun with ⟨_, -, g1, h1, w, hw, g2, h2, -, -, rfl⟩
  have hexposed := exposed_exposePorts hg hpins h1
  have hwalks := walks_nameSharedOutputs hexposed.fresh.toTidy (hexposed.pinNodes.trans hpinNodes) hw
  have hb : Branched K g w.net := nameSharedOutputs_invariant
    (Branched.of_exposed hpinNodes hexposed).fresh.toSound (Branched.of_exposed hpinNodes hexposed)
    (fun _ hP hs => hP.shares hs) hw
  have hkeeps := hb.read.keepsLogic hb.fresh.toTidy h2
  rw [hb.read.rebuildTop hb.fresh.toTidy] at h2
  cases h2
  intro n hn _
  rcases hb.read n hn with ⟨c, p, hs, hp, hmem⟩
  have hout : w.net.isOutput p := hb.fresh.output_of_sink (by simp [hp]) hs
  have hlive := hwalks.live (hb.fresh.pinNode_kind hn) hmem hout
  exact ⟨p, hmem, hout, hlive.keeps hb.fresh.toOwned ((alike_setTop _).tidy hb.fresh.toTidy) hkeeps
    fun hr => ⟨_, _, readAt_setTop hr, .inl rfl⟩⟩

/-! ## The second pass -/

section Trims

variable (ht : Trims g g') (hg : g.Trimmable K)
include ht hg

/-- A pin node that stays keeps its output. -/
theorem Trims.pinNode_before (hn : n ∈ g'.pinNodes) :
    n ∈ g.pinNodes ∧ ∀ p ∈ g.connsOf n, g.isOutput p → p ∈ g'.connsOf n := by
  rcases ht.pinNode_cases hg.toRaw hn with ⟨hn0, hconns | ⟨input, output, kept, b, hw, hf⟩⟩
  · exact ⟨hn0, fun p hp _ => hconns ▸ hp⟩
  · exact ⟨hn0, fun p hp hout => hf.mem_target hp (ne_of_isSink hw.isSink hout).symm⟩

/-- Removing pin nodes and controls leaves the other pin nodes live. -/
theorem Trims.pinNodesLive (h : g.PinNodesLive) : g'.PinNodesLive := by
  have he := ht.evolves hg.toTidy
  intro n hn _
  rcases ht.pinNode_before hg hn with ⟨hn0, hkept⟩
  rcases h n hn0 (hg.unmerged n) with ⟨p, hp, hout, hlive⟩
  refine ⟨p, hkept p hp hout, he.keeps_output hout, ?_⟩
  refine hlive.keeps hg.toOwned (ht.trimmable hg).toTidy (ht.keepsLogic hg.toRaw hg.read) fun {c m} hr => ?_
  have hk : g.kindOf? n ≠ some .constant := by
    rw [hg.pinNode_kind hn0]
    nofun
  rcases ht.frame_or_fuse hg.toRaw hg.read hp hk with hiff | ⟨input, output, kept, a, b, hw, hf⟩
  · exact ⟨c, m, hiff.mpr hr, .inl rfl⟩
  · -- the pin node that goes leaves its input to another named node
    have hne : p ≠ output := by
      rintro rfl
      rw [hf.pinNodes, List.mem_filter, decide_eq_true_eq] at hn
      exact hn.2 (hg.eq_of_mem hp hw.mem_output)
    refine ⟨c, _, hf.read_after hw hg.toRaw hr hne, ?_⟩
    split
    · exact .inr (isBoundary_of_isNamed (he.keeps_kind hw.named))
    · exact .inl rfl

end Trims

theorem pinNodesLive_simplify (hg : g.Trimmable K) (h : g.PinNodesLive) (hrun : g.simplify = .ok r) :
    r.2.Trimmable K ∧ r.2.PinNodesLive := by
  refine (simplify_invariant (P := fun s => s.Trimmable K ∧ s.PinNodesLive)
    (fun hs => ⟨hs.1.toRaw, hs.1.anchored.selfless⟩) ?_ ⟨hg, h⟩ hrun).1
  rintro s s' ⟨hs, hlive⟩ ht
  exact ⟨ht.trimmable hs, ht.pinNodesLive hs hlive⟩

/-! ## The third pass -/

section Takeover

variable {s : Takeover} (ht : TakesOver s g g1 g2 g') (hg : g.Poised K)
  (hK : ∀ k, k.isSequential → K k) (hread : g.PinNodesRead)
include ht hg hK hread

/-- Where a node that is neither the cell nor the target is read afterwards. -/
theorem TakesOver.read_after (hp : p ∈ g.connsOf n) (hcell : n ≠ s.cell) (hr : g.ReadAt p c m) :
    ∃ c' m', g'.ReadAt p c' m' ∧ (m' = m ∨ g'.hasKind NodeKind.isBoundary m') := by
  have hg1 := ht.poised1 hg
  have hlone := (ht.regularAt1 hg hK).lone
  have hne : p ≠ s.output := by
    rintro rfl
    exact hcell (hg.eq_of_mem hp ht.mem)
  have hr1 : g1.ReadAt p c m :=
    (ht.seats.readAt_iff hg.toSound ht.isOutput (hg.conn_isSome hp) hne).mpr hr
  rcases ht.exists_rebuilt hg hK hread with ⟨l, rfl⟩
  by_cases hm : m = s.cell
  · subst hm
    have hown := ht.applies.read_own hg1.toSound hlone (ht.left_to_slot hg hK) hr1 hne
    refine ⟨_, _, readAt_setTop hown, .inr ?_⟩
    have hnamed := ht.applies.seat.named
    rw [← ht.applies.evolves.hasKind (isSome_of_hasKind hnamed)] at hnamed
    exact isBoundary_of_isNamed hnamed
  · exact ⟨c, m, readAt_setTop (ht.applies.read_other hg1.toSound hlone hr1 hm hne), .inl rfl⟩

theorem TakesOver.pinNodesLive (h : g.PinNodesLive) : g'.PinNodesLive := by
  have he := ht.evolves hg
  intro n hn hnothing
  rcases ht.pinNode_before hg hn hnothing with ⟨hn0, hnothing0, hcell, htarget⟩
  rcases h n hn0 hnothing0 with ⟨p, hp, hout, hlive⟩
  refine ⟨p, ?_, he.keeps_output hout, ?_⟩
  · have hp1 : p ∈ g1.connsOf n := by rwa [ht.connsOf1 (isSome_of_mem_connsOf hp)]
    rcases ht.exists_rebuilt hg hK hread with ⟨l, rfl⟩
    exact (ht.applies.connsOf_of_ne hcell htarget).symm ▸ hp1
  · exact hlive.keeps hg.toOwned (ht.poised hg).toTidy (ht.keepsLogic hg hK hread)
      (ht.read_after hg hK hread hp hcell)

end Takeover

theorem pinNodesLive_collapse (hg : g.Poised K) (hK : ∀ k, k.isSequential → K k) (hread : g.PinNodesRead)
    (h : g.PinNodesLive) (hrun : g.collapse = .ok r) : r.2.PinNodesLive := by
  exact (collapse_keeps_of_read hg hK hread h
    (fun hs hread hP ht => ht.pinNodesLive hs hK hread hP) hrun).2.2

end PldSynth.Network
