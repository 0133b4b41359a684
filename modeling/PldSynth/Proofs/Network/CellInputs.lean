import PldSynth.Proofs.Network.Retirement

/-!
# The inputs of registers and buffers

A pass may put names between a register and what it reads, and it may drop a latch control that is
never active, but it takes no other input away. `KeepsInputs` says so and holds along a run of edits:
a control that is found idle later was idle from the start, because an edit puts only pins and pin
nodes in the place of a driver, and no constant.
-/

namespace PldSynth

/-- A control is found by the name of its port. -/
theorem LatchControl.ofPort?_eq_some {s : String} {control : LatchControl}
    (h : LatchControl.ofPort? s = some control) : s = control.port := by
  have hport := List.find?_some h
  exact (beq_iff_eq.mp hport).symm

theorem LatchControl.ofPort?_port (control : LatchControl) :
    LatchControl.ofPort? control.port = some control := by
  cases control <;> rfl

namespace Network

variable {K : NodeKind → Bool} {g g' g'' : Network} {n m : NodeId} {c d x : ConnId}

/-- `c` is an asynchronous control of the latch `n`, and a constant 0 drives it. -/
structure IdleControl (g : Network) (n : NodeId) (c : ConnId) : Prop where
  latch : g.kindOf? n = some .latch
  control : ∃ control : LatchControl, g.connNameOf? c = some control.port
  driver : ∃ d m, g.refsOf c = [d] ∧ d ∈ g.connsOf m ∧ g.kindOf? m = some .constant ∧
    g.constantOf? m = some 0

/-- The registers and buffers of `g` keep their inputs in `g'`, except for latch controls that are
idle. What reads a constant read it before. -/
structure KeepsInputs (g g' : Network) : Prop where
  kept : ∀ {n c}, g.hasKind NodeKind.isSequential n = true → c ∈ g.connsOf n → g.isSink c = true →
    c ∈ g'.connsOf n ∨ (∀ m, c ∉ g'.connsOf m) ∧ g.IdleControl n c
  constants : ∀ {c d m}, g.isSink c = true → g'.refsOf c = [d] → d ∈ g'.connsOf m →
    g'.kindOf? m = some .constant →
    g.refsOf c = [d] ∧ d ∈ g.connsOf m ∧ g.kindOf? m = some .constant

theorem KeepsInputs.refl (g : Network) : KeepsInputs g g where
  kept _ hc _ := .inl hc
  constants _ hd hm hk := ⟨hd, hm, hk⟩

/-- A control that is idle afterwards was idle before. -/
theorem KeepsInputs.idle (h : KeepsInputs g g') (he : Evolves g g') (hn : (g.node? n).isSome)
    (hs : g.isSink c) (hc : c ∈ g'.connsOf n) (hi : g'.IdleControl n c) : g.IdleControl n c := by
  have hk : g.kindOf? n = some .latch := (he.kind hn).symm.trans hi.latch
  obtain ⟨control, hname⟩ := hi.control
  obtain ⟨d, m, hd, hm, hkm, hzero⟩ := hi.driver
  obtain ⟨hd0, hm0, hkm0⟩ := h.constants hs hd hm hkm
  have hnamed : g.hasKind NodeKind.isNamed n = false := by simp [hasKind, hk, NodeKind.isNamed]
  refine ⟨hk, ⟨control, ?_⟩, d, m, hd0, hm0, hkm0, ?_⟩
  · rw [← he.connName hn hnamed (isSome_of_isSink hs) hc]
    exact hname
  · rw [← he.constant (isSome_of_mem_connsOf hm0)]
    exact hzero

theorem KeepsInputs.trans (h : KeepsInputs g g') (he : Evolves g g') (h' : KeepsInputs g' g'')
    (he' : Evolves g' g'') : KeepsInputs g g'' where
  kept {n c} hk hc hs := by
    have hn := isSome_of_mem_connsOf hc
    have hcs := isSome_of_isSink hs
    rcases h.kept hk hc hs with hc' | ⟨hgone, hidle⟩
    · have hk' := (he.hasKind hn NodeKind.isSequential).trans hk
      have hs' := (he.isSink hcs).trans hs
      exact (h'.kept hk' hc' hs').imp_right (And.imp_right (h.idle he hn hs hc'))
    · -- what is gone does not come back
      refine .inr ⟨fun m hm => ?_, hidle⟩
      obtain ⟨m', hm'⟩ := he'.attached (he.conn_isSome hcs) hm
      exact hgone m' hm'
  constants hs hd hm hk := by
    have hs' := he.keeps_sink hs
    obtain ⟨hd', hm', hk'⟩ := h'.constants hs' hd hm hk
    exact h.constants hs hd' hm' hk'

/-- Retiring nodes takes no register and no buffer. -/
theorem Retires.keepsInputs (h : Retires K g g') (hg : g.Sound) : KeepsInputs g g' where
  kept {n c} hk hc _ := by
    have hcell : n ∈ g.cells := by
      rcases hg.inUse hc with rfl | hn | hn | hn
      · simp [hasKind, hg.design_kind, NodeKind.isSequential] at hk
      · exact hn
      · simp [hasKind, hg.pin_kind hn, NodeKind.isSequential] at hk
      · simp [hasKind, hg.pinNode_kind hn, NodeKind.isSequential] at hk
    rw [h.connsOf (.inr (.inl (h.sequential hk hcell)))]
    exact .inl hc
  constants {c d m} hs hd hm hk := by
    have hmem : d ∈ g.refsOf c := (h.refsOf c).subset (by simp [hd])
    rw [h.connsOf (h.tidy.inUse hm)] at hm
    exact ⟨hg.refsOf_eq_singleton hs hmem, hm, (h.kindOf? m).symm.trans hk⟩

end Network

end PldSynth
