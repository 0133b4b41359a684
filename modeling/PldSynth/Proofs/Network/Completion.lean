import PldSynth.Proofs.Network.Hosting

/-!
# Nothing is left to take over

A run of takeovers leaves only registers and buffers that nothing reads (`unread_collapse`): a cell that
was passed over had no reader, and no takeover makes anything read it (`TakesOver.unreadAt`). So a second
run does nothing (`collapse_of_unread`).
-/

namespace PldSynth.Network

open Attempt List

variable {K : NodeKind → Bool} {g g' g1 g2 : Network} {n m : NodeId} {c d x o : ConnId} {s : Takeover}
  {p : NodeKind → Bool} {l : List NodeId}

/-! ## Cells that nothing reads -/

/-- A node whose one output drives nothing is not read. -/
theorem unreadAt_of_liveOutput? (hlone : g.LoneAt n) (h : g.liveOutput? n = .ok none) : g.UnreadAt n := by
  intro o ho hout
  simp only [liveOutput?, bind_eq_ok, output?_eq_ok] at h
  rcases h with ⟨r, ⟨-, hr⟩, h⟩
  split at h
  · simpa [hout] using find?_eq_none.mp hr o ho
  · rename_i o'
    have ho' : o' = o :=
      hlone (mem_of_find?_eq_some hr) ho (find?_some hr) hout
    simp only [bind_eq_ok, pure_eq_ok, fanOut_eq_ok] at h
    rcases h with ⟨k, ⟨-, rfl⟩, h⟩
    split at h
    · cases h
    · rw [← ho']
      exact length_eq_zero_iff.mp (by omega)

theorem liveOutput?_of_unreadAt (hg : g.Owned) (hn : (g.node? n).isSome) (h : g.UnreadAt n) :
    g.liveOutput? n = .ok none := by
  unfold liveOutput?
  rw [output?_eq_ok.mpr ⟨hn, rfl⟩]
  cases ho : (g.connsOf n).find? g.isOutput with
  | none => rfl
  | some o =>
    have hmem := mem_of_find?_eq_some ho
    have hnil := h hmem (find?_some ho)
    have hfan : g.fanOut o = .ok 0 := fanOut_eq_ok.mpr ⟨hg.conn_isSome hmem, by rw [hnil]; rfl⟩
    simp only [hfan, ok_bind]
    rfl

/-! ## A takeover makes nothing read a cell -/

/-- What is read afterwards was read before, or it is an output of the target. -/
theorem Takeover.Applies.read_before (h : s.Applies g g') (hg : g.Sound)
    (hsources : ∀ d ∈ s.sources, ∃ y, d ∈ g.refsOf y) (hs : g'.isSink x) (hd : d ∈ g'.refsOf x) :
    d ∈ g'.connsOf s.target ∨ ∃ y, d ∈ g.refsOf y := by
  rcases h.sound.listed hd with ⟨k, hk⟩
  by_cases hslot : x = s.slot
  · subst hslot
    rw [h.slot_refs hk] at hd
    exact .inr (hsources d (mem_filter.mp hd).1)
  have hx : g.isSink x := by
    by_cases hkc : k = s.cell
    · rw [hkc, h.connsOf_cell] at hk
      cases hk
    -- the target gets a new output only
    have hold : (g.conn? x).isSome := by
      by_cases hkt : k = s.target
      · subst hkt
        rcases h.mem_target hk with hk | hk | ⟨-, hout, -⟩
        · exact hg.conn_isSome (h.kept_sub hk)
        · exact hg.conn_isSome (h.isInput hk).1
        · rw [not_isSink_of_isOutput hout] at hs
          cases hs
      · rw [h.connsOf_of_ne hkc hkt] at hk
        exact hg.conn_isSome hk
    rwa [h.evolves.isSink hold] at hs
  by_cases hread : x ∈ g.refsOf s.output
  · by_cases hmv : x ∈ s.moved
    · rw [h.loop hmv hread] at hd
      cases hd
    · rcases h.consumer hread hslot hmv hk with ⟨out, hout, -, hrefs⟩
      rw [hrefs, mem_singleton] at hd
      exact .inl (hd ▸ hout)
  · rw [h.frame hx hslot hread hk] at hd
    exact .inr ⟨x, (mem_filter.mp hd).1⟩

theorem TakesOver.sources_read (ht : TakesOver s g g1 g2 g') : ∀ d ∈ s.sources, ∃ y, d ∈ g1.refsOf y := by
  intro d hd
  cases ht.role with
  | register _ _ hs =>
    rw [hs] at hd
    cases hd
  | buffer _ _ hs =>
    rw [hs] at hd
    rcases mem_flatMap.mp hd with ⟨c, -, hc⟩
    exact ⟨c, hc⟩

theorem Seats.refsOf_output {t : NodeId} {slot : ConnId} (h : Seats g o t slot g1) (hg : g.Sound)
    (ho : g.isOutput o) (hx : g.isOutput x) (hne : x ≠ o) : g1.refsOf x = g.refsOf x := by
  cases h with
  | existing => rfl
  | fresh h => exact h.refsOf_output hg ho hx hne

/-- A cell that nothing reads stays unread. -/
theorem TakesOver.unreadAt (ht : TakesOver s g g1 g2 g') (hg : g.Poised K)
    (hk : g.hasKind NodeKind.isSequential n) (hn : n ≠ s.cell) (hun : g.UnreadAt n) : g'.UnreadAt n := by
  have hns := isSome_of_hasKind hk
  have hr := ht.retires hg
  have hnamed := not_isNamed_of_isSequential hk
  intro o ho hout
  have ho0 := (ht.evolves hg).shrinks hns hnamed ho
  rw [(ht.evolves hg).isOutput (hg.conn_isSome ho0)] at hout
  have hout1 := ht.seats.evolves.keeps_output hout
  have hout2 := ht.applies.evolves.keeps_output hout1
  rw [eq_nil_iff_forall_not_mem]
  intro x hx
  have hx2 := (hr.refsOf o).subset hx
  rcases ht.applies.read_before (ht.poised1 hg).toSound ht.sources_read
    (ht.applies.sound.sink_of_output hx2 hout2) (ht.applies.sound.mirror hx2) with htarget | ⟨y, hy⟩
  · -- the target is a pin or pin node
    rw [hr.connsOf (hr.tidy.inUse ho)] at ho
    have hnt : n = s.target := ht.applies.sound.eq_of_mem ho htarget
    have hnamed2 := ht.applies.named
    rw [← hnt, (ht.seats.evolves.trans ht.applies.evolves).hasKind hns, hnamed] at hnamed2
    cases hnamed2
  · have hne : o ≠ s.output := by
      rintro rfl
      exact hn (hg.eq_of_mem ho0 ht.mem)
    have hback := (ht.poised1 hg).mirror hy
    rw [ht.seats.refsOf_output hg.toSound ht.isOutput hout hne, hun ho0 hout] at hback
    cases hback

/-! ## The whole run -/

/-- The cells of the sort `p` that a run over `l` has passed and left are unread. -/
def Passed (p : NodeKind → Bool) (l : List NodeId) (g : Network) : Prop :=
  ∀ n ∈ l, n ∈ g.cells → g.hasKind p n = true → g.UnreadAt n

theorem Passed.nil : Passed p [] g :=
  forall_mem_nil _

/-- Every register and every buffer among the cells has one output at most. -/
def LoneCells (g : Network) : Prop :=
  ∀ n ∈ g.cells, g.hasKind NodeKind.isSequential n = true → g.LoneAt n

theorem Tidy.loneCells (hg : g.Tidy K) (hK : ∀ k, k.isSequential → K k) : g.LoneCells := by
  intro n _ hk
  rcases hasKind_iff.mp hk with ⟨k, hk, hseq⟩
  exact (hg.regular (hasKind_of hk (by simp [hK k hseq]))).lone

theorem TakesOver.mem_cells_before (ht : TakesOver s g g1 g2 g') (hg : g.Poised K) (hn : n ∈ g'.cells) :
    n ∈ g.cells ∧ n ≠ s.cell := by
  have hn2 := (ht.retires hg).cells.subset hn
  rw [ht.applies.cells, ht.seats.cells, mem_filter, decide_eq_true_eq] at hn2
  exact hn2

/-- Cells get no further outputs. -/
theorem LoneCells.evolves (hlone : g.LoneCells) (hg : g.Owned) (he : Evolves g g')
    (hcells : ∀ n ∈ g'.cells, n ∈ g.cells) : g'.LoneCells := by
  intro n hn hk
  have hn0 := hcells n hn
  have hns := hg.cell_isSome hn0
  rw [he.hasKind hns] at hk
  have hnamed := not_isNamed_of_isSequential hk
  refine (hlone n hn0 hk).shrink (fun hc => he.shrinks hns hnamed hc) fun hc => ?_
  exact he.direction (hg.conn_isSome hc)

theorem TakesOver.loneCells (ht : TakesOver s g g1 g2 g') (hg : g.Poised K) (hlone : g.LoneCells) :
    g'.LoneCells :=
  hlone.evolves hg.toOwned (ht.evolves hg) fun _ hn => (ht.mem_cells_before hg hn).1

section

variable {p : NodeKind → Bool} {l : List NodeId} (hp : ∀ k, p k → k.isSequential)
include hp

theorem Passed.idle (hP : Passed p l g) (hlone : g.LoneCells) (h : g.liveOutput? n = .ok none) :
    Passed p (l ++ [n]) g := by
  intro m hm hcell hk
  rcases mem_append.mp hm with hm | hm
  · exact hP m hm hcell hk
  · rw [mem_singleton.mp hm] at hcell hk ⊢
    rcases hasKind_iff.mp hk with ⟨k, hk, hpk⟩
    exact unreadAt_of_liveOutput? (hlone n hcell (hasKind_of hk (hp k hpk))) h

theorem Passed.takeover (hP : Passed p l g) (hg : g.Poised K) (ht : TakesOver s g g1 g2 g') :
    Passed p (l ++ [s.cell]) g' := by
  intro m hm hcell hk
  rcases ht.mem_cells_before hg hcell with ⟨hcell0, hne⟩
  have hm0 : m ∈ l := by
    rcases mem_append.mp hm with hm | hm
    · exact hm
    · exact absurd (mem_singleton.mp hm) hne
  have hk0 : g.hasKind p m := by
    rw [← (ht.evolves hg).hasKind (hg.cell_isSome hcell0)]
    exact hk
  rcases hasKind_iff.mp hk0 with ⟨k, hkm, hpk⟩
  exact ht.unreadAt hg (hasKind_of hkm (hp k hpk)) hne (hP m hm0 hcell0 hk0)

end

theorem Passed.mono {l' : List NodeId} (hP : Passed p l' g) (hl : ∀ n ∈ l, n ∈ l') : Passed p l g :=
  fun n hn => hP n (hl n hn)

/-- A run of takeovers leaves only registers and buffers that nothing reads. -/
theorem unread_collapse {r : Bool × Network} (hg : g.Poised K) (hlone : g.LoneCells)
    (hrun : g.collapse = .ok r) :
    ∀ n ∈ r.2.cells, r.2.hasKind NodeKind.isSequential n → r.2.UnreadAt n := by
  have hbuf : ∀ k : NodeKind, decide (k = .triState) → k.isSequential := by
    intro k hk
    rw [of_decide_eq_true hk]
    rfl
  simp only [collapse, bind_eq_ok] at hrun
  rcases hrun with ⟨s, hbuffers, hregisters⟩
  rcases takeOverAll_keeps
    (P := fun pre h => Passed (· = .triState) pre h ∧ h.LoneCells ∧ ∀ n ∈ h.cells, n ∈ g.cells) hg
    ⟨.nil, hlone, fun _ hn => hn⟩ (fun n hn => (mem_filter.mp hn).2)
    (fun hh hk => takesOver_buffer hh (kindOf?_of_hasKind hk))
    (fun _ hP _ hidle => ⟨hP.1.idle hbuf hP.2.1 hidle, hP.2⟩)
    (fun hh hP _ ht => ⟨hP.1.takeover hbuf hh ht, ht.loneCells hh hP.2.1,
      fun n hn => hP.2.2 n (ht.mem_cells_before hh hn).1⟩)
    hbuffers with ⟨hs, he, hpassed, hlone', hcells⟩
  -- the buffers that are left stay unread while registers are taken over
  rcases takeOverAll_keeps
    (P := fun pre h => Passed (· = .triState) (g.cells.filter (g.hasKind (· = .triState))) h ∧
      Passed NodeKind.isRegister pre h ∧ h.LoneCells ∧ ∀ n ∈ h.cells, n ∈ s.2.cells) hs
    ⟨hpassed, .nil, hlone', fun _ hn => hn⟩ (fun n hn => (mem_filter.mp hn).2) takesOver_register
    (fun _ hP _ hidle =>
      ⟨hP.1, hP.2.1.idle (fun _ => NodeKind.isSequential_of_isRegister) hP.2.2.1 hidle, hP.2.2⟩)
    (fun hh hP _ ht => ⟨(hP.1.takeover hbuf hh ht).mono fun n hn => mem_append_left _ hn,
      hP.2.1.takeover (fun _ => NodeKind.isSequential_of_isRegister) hh ht, ht.loneCells hh hP.2.2.1,
      fun n hn => hP.2.2.2 n (ht.mem_cells_before hh hn).1⟩)
    hregisters with ⟨hr, he', hleft, hpassed', -, hcells'⟩
  intro n hn hk
  have hns := hcells' n hn
  have hng := hcells n hns
  rcases isRegister_or_triState hk with hreg | hbuffer
  · refine hpassed' n (mem_filter.mpr ⟨hns, ?_⟩) hn hreg
    rw [← he'.hasKind (hs.cell_isSome hns)]
    exact hreg
  · have hkn : r.2.hasKind (· = .triState) n := hasKind_of hbuffer rfl
    refine hleft n (mem_filter.mpr ⟨hng, ?_⟩) hn hkn
    rw [← (he.trans he').hasKind (hg.cell_isSome hng)]
    exact hkn

theorem foldlM_takeOverWith_idle {f : Network → NodeId → Attempt (Bool × Network)}
    {s : Bool × Network} (h : ∀ n ∈ l, f s.2 n = .ok (false, s.2)) :
    l.foldlM (takeOverWith f) s = .ok s := by
  induction l with
  | nil => rfl
  | cons n l ih =>
    have hn : takeOverWith f s n = .ok s := by
      simp only [takeOverWith, h n mem_cons_self, ok_bind]
      rfl
    exact foldlM_cons_eq_ok.mpr ⟨s, hn, ih fun m hm => h m (mem_cons_of_mem n hm)⟩

/-- Where nothing reads a register or buffer, a run of takeovers does nothing. -/
theorem collapse_of_unread (hg : g.Owned)
    (h : ∀ n ∈ g.cells, g.hasKind NodeKind.isSequential n → g.UnreadAt n) :
    g.collapse = .ok (false, g) := by
  have hidle : ∀ {p : NodeKind → Bool}, (∀ k, p k → k.isSequential) →
      ∀ n ∈ g.cells.filter (g.hasKind p), g.liveOutput? n = .ok none := by
    intro p hp n hn
    rcases mem_filter.mp hn with ⟨hn, hk⟩
    rcases hasKind_iff.mp hk with ⟨k, hk, hpk⟩
    exact liveOutput?_of_unreadAt hg (hg.cell_isSome hn) (h n hn (hasKind_of hk (hp k hpk)))
  refine bind_eq_ok.mpr ⟨(false, g), ?_, ?_⟩
  · apply foldlM_takeOverWith_idle
    intro n hn
    unfold takeOverBuffer
    rw [hidle (fun k hk => by rw [of_decide_eq_true hk]; rfl) n hn]
    rfl
  · apply foldlM_takeOverWith_idle
    intro n hn
    unfold takeOverRegister
    rw [hidle (fun _ => NodeKind.isSequential_of_isRegister) n hn]
    rfl

end PldSynth.Network
