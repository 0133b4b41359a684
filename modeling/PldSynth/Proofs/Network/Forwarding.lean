import PldSynth.Proofs.Network.CellInputs
import PldSynth.Proofs.Network.Fusion

/-!
# Forwarding pin nodes and unused latch controls

The whole pass: sweeps over the inputs that get an equation, as long as they remove anything, and then
one visit to every latch. `Trims` is one edit of the pass, and `simplify_invariant` the induction over
all of them: what one edit keeps, the pass keeps. So the pass keeps the values (`simplify_spec`).
-/

namespace PldSynth.Network

open Attempt List
open PldSynth.NodeKind (isNamed)

variable {K : NodeKind → Bool} {g g' : Network} {n m a b : NodeId} {c d x o input output kept : ConnId}
  {r s s' : Bool × Network} {latch : NodeId}

/-! ## Dropping an input -/

section Detached

variable {v : ConnId → Bool} (h : (detached c).Applies g g') (hs : g.isSink c)
include h hs

section

variable (hg : g.Sound)
include hg

theorem refsOf_detached_sink (hx : g.isSink x) (hne : x ≠ c) : g'.refsOf x = g.refsOf x := by
  rw [refsOf_detached h, if_neg hne, hg.filter_refsOf_ne hs hx]

theorem stays_detached (hx : g.isSink x) (hd : d ∈ g.refsOf x) : g.Stays g' d d := by
  have hout := hg.output_of_sink hd hx
  obtain ⟨m, hm⟩ := hg.listed (hg.mirror hd)
  refine ⟨rfl, hout, ⟨m, hm⟩, m, ?_⟩
  have hdc : d ≠ c := (ne_of_isSink hs hout).symm
  rw [connsOf_detached h]
  simp [hm, hdc]

end

/-- Taking a connection out keeps the network raw. -/
theorem raw_detached (hg : g.Raw K) : g'.Raw K where
  toTidy := by
    apply hg.toTidy.of_nodes (hg.toSound.detached h) fun _ => h.directionOf?
    refine fun m => .inl ⟨h.kindOf?, fun x hx => ?_⟩
    rw [connsOf_detached h] at hx
    exact (mem_filter.mp hx).1
  unmerged m := h.absorbedOf.trans (hg.unmerged m)
  single {m x x'} hk hx hx' hxs hxs' := by
    rw [hasKind, h.kindOf?] at hk
    rw [isSink_congr h.directionOf?] at hxs hxs'
    rw [connsOf_detached h, mem_filter] at hx hx'
    exact hg.single hk hx.1 hx'.1 hxs hxs'
  driven {m x} hx hxs := by
    rw [isSink_congr h.directionOf?] at hxs
    rw [connsOf_detached h, mem_filter] at hx
    rw [refsOf_detached_sink h hs hg.toSound hxs (by simpa using hx.2)]
    exact hg.driven hx.1 hxs

variable (hg : g.Fresh K) (hc : c ∈ g.connsOf n)
  (hn : ∃ k, g.kindOf? n = some k ∧ k.isCombinational = false ∧ k.isNamed = false)
include hg hc hn

/-- An output that stays has the same logic behind it. -/
theorem matches_detached {o' : ConnId} (ho : g.Stays g' o o') : g.Matches g' v v (g.Stays g') o o' := by
  obtain ⟨rfl, hout, ⟨m, hm⟩, hl⟩ := ho
  have hout' : g'.isOutput o' := (isOutput_congr h.directionOf?).trans hout
  have hoc : o' ≠ c := (ne_of_isSink hs hout).symm
  by_cases hmn : m = n
  · subst hmn
    obtain ⟨k, hk, hgiven⟩ := hn
    have hm' : o' ∈ g'.connsOf m := by
      rw [connsOf_detached h]
      simp [hm, hoc]
    exact .given (isDerived_eq_false hk hgiven) hm
      (isDerived_eq_false (h.kindOf?.trans hk) hgiven) hm' hout' rfl
  · have hconns : g'.connsOf m = g.connsOf m := by
      rw [connsOf_detached h, hg.filter_conns_of_ne hc hmn]
    apply Matches.frame hm h.kindOf? h.absorbedOf hconns _ hout' rfl
    intro x hx
    by_cases hxs : g.isSink x = true
    · have hxc : x ≠ c := by
        rintro rfl
        exact hmn (hg.eq_of_mem hx hc)
      apply Corresponds.of_eq (isSink_congr h.directionOf?) (refsOf_detached_sink h hs hg.toSound hxs hxc)
      exact fun d hd _ => .inl (stays_detached h hs hg.toSound hxs hd)
    · exact ⟨isSink_congr h.directionOf?, fun hxs' => absurd hxs' hxs⟩

/-- Dropping an input of a cell whose output is given changes no value. -/
theorem refines_detached : Refines g g' where
  evolves := evolves_detached h
  preserves v := by
    have hg' := hg.toSound.detached h
    have hsink : ∀ x, g'.isSink x = g.isSink x := fun x => isSink_congr h.directionOf?
    have hm : ∀ {o o'}, g.Stays g' o o' → g.Matches g' v v (g.Stays g') o o' :=
      matches_detached h hs hg hc hn
    have hother : ∀ {x k}, x ∈ g'.connsOf k → x ∈ g.connsOf k ∧ x ≠ c := by
      intro x k hx
      rw [connsOf_detached h] at hx
      simpa using hx
    apply Preserves.of_matches hg.toOwned hg'.toOwned (hg.settled v) hm
    · intro x d k hx hd hk
      refine ⟨(hsink x).trans hx, d, ?_, .inl (stays_detached h hs hg.toSound hx (by simp [hd]))⟩
      rw [refsOf_detached_sink h hs hg.toSound hx (hother hk).2, hd]
    · intro x d hx hd
      rw [hsink] at hx
      obtain ⟨k, hk⟩ := hg'.listed hd
      rw [refsOf_detached_sink h hs hg.toSound hx (hother hk).2] at hd
      exact ⟨x, d, hx, hd, .inl (stays_detached h hs hg.toSound hx hd)⟩
    · -- the cell itself shows nothing
      intro k x d hk hu hx hxs hd
      have hkn : k ≠ n := by
        rintro rfl
        obtain ⟨kind, hkind, -, hnamed⟩ := hn
        simp [hasKind, hkind, hnamed] at hk
      have hxc : x ≠ c := by
        rintro rfl
        exact hkn (hg.eq_of_mem hx hc)
      refine ⟨x, by rw [connsOf_detached h]; simp [hx, hxc], (hsink x).trans hxs, d, ?_, ?_⟩
      · rw [refsOf_detached_sink h hs hg.toSound hxs hxc, hd]
      · exact fun β hβ => hβ.follow hg.toOwned hg'.toOwned hm
          (stays_detached h hs hg.toSound hxs (by simp [hd]))

theorem fresh_detached : g'.Fresh K :=
  ⟨raw_detached h hs hg.toRaw, fun v => ((refines_detached h hs hg hc hn).preserves v).settled⟩

end Detached

/-! ## One edit of the pass -/

/-- What an idle control reads is no pin node. -/
theorem IdleControl.not_pinNode (hi : g.IdleControl n c) (hg : g.Owned) (hd : d ∈ g.refsOf c)
    (hm : d ∈ g.connsOf m) : g.kindOf? m ≠ some .pinNode := by
  obtain ⟨d', m', hd', hm', hk, -⟩ := hi.driver
  rw [hd', mem_singleton] at hd
  rw [hd] at hm
  rw [hg.eq_of_mem hm hm', hk]
  exact nofun

/-- An idle control reads a constant, so dropping it leaves every pin node read. -/
theorem PinNodesRead.detached (hread : g.PinNodesRead) (h : (detached c).Applies g g') (hg : g.Sound)
    (hc : c ∈ g.connsOf n) (hs : g.isSink c) (hi : g.IdleControl n c) : g'.PinNodesRead := by
  intro m hm
  rw [h.pinNodes] at hm
  have hm0 := (mem_filter.mp hm).1
  obtain ⟨x, d, hxs, hxd, hmem⟩ := hread m hm0
  have hxc : x ≠ c := by
    rintro rfl
    exact hi.not_pinNode hg.toOwned (by simp [hxd]) hmem (hg.pinNode_kind hm0)
  refine ⟨x, d, (isSink_congr h.directionOf?).trans hxs, ?_, ?_⟩
  · rw [refsOf_detached_sink h hs hg hxs hxc, hxd]
  · rw [connsOf_detached h, hg.filter_conns_of_ne hc]
    · exact hmem
    · rintro rfl
      have hk := hi.latch
      rw [hg.pinNode_kind hm0] at hk
      cases hk

/-- `g'` is `g` after one edit of the pass. -/
inductive Trims (g g' : Network) : Prop
  /-- A pin node that only forwards a signal goes. -/
  | fuse {input output kept : ConnId} {a b : NodeId} (hf : Forwarded g input output a b)
    (h : Fuses input output kept a b g g')
  /-- A control of a latch that is tied to 0 is dropped. -/
  | drop {n : NodeId} {c : ConnId} (hc : c ∈ g.connsOf n) (hs : g.isSink c = true)
    (hi : g.IdleControl n c) (h : (detached c).Applies g g')
  /-- A constant that nothing reads any more goes. -/
  | retire {n : NodeId} (hk : g.kindOf? n = some .constant) (hun : g.UnreadAt n)
    (h : (retired n (g.connsOf n)).Applies g g')
  /-- The list of equations is brought up to date. -/
  | rebuild (h : g.rebuildTop = .ok g')

theorem Trims.evolves (h : Trims g g') (hg : g.Tidy K) : Evolves g g' := by
  cases h with
  | fuse _ h => exact h.evolves
  | drop _ _ _ h => exact evolves_detached h
  | retire _ _ h => exact evolves_retired h
  | rebuild h => exact (retires_rebuildTop hg h).evolves

theorem Trims.kindOf? (h : Trims g g') (hg : g.Tidy K) : g'.kindOf? n = g.kindOf? n := by
  cases h with
  | fuse _ h => exact h.kindOf? n
  | drop _ _ _ h => exact h.kindOf?
  | retire _ _ h => exact h.kindOf?
  | rebuild h => exact (retires_rebuildTop hg h).kindOf? n

theorem Trims.raw (h : Trims g g') (hg : g.Raw K) : g'.Raw K := by
  cases h with
  | fuse hf h => exact h.raw hg hf
  | drop _ hs _ h => exact raw_detached h hs hg
  | retire _ hun h => exact hun.raw h hg
  | rebuild h => exact (retires_rebuildTop hg.toTidy h).raw hg

theorem Trims.pinNodesRead (h : Trims g g') (hg : g.Raw K) (hread : g.PinNodesRead) : g'.PinNodesRead := by
  cases h with
  | fuse hf h => exact h.pinNodesRead hg hf hread
  | drop hc hs hi h => exact hread.detached h hg.toSound hc hs hi
  | @retire n hk hun h =>
    have hreg := hg.regular (hasKind_of hk (by simp))
    exact hread.retired h hg.toSound hun (hreg.silent hk)
  | rebuild h => exact hread.rebuilt hg.toTidy h

/-- No asynchronous control is left on the node. -/
def Uncontrolled (g : Network) (n : NodeId) : Prop :=
  ∀ ⦃c⦄, c ∈ g.connsOf n → g.isInput c = true → ∀ control : LatchControl,
    g.connNameOf? c ≠ some control.port

theorem Uncontrolled.evolves (h : g.Uncontrolled n) (hg : g.Owned) (he : Evolves g g')
    (hk : g.kindOf? n = some .latch) : g'.Uncontrolled n := by
  intro c hc hin control hname
  have hn : (g.node? n).isSome := isSome_of_kindOf? hk
  have hnamed : g.hasKind isNamed n = false := by simp [hasKind, hk, isNamed]
  have hc0 := he.shrinks hn hnamed hc
  have hcs := hg.conn_isSome hc0
  rw [isInput_congr (he.direction hcs)] at hin
  rw [he.connName hn hnamed hcs hc] at hname
  exact h hc0 hin control hname

/-! ## The whole pass -/

theorem fuseIfForwarded_cases {s s' : Nat × Network} (h : fuseIfForwarded s input = .ok s') :
    s.2.isForwarded input = .ok false ∧ s' = s ∨
      s.2.isForwarded input = .ok true ∧ s.2.fuse input = .ok s'.2 ∧ s'.1 = s.1 + 1 := by
  simp only [fuseIfForwarded, bind_eq_ok] at h
  obtain ⟨answer, hanswer, h⟩ := h
  split at h
  · rename_i htrue
    simp only [bind_eq_ok, pure_eq_ok] at h
    obtain ⟨g', hfuse, rfl⟩ := h
    exact .inr ⟨htrue ▸ hanswer, hfuse, rfl⟩
  · rename_i hfalse
    rw [pure_eq_ok] at h
    exact .inl ⟨(by simpa using hfalse) ▸ hanswer, h.symm⟩

section Run

variable {P : Network → Prop} (hP : ∀ {s}, P s → s.Raw K ∧ s.Selfless)
  (keeps : ∀ {s s'}, P s → Trims s s' → P s')
include hP keeps

theorem fuseIfForwarded_keeps {s s' : Nat × Network} (hs : P s.2)
    (h : fuseIfForwarded s input = .ok s') : P s'.2 := by
  obtain ⟨-, rfl⟩ | ⟨htrue, hfuse, -⟩ := fuseIfForwarded_cases h
  · exact hs
  · obtain ⟨hraw, hself⟩ := hP hs
    obtain ⟨output, a, b, hf⟩ := forwarded_isForwarded hraw.toSound htrue
    obtain ⟨kept, hfuses⟩ := fuses_fuse hraw hself hf hfuse
    exact keeps hs (.fuse hf hfuses)

theorem sweep_keeps {r : Nat × Network} (hg : P g) (h : g.sweep = .ok r) : P r.2 := by
  simp only [sweep, bind_eq_ok, pure_eq_ok] at h
  obtain ⟨s, hs, g', hg', rfl⟩ := h
  have hall := foldlM_invariant
    (fun _ _ _ _ hs hstep => fuseIfForwarded_keeps hP keeps hs hstep) hg hs
  exact keeps hall (.rebuild hg')

/-- What one fusion keeps, all sweeps keep. -/
theorem sweepAll_keeps {bound : Nat} (hg : P g) (h : sweepAll bound g = .ok r) : P r.2 := by
  induction bound generalizing g r with
  | zero =>
    rw [sweepAll, pure_eq_ok] at h
    exact h ▸ hg
  | succ bound ih =>
    simp only [sweepAll, bind_eq_ok] at h
    obtain ⟨s, hs, h⟩ := h
    have hsweep := sweep_keeps hP keeps hg hs
    split at h
    · rw [pure_eq_ok] at h
      exact h ▸ hsweep
    · simp only [bind_eq_ok, pure_eq_ok] at h
      obtain ⟨s', hs', rfl⟩ := h
      have hrest := ih hsweep hs'
      exact hrest

/-! ### Latch controls -/

omit hP keeps in
/-- A constant that drove one input only is unread once that input was dropped. -/
theorem unreadAt_constant {g1 : Network} (hg : g.Tidy K) (he : Evolves g g1)
    (hk : g.kindOf? n = some .constant) (ho : g.ownerOf? o = some n) (hmem : o ∈ g.refsOf c)
    (hs : g.isSink c) (hzero : (g1.refsOf o).length = 0) : g1.UnreadAt n := by
  have hn : (g.node? n).isSome := isSome_of_kindOf? hk
  intro o' ho' hout'
  obtain ⟨m, hm⟩ := hg.listed (hg.mirror hmem)
  obtain rfl : m = n := Option.mem_unique (hg.owner hm) ho
  have ho1 := he.shrinks hn (by simp [hasKind, hk, isNamed]) ho'
  have hout : g.isOutput o' := by
    rwa [he.isOutput (hg.conn_isSome ho1)] at hout'
  have hreg := hg.regular (n := m) (hasKind_of hk (by simp))
  rw [hreg.1 ho1 hm hout (hg.output_of_sink hmem hs)]
  exact length_eq_zero_iff.mp hzero

/-- One input: a control of the latch goes, and whatever else is on the latch stays. -/
theorem dropControl_keeps (hg : P s.2)
    (hk : s.2.kindOf? latch = some .latch) (hc : c ∈ s.2.connsOf latch) (hs : s.2.isSink c)
    (h : dropControl latch s c = .ok s') :
    P s'.2 ∧ Evolves s.2 s'.2 ∧ (∀ x ∈ s.2.connsOf latch, x ≠ c → x ∈ s'.2.connsOf latch) ∧
      ∀ control : LatchControl, s.2.connNameOf? c = some control.port → c ∉ s'.2.connsOf latch := by
  have hraw := (hP hg).1
  simp only [dropControl, bind_eq_ok, conn_eq_ok] at h
  obtain ⟨y, hy, h⟩ := h
  have hrefs := refsOf_of_conn? hy
  split at h
  · rename_i hnone
    rw [pure_eq_ok] at h
    refine h ▸ ⟨hg, .refl _, fun x hx _ => hx, fun control hname => ?_⟩
    have hport : y.name = control.port := by simpa [connNameOf?, hy] using hname
    rw [hport, LatchControl.ofPort?_port] at hnone
    cases hnone
  rename_i control hcontrol
  split at h
  · -- every input has a driver at this point
    rename_i hnone
    obtain ⟨d, hd⟩ := hraw.driven hc hs
    rw [hrefs, head?_eq_none_iff.mp hnone] at hd
    cases hd
  rename_i driver hdriver
  simp only [bind_eq_ok, owner_eq_ok, node_eq_ok] at h
  obtain ⟨source, hsource, z, hz, h⟩ := h
  split at h
  · rename_i hconst
    simp only [bind_eq_ok] at h
    obtain ⟨g1, h1, k, hfan, h⟩ := h
    simp only [Bool.and_eq_true, decide_eq_true_eq] at hconst
    have hkz : s.2.kindOf? source = some .constant := by simp [kindOf?_def, hz, hconst.1]
    have hmem : driver ∈ s.2.refsOf c := hrefs ▸ mem_of_head? hdriver
    have hidle : s.2.IdleControl latch c := by
      refine ⟨hk, ⟨control, ?_⟩, driver, source, hraw.refsOf_eq_singleton hs hmem, ?_, hkz, ?_⟩
      · rw [← LatchControl.ofPort?_eq_some hcontrol]
        simp [connNameOf?, hy]
      · obtain ⟨m, hm⟩ := hraw.listed (hraw.mirror hmem)
        rwa [← Option.mem_unique (hraw.owner hm) hsource]
      · simp [constantOf?, hz, hconst.2]
    have happ := applies_detach hraw.mirror hraw.owner h1
    have hP1 := keeps hg (.drop hc hs hidle happ)
    have hstay : ∀ x ∈ s.2.connsOf latch, x ≠ c → x ∈ g1.connsOf latch := by
      intro x hx hne
      rw [connsOf_detached happ]
      simp [hx, hne]
    have hgone : c ∉ g1.connsOf latch := by simp [connsOf_detached happ]
    -- the constant goes too if nothing else reads it
    split at h
    · rename_i hzero
      simp only [bind_eq_ok, pure_eq_ok] at h
      obtain ⟨g2, h2, rfl⟩ := h
      have he := evolves_detached happ
      have hun := unreadAt_constant hraw.toTidy he hkz hsource hmem hs (hzero ▸ (fanOut_eq_ok.mp hfan).2)
      have happ2 := applies_retire (hP hP1).1.mirror h2
      have hne' : latch ≠ source := by
        rintro rfl
        rw [hk] at hkz
        cases hkz
      have hconns : g2.connsOf latch = g1.connsOf latch := by rw [connsOf_retired happ2, if_neg hne']
      refine ⟨keeps hP1 (.retire (happ.kindOf?.trans hkz) hun happ2), he.trans (evolves_retired happ2), ?_, ?_⟩
      · exact fun x hx hne => hconns ▸ hstay x hx hne
      · exact fun _ _ => hconns ▸ hgone
    · rw [pure_eq_ok] at h
      exact h ▸ ⟨hP1, evolves_detached happ, hstay, fun _ _ => hgone⟩
  · exact absurd h bind_throw_ne_ok

/-- The inputs `pre` of a latch were handled: no control is left among them, and the inputs that were not
handled yet still stand on the latch. -/
theorem foldlM_dropControl {t : Bool × Network} {pre post : List ConnId} (hg : P s.2)
    (hk : s.2.kindOf? latch = some .latch) (hl : (s.2.connsOf latch).filter s.2.isInput = pre ++ post)
    (h : pre.foldlM (dropControl latch) s = .ok t) : P t.2 ∧ Evolves s.2 t.2 ∧
      (∀ x ∈ post, x ∈ t.2.connsOf latch) ∧
      ∀ x ∈ pre, ∀ control : LatchControl, s.2.connNameOf? x = some control.port →
        x ∉ t.2.connsOf latch := by
  have hlatch : (s.2.node? latch).isSome := isSome_of_kindOf? hk
  have hnd := ((hP hg).1.nodup_conns latch).filter s.2.isInput
  have hnamed : ∀ {g}, Evolves s.2 g → g.hasKind isNamed latch = false := by
    intro g he
    rw [he.hasKind hlatch, hasKind, hk]
    rfl
  have hinput : ∀ x ∈ pre ++ post, x ∈ s.2.connsOf latch ∧ s.2.isInput x :=
    fun x hx => mem_filter.mp (hl ▸ hx)
  have hall := foldlM_inits (P := fun done (t : Bool × Network) => P t.2 ∧ Evolves s.2 t.2 ∧
    (∀ x ∈ pre ++ post, x ∉ done → x ∈ t.2.connsOf latch) ∧
    ∀ x ∈ done, ∀ control : LatchControl, s.2.connNameOf? x = some control.port →
      x ∉ t.2.connsOf latch) ?_ ⟨hg, .refl _, fun x hx _ => (hinput x hx).1, by simp⟩ h
  · rcases hall with ⟨hPt, he, hleft, hgone⟩
    refine ⟨hPt, he, fun x hx => hleft x (mem_append_right _ hx) fun hpre => ?_, hgone⟩
    rw [hl] at hnd
    exact disjoint_of_nodup_append hnd hpre hx
  · rintro done c rest t t' rfl ⟨hPt, he, hleft, hgone⟩ hstep
    have hc : c ∈ (done ++ c :: rest) ++ post := by simp
    have hnot : c ∉ done := by
      rw [hl, append_assoc] at hnd
      exact fun hm => disjoint_of_nodup_append hnd hm (by simp)
    have hcs := isSink_of_isInput (hinput c hc).2
    have hcl := hleft c hc hnot
    have hst := he.keeps_sink hcs
    rcases dropControl_keeps hP keeps hPt ((he.kind hlatch).trans hk) hcl hst hstep
      with ⟨hPt', he', hkeep, hdrop⟩
    refine ⟨hPt', he.trans he', fun x hx hdone => ?_, fun x hx control hname => ?_⟩
    · rw [mem_append, mem_singleton, not_or] at hdone
      exact hkeep x (hleft x hx hdone.1) hdone.2
    · rcases mem_append.mp hx with hx | hx
      · -- what is gone does not come back
        intro hmem
        exact hgone x hx control hname (he'.shrinks (he.node_isSome hlatch) (hnamed he) hmem)
      · obtain rfl := mem_singleton.mp hx
        refine hdrop control ?_
        rw [he.connName hlatch (hnamed (.refl _)) (isSome_of_isSink hcs) hcl]
        exact hname

/-- A latch that was visited has no control left. -/
theorem dropControls_keeps (hg : P s.2)
    (hk : s.2.kindOf? latch = some .latch) (h : dropControls s latch = .ok s') :
    P s'.2 ∧ Evolves s.2 s'.2 ∧ s'.2.Uncontrolled latch := by
  simp only [dropControls, bind_eq_ok] at h
  rcases h with ⟨l, hl, h⟩
  rcases inputs_eq_ok.mp hl with ⟨hlatch, rfl⟩
  rcases foldlM_dropControl hP keeps hg hk (append_nil _).symm h with ⟨hP', he, -, hgone⟩
  refine ⟨hP', he, fun c hc hin control hname => ?_⟩
  have hnamed : s.2.hasKind isNamed latch = false := by simp [hasKind, hk, isNamed]
  have hc0 := he.shrinks hlatch hnamed hc
  have hcs := (hP hg).1.conn_isSome hc0
  rw [isInput_congr (he.direction hcs)] at hin
  rw [he.connName hlatch hnamed hcs hc] at hname
  exact hgone c (mem_filter.mpr ⟨hc0, hin⟩) control hname hc

/-- When all latches were visited, none has a control left. -/
theorem dropLatchControls_keeps (hg : P g) (h : g.dropLatchControls = .ok r) : P r.2 ∧ Evolves g r.2 ∧
      ∀ n ∈ g.cells, g.kindOf? n = some .latch → r.2.Uncontrolled n := by
  have hlatch : ∀ n ∈ g.cells.filter (g.hasKind (· = .latch)), g.kindOf? n = some .latch := by
    intro n hn
    rcases hasKind_iff.mp (mem_filter.mp hn).2 with ⟨k, hk, hp⟩
    rw [hk, of_decide_eq_true hp]
  have hall := foldlM_inits (P := fun done (s : Bool × Network) => P s.2 ∧ Evolves g s.2 ∧
    ∀ n ∈ done, s.2.Uncontrolled n) ?_ ⟨hg, .refl g, nofun⟩ h
  · refine ⟨hall.1, hall.2.1, fun n hn hk => hall.2.2 n (mem_filter.mpr ⟨hn, ?_⟩)⟩
    exact hasKind_of hk (by simp)
  · rintro done n rest s s' hl ⟨hs, he, hdone⟩ hstep
    have hkind : ∀ m ∈ done ++ n :: rest, g.kindOf? m = some .latch := hl ▸ hlatch
    have hk := hkind n (by simp)
    rcases dropControls_keeps hP keeps hs ((he.kind (isSome_of_kindOf? hk)).trans hk) hstep
      with ⟨hs', he', hn⟩
    refine ⟨hs', he.trans he', fun m hm => ?_⟩
    rcases mem_append.mp hm with hm' | hm'
    · have hkm := hkind m (mem_append_left _ hm')
      exact (hdone m hm').evolves (hP hs).1.toOwned he'
        ((he.kind (isSome_of_kindOf? hkm)).trans hkm)
    · exact mem_singleton.mp hm' ▸ hn

/-- What every edit keeps, the pass keeps. It leaves the list of equations up to date. -/
theorem simplify_invariant (hg : P g) (h : g.simplify = .ok r) : P r.2 ∧ r.2.Collected := by
  simp only [simplify, trimLatches, bind_eq_ok, pure_eq_ok] at h
  obtain ⟨s1, h1, s2, h2, g3, h3, -, -, rfl⟩ := h
  have hs1 := sweepAll_keeps hP keeps hg h1
  have hs2 := (dropLatchControls_keeps hP keeps hs1 h2).1
  exact ⟨keeps hs2 (.rebuild h3), collected_rebuildTop h3⟩

end Run

/-! ## What the pass keeps -/

/-- `g'` is `g` after some pin nodes and inputs were removed. The values are the same, and pins that
nothing drives are untouched. -/
structure Simplified (K : NodeKind → Bool) (g g' : Network) : Prop where
  fresh : g'.Fresh K
  refines : Refines g g'
  inputs : KeepsInputs g g'
  design : g'.connsOf designId = g.connsOf designId
  pins : g'.pins = g.pins
  undriven : ∀ {n}, n ∈ g.pins → (∀ c ∈ g.connsOf n, g.isSink c = false) → g'.connsOf n = g.connsOf n
  cells : ∀ n ∈ g'.cells, n ∈ g.cells
  pinNodes : ∀ n ∈ g'.pinNodes, n ∈ g.pinNodes
  read : g.PinNodesRead → g'.PinNodesRead

theorem Simplified.refl (hg : g.Fresh K) : Simplified K g g :=
  ⟨hg, .refl hg.settled, .refl g, rfl, rfl, fun _ _ => rfl, fun _ hn => hn, fun _ hn => hn, id⟩

theorem Simplified.trans {g'' : Network} (hg : g.Sound) (h : Simplified K g g')
    (h' : Simplified K g' g'') : Simplified K g g'' where
  fresh := h'.fresh
  refines := h.refines.trans h'.refines
  inputs := h.inputs.trans h.refines.evolves h'.inputs h'.refines.evolves
  design := h'.design.trans h.design
  pins := h'.pins.trans h.pins
  undriven {n} hn hc := by
    have hconns := h.undriven hn hc
    rw [← hconns]
    apply h'.undriven (h.pins ▸ hn)
    intro c hm
    rw [hconns] at hm
    rw [h.refines.evolves.isSink (hg.conn_isSome hm)]
    exact hc c hm
  cells n hn := h.cells n (h'.cells n hn)
  pinNodes n hn := h.pinNodes n (h'.pinNodes n hn)
  read hr := h'.read (h.read hr)

theorem Retires.simplified (h : Retires K g g') (hg : g.Fresh K)
    (hread : g.PinNodesRead → g'.PinNodesRead) : Simplified K g g' where
  fresh := h.fresh hg
  refines := ⟨h.evolves, fun v => h.preserves (hg.settled v)⟩
  inputs := h.keepsInputs hg.toSound
  design := h.connsOf (.inl rfl)
  pins := h.pins
  undriven hn _ := h.connsOf (.inr (.inr (.inl (h.pins ▸ hn))))
  cells _ hn := h.cells.subset hn
  pinNodes _ hn := h.pinNodes.subset hn
  read := hread

/-- What read the pin node reads a pin or pin node instead, and all else reads what it read. -/
theorem Fuses.keepsInputs (h : Fuses input output kept a b g g')
    (hf : Forwarded g input output a b) : KeepsInputs g g' where
  kept {n c} hk hc _ := by
    have hne : ∀ {k}, g.kindOf? n = some k → k.isNamed = false := by
      intro k hk'
      rw [hasKind, hk'] at hk
      cases k <;> first | rfl | cases hk
    have hna : n ≠ a := by
      rintro rfl
      obtain ⟨k, hk', hkn⟩ := hasKind_iff.mp hf.named
      simp [hne hk'] at hkn
    have hnb : n ≠ b := by
      rintro rfl
      cases hne hf.kind
    rw [h.connsOf hna hnb]
    exact .inl hc
  constants {c d m} hs hd hm hk := by
    obtain ⟨out, hout, hrefs⟩ := h.refsOf
    obtain ⟨n, hn⟩ := h.sound.listed (c := c) (d := d) (by simp [hd])
    have hma : m ≠ a := by
      rintro rfl
      have hnamed := h.named_target hf
      simp [hasKind, hk, isNamed] at hnamed
    have hmb : m ≠ b := by
      rintro rfl
      simp [h.connsOf_source] at hm
    rw [hrefs hs hn] at hd
    split at hd
    · rename_i hread
      -- then the driver is an output of `a`, which is no constant
      have hci : c ≠ input := by
        rintro rfl
        exact h.input_not_mem n hn
      rw [← singleton_inj.mp hd] at hm
      exact absurd (h.sound.eq_of_mem hm (hout ⟨c, hread, hci⟩).1) hma
    · rw [h.connsOf hma hmb] at hm
      exact ⟨hd, hm, (h.kindOf? m).symm.trans hk⟩

/-- A fusion is a simplification. -/
theorem Fuses.simplified (h : Fuses input output kept a b g g') (hg : g.Fresh K)
    (hf : Forwarded g input output a b) : Simplified K g g' where
  fresh := h.fresh hg hf
  refines := h.refines hg hf
  inputs := h.keepsInputs hf
  design := by
    obtain ⟨k, hk, hkn⟩ := hasKind_iff.mp hf.named
    have hka : k ≠ .design := by
      rintro rfl
      cases hkn
    exact h.connsOf (ne_designId hg.toOwned hk hka).symm (ne_designId hg.toOwned hf.kind nofun).symm
  pins := h.pins
  undriven {n} hn hc := by
    apply h.connsOf
    · rintro rfl
      have hsink := hf.isSink
      simp [hc input hf.mem] at hsink
    · rintro rfl
      have hk := hg.pin_kind hn
      rw [hf.kind] at hk
      cases hk
  cells n hn := h.cells ▸ hn
  pinNodes n hn := by
    rw [h.pinNodes] at hn
    exact (mem_filter.mp hn).1
  read := h.pinNodesRead hg.toRaw hf

/-- Dropping an idle control takes no other input away. -/
theorem keepsInputs_detached (h : (detached c).Applies g g') (hg : g.Sound)
    (hc : c ∈ g.connsOf n) (hi : g.IdleControl n c) : KeepsInputs g g' where
  kept {m x} _ hx _ := by
    by_cases hxc : x = c
    · rw [hxc] at hx ⊢
      refine .inr ⟨fun k hk => ?_, hg.eq_of_mem hc hx ▸ hi⟩
      rw [connsOf_detached h] at hk
      simp at hk
    · rw [connsOf_detached h]
      simp [hx, hxc]
  constants {x d m} hs hd hm hk := by
    rw [refsOf_detached h] at hd
    rw [connsOf_detached h] at hm
    split at hd
    · cases hd
    · have hmem : d ∈ g.refsOf x := (mem_filter.mp (hd ▸ mem_singleton_self d)).1
      exact ⟨hg.refsOf_eq_singleton hs hmem, (mem_filter.mp hm).1, h.kindOf?.symm.trans hk⟩

/-- Dropping an idle control is a simplification. -/
theorem simplified_detached (h : (detached c).Applies g g') (hg : g.Fresh K)
    (hc : c ∈ g.connsOf n) (hs : g.isSink c) (hi : g.IdleControl n c) : Simplified K g g' := by
  have hk := hi.latch
  have hn : ∃ k, g.kindOf? n = some k ∧ k.isCombinational = false ∧ k.isNamed = false :=
    ⟨_, hk, rfl, rfl⟩
  refine ⟨fresh_detached h hs hg hc hn, refines_detached h hs hg hc hn,
    keepsInputs_detached h hg.toSound hc hi, ?_,
    by simpa [detached] using h.pins, fun {m} hm _ => ?_, fun m hm => ?_, fun m hm => ?_,
    fun hread => hread.detached h hg.toSound hc hs hi⟩
  · rw [connsOf_detached h, hg.filter_conns_of_ne hc (ne_designId hg.toOwned hk (by simp)).symm]
  · rw [connsOf_detached h, hg.filter_conns_of_ne hc]
    rintro rfl
    rw [hg.pin_kind hm] at hk
    cases hk
  · rw [h.cells] at hm
    exact (mem_filter.mp hm).1
  · rw [h.pinNodes] at hm
    exact (mem_filter.mp hm).1

theorem Trims.simplified (h : Trims g g') (hg : g.Fresh K) : Simplified K g g' := by
  cases h with
  | fuse hf h => exact h.simplified hg hf
  | drop hc hs hi h => exact simplified_detached h hg hc hs hi
  | retire hk hun h =>
    exact (retires_retired h hg.toTidy hk ⟨nofun, nofun, rfl⟩ hun).simplified hg
      ((Trims.retire hk hun h).pinNodesRead hg.toRaw)
  | rebuild h => exact (retires_rebuildTop hg.toTidy h).simplified hg ((Trims.rebuild h).pinNodesRead hg.toRaw)

theorem simplify_spec (hg : g.Fresh K) (h : g.simplify = .ok r) : Simplified K g r.2 ∧ r.2.Collected :=
  simplify_invariant (fun hs => ⟨hs.fresh.toRaw, hs.fresh.selfless⟩)
    (fun hs ht => hs.trans hg.toSound (ht.simplified hs.fresh)) (.refl hg) h

end PldSynth.Network
