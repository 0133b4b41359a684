import Mathlib.Algebra.GroupWithZero.Nat
import Mathlib.Data.List.Forall2
import PldSynth.Worklist

/-!
# Runs of steps that may fail

Every pass is a sequence of steps in `Except`. `bind_eq_ok` takes a successful sequence apart, and
the rules below carry a fact through a successful loop.
-/

namespace PldSynth

/-! ## Lists in step -/

theorem exists_left_of_forall₂ {α β : Type} {R : α → β → Prop} {l : List α} {l' : List β} {y : β}
    (h : List.Forall₂ R l l') (hy : y ∈ l') : ∃ x ∈ l, R x y := by
  obtain ⟨i, hi, rfl⟩ := List.getElem_of_mem hy
  exact ⟨_, List.getElem_mem (h.length_eq ▸ hi), h.get (h.length_eq ▸ hi) hi⟩

theorem exists_right_of_forall₂ {α β : Type} {R : α → β → Prop} {l : List α} {l' : List β} {x : α}
    (h : List.Forall₂ R l l') (hx : x ∈ l) : ∃ y ∈ l', R x y := by
  obtain ⟨i, hi, rfl⟩ := List.getElem_of_mem hx
  exact ⟨_, List.getElem_mem (h.length_eq ▸ hi), h.get hi (h.length_eq ▸ hi)⟩

end PldSynth

namespace PldSynth.Attempt

variable {ε α β σ : Type} {bound : Nat} {x : Except ε α} {l items : List α} {f : σ → α → Except ε σ} {s t : σ}
  {step : σ → α → Except ε (σ × List α)}

/-- A sequence succeeds exactly if its first step does and then the rest. -/
theorem bind_eq_ok {f : α → Except ε β} {b : β} :
    (x >>= f) = .ok b ↔ ∃ a, x = .ok a ∧ f a = .ok b := by
  cases x <;> simp [bind, Except.bind]

theorem ok_bind {a : α} {f : α → Except ε β} : ((.ok a : Except ε α) >>= f) = f a := rfl

theorem pure_eq_ok {a b : α} : (pure a : Except ε α) = .ok b ↔ a = b := by
  simp [pure, Except.pure]

theorem throw_eq_ok {e : ε} {b : α} : (throw e : Except ε α) = .ok b ↔ False := by
  simp [throw, throwThe, MonadExceptOf.throw]

theorem bind_throw_ne_ok {f : α → ε} {b : β} :
    (x >>= fun a => (throw (f a) : Except ε β)) ≠ .ok b := by
  cases x <;> exact nofun

/-- A test that answers no unless a condition holds. -/
theorem ite_eq_ok_true {p : Prop} [Decidable p] {x : Except ε Bool} :
    (if p then x else pure false) = .ok true ↔ p ∧ x = .ok true := by
  by_cases h : p <;> simp [h, pure, Except.pure]

theorem mapError_eq_ok {ε' : Type} {f : ε → ε'} {a : α} :
    x.mapError f = .ok a ↔ x = .ok a := by
  cases x <;> simp [Except.mapError]

theorem exists_of_isOk (h : x.isOk) : ∃ a, x = .ok a := by
  cases x with
  | ok a => exact ⟨a, rfl⟩
  | error => cases h

theorem toOption_eq_some {a : α} : x.toOption = some a ↔ x = .ok a := by
  cases x <;> simp [Except.toOption]

/-! ## Loops -/

theorem forM_eq_ok {f : α → Except ε Unit} : l.forM f = .ok () ↔ ∀ x ∈ l, f x = .ok () := by
  induction l with
  | nil => simp [List.forM, pure, Except.pure]
  | cons x l ih =>
    change (f x >>= fun _ => l.forM f) = .ok () ↔ _
    rw [bind_eq_ok, List.forall_mem_cons, ← ih]
    exact ⟨fun ⟨_, hx, hl⟩ => ⟨hx, hl⟩, fun ⟨hx, hl⟩ => ⟨(), hx, hl⟩⟩

theorem mapM_cons_eq_ok {f : α → Except ε β} {x : α} {ys : List β} :
    (x :: l).mapM f = .ok ys ↔ ∃ y ys', f x = .ok y ∧ l.mapM f = .ok ys' ∧ ys = y :: ys' := by
  rw [List.mapM_cons]
  simp only [bind_eq_ok, pure_eq_ok]
  grind

/-- A loop that maps every item succeeds exactly if it does on each. -/
theorem mapM_eq_ok {f : α → Except ε β} {ys : List β} :
    l.mapM f = .ok ys ↔ List.Forall₂ (fun x y => f x = .ok y) l ys := by
  induction l generalizing ys with
  | nil =>
    rw [List.mapM_nil, pure_eq_ok, List.forall₂_nil_left_iff]
    exact eq_comm
  | cons x l ih =>
    rw [mapM_cons_eq_ok]
    constructor
    · rintro ⟨y, ys', hy, hl, rfl⟩
      exact .cons hy (ih.mp hl)
    · intro h
      cases h with
      | cons hy hl => exact ⟨_, _, hy, ih.mpr hl, rfl⟩

theorem foldlM_nil_eq_ok : [].foldlM f s = .ok t ↔ s = t := by
  simp [pure_eq_ok]

theorem foldlM_cons_eq_ok {x : α} :
    (x :: l).foldlM f s = .ok t ↔ ∃ s', f s x = .ok s' ∧ l.foldlM f s' = .ok t := by
  rw [List.foldlM_cons, bind_eq_ok]

/-- A step that succeeds, followed by one that succeeds on its result. -/
theorem exists_bind {f : α → Except ε β} {a : α} (hx : x = .ok a)
    (hf : ∃ b, f a = .ok b) : ∃ b, (x >>= f) = .ok b := by
  rcases hf with ⟨b, hb⟩
  exact ⟨b, bind_eq_ok.mpr ⟨a, hx, hb⟩⟩

/-- A loop whose steps change nothing changes nothing. -/
theorem foldlM_of_fixed (h : ∀ x ∈ l, f s x = .ok s) : l.foldlM f s = .ok s := by
  induction l with
  | nil => rfl
  | cons x l ih =>
    rw [List.foldlM_cons, h x List.mem_cons_self]
    exact ih fun y hy => h y (List.mem_cons_of_mem x hy)

/-! ## Known errors -/

/-- The run ends well with a result in `P`, or it stops at an error in `E`. -/
def Ends (E : ε → Prop) (P : α → Prop) (x : Except ε α) : Prop :=
  (∃ a, x = .ok a ∧ P a) ∨ ∃ e, x = .error e ∧ E e

namespace Ends

variable {E E' : ε → Prop} {P : α → Prop} {Q : β → Prop}

theorem ok {a : α} (h : P a) : Ends E P (.ok a) :=
  .inl ⟨a, rfl, h⟩

theorem error {e : ε} (h : E e) : Ends E P (.error e : Except ε α) :=
  .inr ⟨e, rfl, h⟩

theorem of_ok {a : α} (h : Ends E P (.ok a : Except ε α)) : P a := by
  rcases h with ⟨_, heq, ha⟩ | ⟨_, heq, -⟩
  · exact Except.ok.inj heq ▸ ha
  · cases heq

theorem of_error {e : ε} (h : Ends E P (.error e : Except ε α)) : E e := by
  rcases h with ⟨_, heq, -⟩ | ⟨_, heq, he⟩
  · cases heq
  · exact Except.error.inj heq ▸ he

theorem of_exists (h : ∃ a, x = .ok a) : Ends E (fun _ => True) x := by
  rcases h with ⟨_, rfl⟩
  exact .ok trivial

/-- A fact about the result of a run, if there is one. -/
theorem of_forall (h : ∀ a, x = .ok a → P a) : Ends (fun _ => True) P x := by
  cases x with
  | ok a => exact .ok (h a rfl)
  | error => exact .error trivial

/-- A run that stops at no error comes to a result. -/
theorem exists_result (h : Ends (fun _ => False) P x) : ∃ a, x = .ok a ∧ P a :=
  h.resolve_right fun ⟨_, _, he⟩ => he

theorem exists_ok (h : Ends (fun _ => False) P x) : ∃ a, x = .ok a :=
  h.exists_result.imp fun _ ha => ha.1

theorem mono (h : Ends E P x) (hE : ∀ e, E e → E' e) {P' : α → Prop}
    (hP : ∀ a, P a → P' a) : Ends E' P' x := by
  rcases h with ⟨a, hx, ha⟩ | ⟨e, hx, he⟩
  · exact .inl ⟨a, hx, hP a ha⟩
  · exact .inr ⟨e, hx, hE e he⟩

theorem bind {f : α → Except ε β} (h : Ends E P x)
    (hf : ∀ a, P a → Ends E Q (f a)) : Ends E Q (x >>= f) := by
  rcases h with ⟨a, rfl, ha⟩ | ⟨e, rfl, he⟩
  · exact hf a ha
  · exact .inr ⟨e, rfl, he⟩

theorem forM {f : α → Except ε Unit} (h : ∀ x ∈ l, Ends E (fun _ => True) (f x)) :
    Ends E (fun _ => True) (l.forM f) := by
  induction l with
  | nil => exact .inl ⟨(), rfl, trivial⟩
  | cons x l ih =>
    exact (h x List.mem_cons_self).bind fun _ _ => ih fun y hy => h y (List.mem_cons_of_mem x hy)

/-- A loop stops at a known error if every step does. The fact it keeps is about the items handled so far. -/
theorem foldlM_inits {P : List α → σ → Prop}
    (h : ∀ pre x post s, l = pre ++ x :: post → P pre s → Ends E (P (pre ++ [x])) (f s x))
    (start : P [] s) : Ends E (P l) (l.foldlM f s) := by
  induction l generalizing s P with
  | nil => exact .ok start
  | cons x l ih =>
    exact (h [] x l s rfl start).bind fun s' hs' => ih (P := fun pre => P (x :: pre))
      (fun pre y post s hl => h (x :: pre) y post s (by simp [hl])) hs'

/-- The same for the states that the steps before lead to. -/
theorem foldlM
    (h : ∀ pre x post t, l = pre ++ x :: post → pre.foldlM f s = .ok t → Ends E (fun _ => True) (f t x)) :
    Ends E (fun _ => True) (l.foldlM f s) := by
  refine (foldlM_inits (P := fun pre t => pre.foldlM f s = .ok t) ?_ rfl).mono (fun _ => id)
    fun _ _ => trivial
  intro pre x post t hl ht
  rcases h pre x post t hl ht with ⟨u, hx, -⟩ | hstop
  · refine .inl ⟨u, hx, ?_⟩
    rw [List.foldlM_append, ht, ok_bind, List.foldlM_cons, hx]
    rfl
  · exact .inr hstop

/-- The same for a loop with an invariant. -/
theorem foldlM_invariant {I : σ → Prop}
    (h : ∀ s, ∀ x ∈ l, I s → Ends E I (f s x)) (start : I s) : Ends E I (l.foldlM f s) :=
  foldlM_inits (P := fun _ => I) (fun _ x _ s hl => h s x (by simp [hl])) start

theorem mapM {f : α → Except ε β} (h : ∀ x ∈ l, Ends E Q (f x)) :
    Ends E (fun ys => ∀ y ∈ ys, Q y) (l.mapM f) := by
  induction l with
  | nil => exact .ok (by simp)
  | cons x l ih =>
    rw [List.mapM_cons]
    refine (h x List.mem_cons_self).bind fun y hy => ?_
    refine (ih fun z hz => h z (List.mem_cons_of_mem x hz)).bind fun ys hys => ?_
    exact .ok (List.forall_mem_cons.mpr ⟨hy, hys⟩)

theorem anyM {f : α → Except ε Bool} (h : ∀ x ∈ l, Ends E (fun _ => True) (f x)) :
    Ends E (fun _ => True) (l.anyM f) := by
  induction l with
  | nil => exact .ok trivial
  | cons x l ih =>
    refine (h x List.mem_cons_self).bind fun b _ => ?_
    cases b with
    | true => exact .ok trivial
    | false => exact ih fun y hy => h y (List.mem_cons_of_mem x hy)

/-- A work list stops at a known error if every step does on the items that it may bring up. -/
theorem drain {I : σ → Prop} {J : α → Prop}
    (h : ∀ s x, I s → J x → Ends E (fun r => I r.1 ∧ ∀ y ∈ r.2, J y) (step s x))
    (start : I s) (waiting : ∀ x ∈ items, J x) : Ends E I (PldSynth.drain step bound s items) := by
  induction bound generalizing s items with
  | zero => cases items <;> exact .ok start
  | succ bound ih =>
    cases items with
    | nil => exact .ok start
    | cons x rest =>
      refine (h s x start (waiting x List.mem_cons_self)).bind fun r hr => ih hr.1 fun y hy => ?_
      rcases List.mem_append.mp hy with hy | hy
      · exact hr.2 y hy
      · exact waiting y (List.mem_cons_of_mem x hy)

end Ends

/-! ## Runs that end well -/

/-- What holds at the start of a loop and is kept by every step holds at its end. -/
theorem foldlM_inits {P : List α → σ → Prop}
    (keeps : ∀ pre x post s s', l = pre ++ x :: post → P pre s → f s x = .ok s' →
      P (pre ++ [x]) s') (start : P [] s) (run : l.foldlM f s = .ok t) : P l t := by
  have h := Ends.foldlM_inits (P := P)
    (fun pre x post s hl hs => .of_forall fun s' => keeps pre x post s s' hl hs) start
  rw [run] at h
  exact h.of_ok

theorem foldlM_invariant {P : σ → Prop}
    (keeps : ∀ s x s', x ∈ l → P s → f s x = .ok s' → P s')
    (start : P s) (run : l.foldlM f s = .ok t) : P t :=
  foldlM_inits (P := fun _ => P) (fun _ x _ s s' hl => keeps s x s' (by simp [hl])) start run

/-- A loop ends well if every step does. -/
theorem exists_foldlM
    (step : ∀ pre x post t, l = pre ++ x :: post → pre.foldlM f s = .ok t → ∃ t', f t x = .ok t') :
    ∃ t, l.foldlM f s = .ok t :=
  Ends.exists_ok (Ends.foldlM fun pre x post t hl ht => .of_exists (step pre x post t hl ht))

theorem exists_mapM {f : α → Except ε β} (h : ∀ x ∈ l, ∃ y, f x = .ok y) : ∃ ys, l.mapM f = .ok ys :=
  Ends.exists_ok (Ends.mapM fun x hx => .of_exists (h x hx))

/-- The same for a work list, with a fact about the items that wait. -/
theorem drain_invariant {P : σ → Prop} {I : σ → α → Prop}
    (keeps : ∀ {s x s' more}, P s → I s x → step s x = .ok (s', more) →
      P s' ∧ (∀ y ∈ more, I s' y) ∧ ∀ y, I s y → I s' y)
    (start : P s) (waiting : ∀ x ∈ items, I s x) (run : drain step bound s items = .ok t) : P t := by
  induction bound generalizing s items with
  | zero =>
    cases items <;> cases run <;> exact start
  | succ bound ih =>
    cases items with
    | nil => cases run; exact start
    | cons x rest =>
      rw [drain, bind_eq_ok] at run
      obtain ⟨⟨s', more⟩, hx, hrest⟩ := run
      obtain ⟨hP, hmore, hold⟩ := keeps start (waiting x List.mem_cons_self) hx
      refine ih hP ?_ hrest
      intro y hy
      rcases List.mem_append.mp hy with hy | hy
      · exact hmore y hy
      · exact hold y (waiting y (List.mem_cons_of_mem x hy))

/-- A work list is handled to its end if every step pays for the items that it brings up: each item has
a size, the state has a supply, and together they do not exceed the bound. -/
theorem drain_exhaust {P : σ → List α → Prop}
    (size : α → Nat) (supply : σ → Nat) (pos : ∀ x, 0 < size x)
    (keeps : ∀ {s x rest s' more}, P s (x :: rest) → step s x = .ok (s', more) →
      P s' (more ++ rest) ∧ (more.map size).sum + supply s' < size x + supply s)
    (start : P s items) (room : (items.map size).sum + supply s ≤ bound)
    (run : drain step bound s items = .ok t) : P t [] := by
  induction bound generalizing s items with
  | zero =>
    cases items with
    | nil => cases run; exact start
    | cons x rest =>
      have := pos x
      rw [List.map_cons, List.sum_cons] at room
      omega
  | succ bound ih =>
    cases items with
    | nil => cases run; exact start
    | cons x rest =>
      rw [drain, bind_eq_ok] at run
      obtain ⟨⟨s', more⟩, hx, hrest⟩ := run
      obtain ⟨hP, hpaid⟩ := keeps start hx
      refine ih hP ?_ hrest
      rw [List.map_cons, List.sum_cons] at room
      rw [List.map_append, List.sum_append]
      omega

/-- A work list comes to an end if every step does, in a state that the steps before it lead to. -/
theorem exists_drain {P : σ → List α → Prop}
    (next : ∀ {s x rest}, P s (x :: rest) → ∃ s' more, step s x = .ok (s', more) ∧ P s' (more ++ rest))
    (start : P s items) : ∃ t, drain step bound s items = .ok t := by
  induction bound generalizing s items with
  | zero => cases items <;> exact ⟨s, rfl⟩
  | succ bound ih =>
    cases items with
    | nil => exact ⟨s, rfl⟩
    | cons x rest =>
      rcases next start with ⟨s', more, hx, hnext⟩
      exact exists_bind hx (ih hnext)

end PldSynth.Attempt
