/-!
# Dictionaries

A dictionary maps names to values and keeps them in the order of the names, by code points. There is
one dictionary for each set of entries, so two dictionaries with the same look-ups are equal
(`Dict.ext_get?`).
-/

namespace PldSynth

/-- A map from names to values, in the order of the names. -/
structure Dict (α : Type) where
  entries : List (String × α)
  sorted : entries.Pairwise fun a b => a.1 < b.1
  deriving DecidableEq, Repr

namespace Dict

variable {α : Type}

/-- The dictionary without entries. -/
def empty : Dict α := ⟨[], .nil⟩

instance : Inhabited (Dict α) := ⟨empty⟩

instance : EmptyCollection (Dict α) := ⟨empty⟩

/-- Puts an entry into a sorted list, in place of an entry of the same name. -/
def insertEntry (k : String) (v : α) : List (String × α) → List (String × α)
  | [] => [(k, v)]
  | (k', v') :: rest =>
    if k < k' then (k, v) :: (k', v') :: rest
    else if k = k' then (k, v) :: rest
    else (k', v') :: insertEntry k v rest

/-- An insertion adds its entry and nothing else. -/
theorem mem_insertEntry {k : String} {v : α} {l : List (String × α)} {e : String × α}
    (h : e ∈ insertEntry k v l) : e = (k, v) ∨ e ∈ l := by
  induction l with
  | nil => simpa [insertEntry] using h
  | cons x rest ih =>
    simp only [insertEntry] at h
    split at h
    · simpa using h
    · split at h
      · rcases List.mem_cons.mp h with h | h
        · exact .inl h
        · exact .inr (List.mem_cons_of_mem _ h)
      · rcases List.mem_cons.mp h with h | h
        · exact .inr (h ▸ List.mem_cons_self)
        · exact (ih h).imp id (List.mem_cons_of_mem _)

/-- A name that is neither smaller nor equal is greater. -/
theorem lt_of_not_lt_of_ne {a b : String} (h : ¬ a < b) (hne : a ≠ b) : b < a :=
  Decidable.byContradiction fun h' => hne (String.le_antisymm (String.not_lt.mp h') (String.not_lt.mp h))

/-- An insertion keeps the entries sorted. -/
theorem sorted_insertEntry (k : String) (v : α) {l : List (String × α)}
    (h : l.Pairwise fun a b => a.1 < b.1) : (insertEntry k v l).Pairwise fun a b => a.1 < b.1 := by
  induction l with
  | nil => exact List.pairwise_singleton _ _
  | cons x rest ih =>
    obtain ⟨hx, hrest⟩ := List.pairwise_cons.mp h
    simp only [insertEntry]
    split
    · rename_i hlt
      refine List.pairwise_cons.mpr ⟨fun e he => ?_, h⟩
      rcases List.mem_cons.mp he with rfl | he
      · exact hlt
      · exact String.lt_trans hlt (hx e he)
    · rename_i hlt
      split
      · rename_i heq
        subst heq
        exact List.pairwise_cons.mpr ⟨hx, hrest⟩
      · rename_i hne
        refine List.pairwise_cons.mpr ⟨fun e he => ?_, ih hrest⟩
        rcases mem_insertEntry he with rfl | he
        · exact lt_of_not_lt_of_ne hlt hne
        · exact hx e he

/-- Puts an entry into the dictionary, in place of an entry of the same name. -/
def insert (d : Dict α) (k : String) (v : α) : Dict α :=
  ⟨insertEntry k v d.entries, sorted_insertEntry k v d.sorted⟩

/-- The value of a name. -/
def get? (d : Dict α) (k : String) : Option α :=
  d.entries.lookup k

/-- How many entries there are. -/
def size (d : Dict α) : Nat :=
  d.entries.length

/-- Whether there is no entry. -/
def isEmpty (d : Dict α) : Bool :=
  d.entries.isEmpty

/-- Whether the name has an entry. -/
def contains (d : Dict α) (k : String) : Bool :=
  (d.get? k).isSome

/-- The dictionary of a list of entries, of which later ones replace earlier ones. -/
def ofList (l : List (String × α)) : Dict α :=
  l.foldl (fun d e => d.insert e.1 e.2) empty

/-- The entries of both; where both have a name, the second wins. -/
def union (d e : Dict α) : Dict α :=
  e.entries.foldl (fun d e => d.insert e.1 e.2) d

/-! ## Look-ups -/

theorem lookup_cons_eq (x : String × α) (l : List (String × α)) (k : String) :
    (x :: l).lookup k = if k = x.1 then some x.2 else l.lookup k := by
  obtain ⟨k1, v1⟩ := x
  by_cases h : k = k1
  · simp [h]
  · simp [List.lookup_cons, h, beq_eq_false_iff_ne.mpr h]

/-- An insertion changes what its own key leads to. -/
theorem lookup_insertEntry (k : String) (v : α) (l : List (String × α)) (k' : String) :
    (insertEntry k v l).lookup k' = if k' = k then some v else l.lookup k' := by
  induction l with
  | nil => simp [insertEntry, lookup_cons_eq]
  | cons x rest ih =>
    obtain ⟨k1, v1⟩ := x
    simp only [insertEntry]
    split
    · simp [lookup_cons_eq]
    · split
      · rename_i heq
        subst heq
        by_cases h : k' = k <;> simp [lookup_cons_eq, h]
      · rename_i hne
        by_cases h : k' = k1
        · have h' : k' ≠ k := fun e => hne (e.symm.trans h)
          simp [h, h ▸ h']
        · simp [lookup_cons_eq, h, ih]

@[simp] theorem get?_insert (d : Dict α) (k : String) (v : α) (k' : String) :
    (d.insert k v).get? k' = if k' = k then some v else d.get? k' :=
  lookup_insertEntry k v d.entries k'

@[simp] theorem get?_empty (k : String) : (empty : Dict α).get? k = none := rfl

/-- A name below every name of the list has no entry in it. -/
theorem lookup_eq_none_of_lt {l : List (String × α)} {k : String} (h : ∀ e ∈ l, k < e.1) :
    l.lookup k = none := by
  induction l with
  | nil => rfl
  | cons x rest ih =>
    have hne : k ≠ x.1 := fun e => String.lt_irrefl x.1 (e ▸ h x List.mem_cons_self)
    rw [lookup_cons_eq, if_neg hne]
    exact ih fun e he => h e (List.mem_cons_of_mem _ he)

/-- The first name of a sorted list has no entry in a sorted list that begins with a greater one. -/
theorem lookup_eq_none_of_head_lt {y : String × α} {m : List (String × α)} {k : String}
    (hm : (y :: m).Pairwise fun a b => a.1 < b.1) (h : k < y.1) : (y :: m).lookup k = none := by
  apply lookup_eq_none_of_lt
  intro e he
  rcases List.mem_cons.mp he with rfl | he
  · exact h
  · exact String.lt_trans h ((List.pairwise_cons.mp hm).1 e he)

/-- Sorted entries are determined by what the keys lead to. -/
theorem entries_eq_of_lookup_eq {l m : List (String × α)}
    (hl : l.Pairwise fun a b => a.1 < b.1) (hm : m.Pairwise fun a b => a.1 < b.1)
    (h : ∀ k, l.lookup k = m.lookup k) : l = m := by
  induction l generalizing m with
  | nil =>
    cases m with
    | nil => rfl
    | cons y m => simpa [lookup_cons_eq] using h y.1
  | cons x l ih =>
    cases m with
    | nil => simpa [lookup_cons_eq] using h x.1
    | cons y m =>
      have hkey : x.1 = y.1 := by
        apply Decidable.byContradiction
        intro hne
        by_cases hlt : x.1 < y.1
        · simpa [lookup_eq_none_of_head_lt hm hlt] using h x.1
        · simpa [lookup_eq_none_of_head_lt hl (lt_of_not_lt_of_ne hlt hne), lookup_cons_eq y]
            using h y.1
      obtain ⟨hx, hl⟩ := List.pairwise_cons.mp hl
      obtain ⟨hy, hm⟩ := List.pairwise_cons.mp hm
      have hval : x.2 = y.2 := by simpa [lookup_cons_eq, hkey] using h x.1
      have htail : l = m := by
        apply ih hl hm
        intro k
        by_cases hk : k = x.1
        · rw [hk, lookup_eq_none_of_lt hx, hkey, lookup_eq_none_of_lt hy]
        · simpa [lookup_cons_eq, hk, hkey ▸ hk] using h k
      rw [htail, Prod.ext hkey hval]

/-- Dictionaries with the same look-ups are equal. -/
theorem ext_get? {d e : Dict α} (h : ∀ k, d.get? k = e.get? k) : d = e := by
  obtain ⟨l, hl⟩ := d
  obtain ⟨m, hm⟩ := e
  have : l = m := entries_eq_of_lookup_eq hl hm h
  subst this
  rfl

end Dict

end PldSynth
