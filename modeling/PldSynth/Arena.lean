/-!
# Arenas

An arena stores records that refer to each other by index. A record is never removed, so an index
stays valid once it has been handed out, and indices show the order of allocation.

The view of an arena is `get?`. Each operation has one lemma about the index it touches and one
about every other index.
-/

namespace PldSynth

/-- Records by index, in allocation order. -/
structure Arena (α : Type) where
  items : Array α := #[]
  deriving Inhabited, DecidableEq, Repr

namespace Arena

variable {α : Type}

/-- How many records were allocated. -/
def size (a : Arena α) : Nat :=
  a.items.size

/-- The record behind an index, if the index was allocated. -/
def get? (a : Arena α) (i : Nat) : Option α :=
  a.items[i]?

/-- Stores a record behind the next free index. -/
def alloc (a : Arena α) (x : α) : Nat × Arena α :=
  (a.size, ⟨a.items.push x⟩)

/-- Changes the record behind an index; an index that was never allocated changes nothing. -/
def modify (a : Arena α) (i : Nat) (f : α → α) : Arena α :=
  ⟨a.items.modify i f⟩

/-- Every index with its record, in allocation order. -/
def entries (a : Arena α) : List (Nat × α) :=
  a.items.toList.zipIdx.map fun (x, i) => (i, x)

/-! ## The view after each operation -/

@[simp] theorem size_alloc (a : Arena α) (x : α) : (a.alloc x).2.size = a.size + 1 := by
  simp [alloc, size]

@[simp] theorem fst_alloc (a : Arena α) (x : α) : (a.alloc x).1 = a.size := rfl

@[simp] theorem get?_alloc_size (a : Arena α) (x : α) : (a.alloc x).2.get? a.size = some x := by
  simp [alloc, get?, size]

theorem get?_alloc_of_ne (a : Arena α) (x : α) {i : Nat} (h : i ≠ a.size) :
    (a.alloc x).2.get? i = a.get? i := by
  have h' : ¬ i = a.items.size := h
  simp [alloc, get?, Array.getElem?_push, h']

@[simp] theorem size_modify (a : Arena α) (i : Nat) (f : α → α) :
    (a.modify i f).size = a.size := by
  simp [modify, size]

@[simp] theorem get?_modify_self (a : Arena α) (i : Nat) (f : α → α) :
    (a.modify i f).get? i = (a.get? i).map f := by
  simp [modify, get?, Array.getElem?_modify]

theorem get?_modify_of_ne (a : Arena α) {i j : Nat} (f : α → α) (h : j ≠ i) :
    (a.modify i f).get? j = a.get? j := by
  have h' : ¬ i = j := fun e => h e.symm
  simp [modify, get?, Array.getElem?_modify, h']

theorem get?_isSome_iff (a : Arena α) (i : Nat) : (a.get? i).isSome ↔ i < a.size := by
  simp [get?, size]

end Arena

end PldSynth
