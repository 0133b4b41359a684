/-!
# Name numbering

Numbers names in the order in which they are first seen. A name keeps its number, and a number
leads back to its name.
-/

namespace PldSynth

/-- Names in first-seen order; the number of a name is its position. -/
structure NameTable where
  names : Array String := #[]
  deriving Inhabited, DecidableEq, Repr

namespace NameTable

/-- How many different names were numbered. -/
def size (t : NameTable) : Nat :=
  t.names.size

/-- Whether no name was numbered yet. -/
def isEmpty (t : NameTable) : Bool :=
  t.names.isEmpty

/-- The number of a name that was seen before. -/
def find? (t : NameTable) (name : String) : Option Nat :=
  t.names.findIdx? (· == name)

/-- The name behind a number. -/
def name? (t : NameTable) (number : Nat) : Option String :=
  t.names[number]?

/-- The number of a name, a new one if the name was not seen before. -/
def number (t : NameTable) (name : String) : Nat × NameTable :=
  match t.find? name with
  | some i => (i, t)
  | none => (t.size, ⟨t.names.push name⟩)

/-- The number handed out for a name leads back to that name. -/
theorem name?_number (t : NameTable) (name : String) :
    (t.number name).2.name? (t.number name).1 = some name := by
  unfold number
  split
  · rename_i i h
    obtain ⟨hi, hp, _⟩ := Array.findIdx?_eq_some_iff_getElem.mp h
    simp only [beq_iff_eq] at hp
    simp [name?, hi, hp]
  · simp [name?, size]

/-- Numbering a name never changes the name behind an older number. -/
theorem name?_number_of_lt (t : NameTable) (name : String) {i : Nat} (h : i < t.size) :
    (t.number name).2.name? i = t.name? i := by
  unfold number
  split
  · rfl
  · have h' : ¬ i = t.names.size := Nat.ne_of_lt h
    simp [name?, Array.getElem?_push, h']

end NameTable

end PldSynth
