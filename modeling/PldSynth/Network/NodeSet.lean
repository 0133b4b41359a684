import PldSynth.Network.Basic

/-!
# Sets of nodes

A set of node handles below a fixed size, for walks that visit every node once. The number of
handles that are still missing, `room`, shrinks with every new handle, so it bounds such a walk.
-/

namespace PldSynth

/-- A set of node handles below a fixed size. -/
structure NodeSet where
  flags : Array Bool
  deriving DecidableEq, Repr, Inhabited

namespace NodeSet

/-- The empty set of handles below `size`. -/
def empty (size : Nat) : NodeSet :=
  ⟨Array.replicate size false⟩

/-- Whether the handle is in the set. -/
def contains (s : NodeSet) (n : NodeId) : Bool :=
  s.flags[n.index]? == some true

/-- Whether the handle could be in the set and is not. -/
def isNew (s : NodeSet) (n : NodeId) : Bool :=
  s.flags[n.index]? == some false

/-- Puts a handle into the set. -/
def insert (s : NodeSet) (n : NodeId) : NodeSet :=
  ⟨s.flags.setIfInBounds n.index true⟩

/-- Puts several handles into the set. -/
def insertAll (s : NodeSet) (ns : List NodeId) : NodeSet :=
  ns.foldl insert s

/-- How many handles are still missing. -/
def room (s : NodeSet) : Nat :=
  s.flags.count false

/-- The members in the order of their handles. -/
def toList (s : NodeSet) : List NodeId :=
  ((List.range s.flags.size).map NodeId.mk).filter s.contains

theorem contains_insert_of_ne (s : NodeSet) {m n : NodeId} (h : m ≠ n) :
    (s.insert n).contains m = s.contains m := by
  have h' : ¬ n.index = m.index := by
    intro e; cases n; simp_all
  simp [insert, contains, h']

theorem contains_insert_self (s : NodeSet) {n : NodeId} (h : n.index < s.flags.size) :
    (s.insert n).contains n = true := by
  simp [insert, contains, h]

theorem size_insert (s : NodeSet) (n : NodeId) : (s.insert n).flags.size = s.flags.size := by
  simp [insert]

/-- A new handle takes up room. -/
theorem room_insert_lt {s : NodeSet} {n : NodeId} (h : s.isNew n = true) :
    (s.insert n).room < s.room := by
  have hs : s.flags[n.index]? = some false := by simpa [isNew] using h
  obtain ⟨hi, hv⟩ := Array.getElem?_eq_some_iff.mp hs
  have hpos : 0 < s.flags.count false := by
    rw [Array.count_pos_iff, ← hv]
    exact Array.getElem_mem hi
  have hcount : (s.flags.set n.index true hi).count false = s.flags.count false - 1 := by
    rw [Array.count_set, hv]
    rfl
  rw [room, insert, Array.setIfInBounds, dif_pos hi, hcount]
  exact Nat.sub_lt hpos Nat.one_pos

end NodeSet

/-- The handles that `next` leads to from the handles in `todo`, on top of those already in
`seen`. -/
def reach (next : NodeId → List NodeId) (seen : NodeSet) (todo : List NodeId) : NodeSet :=
  match _h : todo.dropWhile fun n => !seen.isNew n with
  | [] => seen
  | v :: rest => reach next (seen.insert v) (next v ++ rest)
termination_by seen.room
decreasing_by
  apply NodeSet.room_insert_lt
  have hh := List.head?_dropWhile_not (fun n => !seen.isNew n) todo
  simpa [_h] using hh

end PldSynth
