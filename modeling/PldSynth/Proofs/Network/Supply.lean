import Mathlib.Algebra.BigOperators.Group.Finset.Basic
import PldSynth.Network.Sharing
import PldSynth.Proofs.Network.Views

/-!
# How long a walk can take

A walk over the nodes of a network enters every node once and brings up at most the connections of the
node. What is left to bring up is a sum over the nodes that were not entered yet (`NodeSet.supply`). It
is all the connections at the start, and it shrinks with each node by what the node brings up.
-/

namespace PldSynth

namespace NodeSet

variable {s : NodeSet} {m n : NodeId} {w : NodeId → Nat}

/-- The sum of `w` over the handles that are still missing. -/
def supply (s : NodeSet) (w : NodeId → Nat) : Nat :=
  ∑ i ∈ Finset.range s.flags.size, if s.isNew ⟨i⟩ then w ⟨i⟩ else 0

theorem isNew_insert_of_ne (h : m ≠ n) : (s.insert n).isNew m = s.isNew m := by
  have h' : ¬ n.index = m.index := fun e => h (Network.NodeId.ext_index.mpr e.symm)
  simp [insert, isNew, h']

theorem isNew_insert {s : NodeSet} {m : NodeId} (n : NodeId) (h : s.isNew m = false) :
    (s.insert n).isNew m = false := by
  by_cases hmn : n.index = m.index
  · by_cases hm : m.index < s.flags.size <;> simp [isNew, insert, hmn, hm]
  · simpa [isNew, insert, hmn] using h

theorem isNew_insert_self {s : NodeSet} (n : NodeId) : (s.insert n).isNew n = false := by
  by_cases hn : n.index < s.flags.size <;> simp [isNew, insert, hn]

theorem isNew_empty {size : Nat} : (empty size).isNew n = decide (n.index < size) := by
  by_cases h : n.index < size <;> simp [empty, isNew, h]

theorem lt_size_of_isNew (h : s.isNew n) : n.index < s.flags.size := by
  by_contra hlt
  simp [isNew, Array.getElem?_eq_none (Nat.le_of_not_lt hlt)] at h

/-- Entering a node uses up its share. -/
theorem supply_insert (h : s.isNew n) : (s.insert n).supply w + w n = s.supply w := by
  have hmem : n.index ∈ Finset.range s.flags.size := Finset.mem_range.mpr (lt_size_of_isNew h)
  have hrest : ∑ i ∈ (Finset.range s.flags.size).erase n.index,
        (if (s.insert n).isNew ⟨i⟩ then w ⟨i⟩ else 0) =
      ∑ i ∈ (Finset.range s.flags.size).erase n.index, if s.isNew ⟨i⟩ then w ⟨i⟩ else 0 := by
    refine Finset.sum_congr rfl fun i hi => ?_
    have hne : (⟨i⟩ : NodeId) ≠ n := fun e => (Finset.mem_erase.mp hi).1 (Network.NodeId.ext_index.mp e)
    rw [isNew_insert_of_ne hne]
  have hold := Finset.add_sum_erase _ (fun i => if s.isNew ⟨i⟩ then w ⟨i⟩ else 0) hmem
  have hnew := Finset.add_sum_erase _ (fun i => if (s.insert n).isNew ⟨i⟩ then w ⟨i⟩ else 0) hmem
  simp only [h, if_true, isNew_insert_self, Bool.false_eq_true, if_false, zero_add] at hold hnew
  rw [supply, supply, size_insert, ← hold, ← hnew, hrest, Nat.add_comm]

end NodeSet

namespace Network

variable {g : Network}

theorem sum_range_getElem? {α β : Type} (f : α → List β) (l : List α) :
    ∑ i ∈ Finset.range l.length, (((l[i]?).map f).getD []).length = (l.flatMap f).length := by
  induction l with
  | nil => rfl
  | cons x l ih =>
    rw [List.length_cons, Finset.sum_range_succ', List.flatMap_cons, List.length_append, ← ih,
      Nat.add_comm]
    simp

/-- At the start all connections are left. -/
theorem supply_empty : (NodeSet.empty g.nodes.size).supply (fun n => (g.connsOf n).length) =
    g.listedConns := by
  have hsize : (NodeSet.empty g.nodes.size).flags.size = g.nodes.items.toList.length := by
    simp [NodeSet.empty, Arena.size]
  rw [NodeSet.supply, listedConns, hsize, ← sum_range_getElem?]
  refine Finset.sum_congr rfl fun i hi => ?_
  have hlt : i < g.nodes.size := by simpa [Arena.size] using hi
  rw [NodeSet.isNew_empty, if_pos (decide_eq_true hlt), connsOf_def]
  have hget : g.node? ⟨i⟩ = g.nodes.items.toList[i]? := by simp [node?, Arena.get?]
  rw [hget]

end Network

end PldSynth
