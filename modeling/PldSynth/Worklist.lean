/-!
# Work lists

A walk over linked records handles one item at a time; handling an item may bring up further items,
which come next, ahead of those that were already waiting. The bound on the number of items makes
the walk a recursion on a number; a caller gives a bound that its own items cannot exceed.
-/

namespace PldSynth

/-- Handles the items of a work list in turn, at most `bound` of them. -/
def drain {σ α ε : Type} (step : σ → α → Except ε (σ × List α)) :
    (bound : Nat) → σ → List α → Except ε σ
  | _, s, [] => .ok s
  | 0, s, _ :: _ => .ok s
  | bound + 1, s, x :: rest => do
    let (s, more) ← step s x
    drain step bound s (more ++ rest)

theorem drain_nil {σ α ε : Type} (step : σ → α → Except ε (σ × List α)) (bound : Nat) (s : σ) :
    drain step bound s [] = .ok s := by
  cases bound <;> rfl

end PldSynth
