/-!
# Cutting text at a character

Cutting a text at a separator gives one piece more than there are separators. The lines of a text are
its pieces at line feeds; a carriage return before a line feed belongs to the line end, and a line
feed at the very end starts no further line. The lines and their ends give the text back (`lined_iff`).
-/

namespace PldSynth.Text

/-- Puts one character in front of the pieces of the rest. -/
def prependPiece (separator c : Char) (pieces : List (List Char)) : List (List Char) :=
  if c = separator then [] :: pieces
  else
    match pieces with
    | [] => [[c]]
    | p :: ps => (c :: p) :: ps

/-- The pieces of a text between separators. -/
def pieces (separator : Char) (cs : List Char) : List (List Char) :=
  cs.foldr (prependPiece separator) [[]]

theorem pieces_ne_nil (separator : Char) (cs : List Char) : pieces separator cs ≠ [] := by
  cases cs with
  | nil => simp [pieces]
  | cons c cs =>
    simp only [pieces, List.foldr_cons, prependPiece]
    split
    · simp
    · split <;> simp

/-- A text without a separator is one piece. -/
theorem pieces_of_not_mem {separator : Char} {x : List Char} (h : separator ∉ x) :
    pieces separator x = [x] := by
  induction x with
  | nil => rfl
  | cons c x ih =>
    simp only [List.mem_cons, not_or] at h
    rw [pieces, List.foldr_cons, ← pieces, ih h.2, prependPiece, if_neg (Ne.symm h.1)]

/-- A separator cuts a text into the pieces in front of it and the pieces behind it. -/
theorem pieces_append (separator : Char) (l x : List Char) :
    pieces separator (l ++ separator :: x) = pieces separator l ++ pieces separator x := by
  induction l with
  | nil => simp [pieces, prependPiece]
  | cons c l ih =>
    have hcons : ∀ l, pieces separator (c :: l) = prependPiece separator c (pieces separator l) :=
      fun _ => rfl
    rw [List.cons_append, hcons, ih, hcons]
    cases hps : pieces separator l with
    | nil => exact absurd hps (pieces_ne_nil separator l)
    | cons p ps =>
      unfold prependPiece
      split <;> rfl

/-- The first piece ends at the first separator. -/
theorem pieces_append_of_not_mem {separator : Char} {l : List Char} (h : separator ∉ l) (x : List Char) :
    pieces separator (l ++ separator :: x) = l :: pieces separator x := by
  rw [pieces_append, pieces_of_not_mem h, List.singleton_append]

/-! ## Lines -/

/-- A line without the carriage return of its line end. -/
def dropReturn (line : List Char) : List Char :=
  match line.getLast? with
  | some '\r' => line.dropLast
  | _ => line

/-- The lines among the pieces of a text at line feeds. -/
def linesOfPieces : List (List Char) → List (List Char)
  | [] => []
  | [p] => if p.isEmpty then [] else [p]
  | p :: q :: ps => dropReturn p :: linesOfPieces (q :: ps)

/-- The lines of a text. -/
def linesOf (cs : List Char) : List (List Char) :=
  linesOfPieces (pieces '\n' cs)

/-- The text consists of the lines and their ends. A line ends with a line feed, which a carriage return
may precede, or with the text. -/
inductive Lined : List Char → List (List Char) → Prop
  | nil : Lined [] []
  | last {l : List Char} (ne : l ≠ []) (whole : '\n' ∉ l) : Lined l [l]
  | feed {l cs : List Char} {ls : List (List Char)} (whole : '\n' ∉ l) (plain : l.getLast? ≠ some '\r')
      (rest : Lined cs ls) : Lined (l ++ '\n' :: cs) (l :: ls)
  | returnFeed {l cs : List Char} {ls : List (List Char)} (whole : '\n' ∉ l) (rest : Lined cs ls) :
      Lined (l ++ '\r' :: '\n' :: cs) (l :: ls)

theorem linesOf_of_not_mem {l : List Char} (h : '\n' ∉ l) : linesOf l = if l.isEmpty then [] else [l] := by
  rw [linesOf, pieces_of_not_mem h, linesOfPieces]

theorem linesOf_append {l : List Char} (h : '\n' ∉ l) (cs : List Char) :
    linesOf (l ++ '\n' :: cs) = dropReturn l :: linesOf cs := by
  rw [linesOf, pieces_append_of_not_mem h, linesOf]
  cases hps : pieces '\n' cs with
  | nil => exact absurd hps (pieces_ne_nil _ _)
  | cons p ps => rw [linesOfPieces]

theorem dropReturn_eq_self {l : List Char} (h : l.getLast? ≠ some '\r') : dropReturn l = l := by
  unfold dropReturn
  split
  · exact absurd ‹_› h
  · rfl

theorem dropReturn_append_return (l : List Char) : dropReturn (l ++ ['\r']) = l := by
  simp [dropReturn]

/-- The lines of a text are the only ones that give the text back with their ends. -/
theorem lined_iff {cs : List Char} {ls : List (List Char)} : Lined cs ls ↔ linesOf cs = ls := by
  constructor
  · intro h
    induction h with
    | nil => rfl
    | last ne whole => rw [linesOf_of_not_mem whole, if_neg (by simpa using ne)]
    | feed whole plain _ ih => rw [linesOf_append whole, dropReturn_eq_self plain, ih]
    | @returnFeed l cs ls whole _ ih =>
      have hl : l ++ '\r' :: '\n' :: cs = (l ++ ['\r']) ++ '\n' :: cs := by simp
      rw [hl, linesOf_append (by simp [whole]), dropReturn_append_return, ih]
  · rintro rfl
    -- the text behind the first line feed is shorter
    induction hn : cs.length using Nat.strongRecOn generalizing cs with
    | _ n ih =>
      by_cases hfeed : '\n' ∈ cs
      · obtain ⟨l, rest, rfl, whole⟩ := List.eq_append_cons_of_mem hfeed
        have hrest : Lined rest (linesOf rest) := ih rest.length (by simp at hn; omega) rfl
        rw [linesOf_append whole]
        by_cases hret : l.getLast? = some '\r'
        · obtain ⟨l, rfl⟩ := List.getLast?_eq_some_iff.mp hret
          rw [dropReturn_append_return, List.append_assoc]
          exact .returnFeed (fun h => whole (List.mem_append_left _ h)) hrest
        · rw [dropReturn_eq_self hret]
          exact .feed whole hret hrest
      · rw [linesOf_of_not_mem hfeed]
        cases cs with
        | nil => exact .nil
        | cons c cs => exact .last (List.cons_ne_nil c cs) hfeed

end PldSynth.Text
