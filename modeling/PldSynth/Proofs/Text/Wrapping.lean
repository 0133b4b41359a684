import Mathlib.Data.List.Chain
import PldSynth.Proofs.Text.Words

/-!
# Wrapped text, line by line

Cut at its line ends, a wrapped text shows how its words were set: one blank between two words, an indent
before every line but the first, no line of several words over the width, and no line that would have had
room for the next word (`wrap_greedy`). A text that was set this way stays as it is.
-/

namespace PldSynth.Text

open List

variable {a b : List Char} {width : Nat} {line : List String} {w : String}

/-! ## Rows -/

/-- The pieces of a text between line ends, where a line end is a carriage return with a line feed. -/
def rowsOf : List Char → List (List Char)
  | [] => [[]]
  | '\r' :: '\n' :: cs => [] :: rowsOf cs
  | c :: cs =>
    match rowsOf cs with
    | [] => [[c]]
    | r :: rs => (c :: r) :: rs

/-- The lines of a text. -/
def rows (s : String) : List String :=
  (rowsOf s.toList).map String.ofList

/-- What stands before every line but the first. -/
def indent : String := "  "

theorem rowsOf_cons {c : Char} (hc : c ≠ '\r') {cs r : List Char} {rs : List (List Char)}
    (h : rowsOf cs = r :: rs) : rowsOf (c :: cs) = (c :: r) :: rs := by
  rw [rowsOf, h]
  rintro cs rfl -
  exact hc rfl

theorem rowsOf_of_not_mem (ha : '\r' ∉ a) : rowsOf a = [a] := by
  induction a with
  | nil => rfl
  | cons c a ih =>
    obtain ⟨hc, ha⟩ := not_or.mp (mem_cons.not.mp ha)
    exact rowsOf_cons (Ne.symm hc) (ih ha)

/-- A line ends at the first line end. -/
theorem rowsOf_append (ha : '\r' ∉ a) (b : List Char) :
    rowsOf (a ++ '\r' :: '\n' :: b) = a :: rowsOf b := by
  induction a with
  | nil => rfl
  | cons c a ih =>
    obtain ⟨hc, ha⟩ := not_or.mp (mem_cons.not.mp ha)
    exact rowsOf_cons (Ne.symm hc) (ih ha)

/-- A text of lines that hold no line end shows these lines, all but the first behind their indent. -/
theorem rows_intercalate {s : String} {ts : List String} (h : ∀ t ∈ s :: ts, '\r' ∉ t.toList) :
    rows (continuation.intercalate (s :: ts)) = s :: ts.map (indent ++ ·) := by
  induction ts generalizing s with
  | nil => simp [rows, String.intercalate_singleton, rowsOf_of_not_mem (h s mem_cons_self)]
  | cons t ts ih =>
    obtain ⟨hs, ht⟩ := forall_mem_cons.mp h
    obtain ⟨ht, hts⟩ := forall_mem_cons.mp ht
    -- the indent goes with the line behind the line end
    have hchars : (continuation.intercalate (s :: t :: ts)).toList =
        s.toList ++ '\r' :: '\n' :: (continuation.intercalate ((indent ++ t) :: ts)).toList := by
      simp [continuation, lineEnd, indent]
    have hrest : ∀ u ∈ (indent ++ t) :: ts, '\r' ∉ u.toList := by
      refine forall_mem_cons.mpr ⟨?_, hts⟩
      simpa [indent] using ht
    rw [rows, hchars, rowsOf_append hs, map_cons, String.ofList_toList, ← rows, ih hrest,
      map_cons]

/-! ## Lines of words -/

theorem utf8ByteSize_concat (hne : line ≠ []) (w : String) : (" ".intercalate (line ++ [w])).utf8ByteSize =
      (" ".intercalate line).utf8ByteSize + 1 + w.utf8ByteSize := by
  rw [String.intercalate_append_of_ne_nil hne (cons_ne_nil w []), String.utf8ByteSize_append, String.utf8ByteSize_append]
  rfl

/-- The line fits into the width, unless it is a single word. -/
def Fits (width : Nat) (line : List String) : Prop :=
  2 ≤ line.length → (" ".intercalate line).utf8ByteSize ≤ width

/-- The first word of `next` had no room on `line`. -/
def Full (width : Nat) (line next : List String) : Prop :=
  ∃ w ∈ next.head?, width < (" ".intercalate line).utf8ByteSize + 1 + w.utf8ByteSize

/-- The line that was begun goes on, and other lines come behind it. -/
theorem exists_fillFrom (width : Nat) (line : List String) (used : Nat) (ws : List String) :
    ∃ more rest, fillFrom width line used ws = (line ++ more) :: rest := by
  induction ws generalizing line used with
  | nil => exact ⟨[], [], by rw [fillFrom, append_nil]⟩
  | cons w ws ih =>
    rw [fillFrom]
    split
    · obtain ⟨more, rest, h⟩ := ih (line ++ [w]) (used + 1 + w.utf8ByteSize)
      exact ⟨w :: more, rest, by rw [h, append_assoc, singleton_append]⟩
    · exact ⟨[], _, by rw [append_nil]⟩

/-- What is set behind a line that fits: lines that fit, each of them full for the next one. -/
theorem fillFrom_spec {ws : List String} (hne : line ≠ []) (hfits : Fits width line) :
    let lines := fillFrom width line (" ".intercalate line).utf8ByteSize ws
    (∀ l ∈ lines, l ≠ [] ∧ Fits width l) ∧ lines.IsChain (Full width) := by
  induction ws generalizing line with
  | nil => simpa [fillFrom] using ⟨hne, hfits⟩
  | cons w ws ih =>
    rw [fillFrom]
    split
    · rw [← utf8ByteSize_concat hne]
      refine ih (by simp) fun _ => ?_
      rw [utf8ByteSize_concat hne]
      omega
    · have hsole : (" ".intercalate [w]).utf8ByteSize = w.utf8ByteSize := by
        rw [String.intercalate_singleton]
      -- a line of a single word fits, however long the word is
      obtain ⟨hlines, hchain⟩ := @ih [w] (cons_ne_nil w []) fun h => by simp at h
      rw [hsole] at hlines hchain
      obtain ⟨more, rest, hnext⟩ := exists_fillFrom width [w] w.utf8ByteSize ws
      refine ⟨forall_mem_cons.mpr ⟨⟨hne, hfits⟩, hlines⟩, ?_⟩
      rw [hnext] at hchain ⊢
      exact .cons_cons ⟨w, rfl, by omega⟩ hchain

theorem fill_spec (width : Nat) (ws : List String) :
    (∀ l ∈ fill width ws, l ≠ [] ∧ Fits width l) ∧ (fill width ws).IsChain (Full width) := by
  cases ws with
  | nil => exact ⟨nofun, .nil⟩
  | cons w ws =>
    have h := @fillFrom_spec width [w] ws (cons_ne_nil w []) fun h => by simp at h
    rwa [String.intercalate_singleton] at h

/-! ## Wrapped text -/

/-- A line of words begins with its first word. -/
theorem head?_line (hline : ∀ w ∈ line, IsWord w) (hne : line ≠ []) :
    (" ".intercalate line).toList.head?.any isBlank = false := by
  obtain ⟨w, ws, rfl⟩ := exists_cons_of_ne_nil hne
  obtain ⟨hw, hblank⟩ := hline w mem_cons_self
  obtain ⟨c, cs, hc⟩ := exists_cons_of_ne_nil hw
  have hfirst : (" ".intercalate (w :: ws)).toList.head? = some c := by
    cases ws with
    | nil => simp [String.intercalate_singleton, hc]
    | cons u us => simp [String.intercalate_cons_cons, hc]
  rw [hfirst, Option.any_some, hblank c (by simp [hc])]

/-- A line of words holds no line end, since neither the words nor the blanks between them do. -/
theorem not_mem_line (hline : ∀ w ∈ line, IsWord w) : '\r' ∉ (" ".intercalate line).toList := by
  have hword : ∀ w ∈ line, '\r' ∉ w.toList := by
    intro w hw hmem
    have hblank := (hline w hw).2 _ hmem
    revert hblank
    decide
  clear hline
  induction line with
  | nil => simp
  | cons w ws ih =>
    obtain ⟨hw, hws⟩ := forall_mem_cons.mp hword
    cases ws with
    | nil => simpa [String.intercalate_singleton] using hw
    | cons u us =>
      simpa [hw] using ih hws

theorem isWord_of_mem_fill {text : String} (hline : line ∈ fill width (words text)) :
    ∀ w ∈ line, IsWord w := by
  intro w hw
  apply isWord_of_mem_words
  rw [← flatten_fill width (words text)]
  exact mem_flatten.mpr ⟨line, hline, hw⟩

/-- The lines of a wrapped text are those that its words fill; a text without words is one empty
line. -/
theorem exists_rows_wrap (text : String) (width : Nat) :
    ∃ first later, rows (wrap text width) = first :: later.map (indent ++ ·) ∧
      (first = "" ∧ later = [] ∨
        first :: later = (fill width (words text)).map fun line => " ".intercalate line) := by
  cases hfill : fill width (words text) with
  | nil =>
    refine ⟨"", [], ?_, .inl ⟨rfl, rfl⟩⟩
    rw [wrap, hfill]
    rfl
  | cons l ls =>
    refine ⟨_, _, ?_, .inr rfl⟩
    rw [wrap, hfill]
    apply rows_intercalate
    intro t ht
    rw [← map_cons, mem_map] at ht
    obtain ⟨line, hline, rfl⟩ := ht
    exact not_mem_line (isWord_of_mem_fill (hfill.symm ▸ hline))

/-- Wrapping a text keeps its words and sets them greedily. Cut at its line ends, the wrapped text has an
indent of two blanks before every line but the first, and apart from it a line holds its words with one
blank between any two. A line of two or more words is at most as long as the width, the first word of
the next line would not have fitted, and wrapping the wrapped text again changes nothing. -/
theorem wrap_greedy (text : String) (width : Nat) :
    words (wrap text width) = words text ∧
    (∃ first later, rows (wrap text width) = first :: later.map (indent ++ ·) ∧
      (∀ line ∈ first :: later, line.toList.head?.any isBlank = false ∧
        line = " ".intercalate (words line) ∧
        (2 ≤ (words line).length → line.utf8ByteSize ≤ width)) ∧
      (first :: later).IsChain fun line next => ∃ w ∈ (words next).head?,
        width < line.utf8ByteSize + 1 + w.utf8ByteSize) ∧
    wrap (wrap text width) width = wrap text width := by
  refine ⟨words_wrap text width, ?_, by rw [wrap, words_wrap, ← wrap]⟩
  obtain ⟨first, later, hrows, ⟨rfl, rfl⟩ | hlines⟩ := exists_rows_wrap text width
  · exact ⟨"", [], hrows, forall_mem_singleton.mpr ⟨rfl, rfl, nofun⟩, .singleton ""⟩
  obtain ⟨hfits, hfull⟩ := fill_spec width (words text)
  have hwords : ∀ l ∈ fill width (words text), words (" ".intercalate l) = l := fun l hl =>
    words_line (isWord_of_mem_fill hl)
  refine ⟨first, later, hrows, fun line hline => ?_, ?_⟩
  · rw [hlines] at hline
    obtain ⟨l, hl, rfl⟩ := mem_map.mp hline
    obtain ⟨hne, hfit⟩ := hfits l hl
    rw [hwords l hl]
    exact ⟨head?_line (isWord_of_mem_fill hl) hne, rfl, hfit⟩
  · rw [hlines, isChain_map]
    refine hfull.imp_of_mem_imp fun l next _ hnext h => ?_
    rwa [hwords next hnext]

end PldSynth.Text
