import PldSynth.Text.Wrap

/-!
# Words

Cutting a text into words distributes over the joints of the text that are blank
(`words_append_of_head`, `words_append_of_getLast`, `words_intercalate`). Wrapping a text only moves
its words to other lines, so that it can be undone by cutting it into words again (`words_wrap`).
-/

namespace PldSynth.Text

open List

variable {a b w : List Char} {c d : Char} {s t : String}

/-! ## Joints -/

theorem prependChar_of_isBlank (hc : isBlank c) (s : Bool × List (List Char)) :
    prependChar c s = (false, s.2) :=
  if_pos hc

theorem prependChar_true (hc : isBlank c = false) (w : List Char) (ws : List (List Char)) :
    prependChar c (true, w :: ws) = (true, (c :: w) :: ws) :=
  if_neg (by simp [hc])

theorem prependChar_false (hc : isBlank c = false) (ws : List (List Char)) :
    prependChar c (false, ws) = (true, [c] :: ws) :=
  if_neg (by simp [hc])

/-- The words of a text, with the flag that tells whether it begins with one. -/
def scan (cs : List Char) : Bool × List (List Char) :=
  cs.foldr prependChar (false, [])

/-- The flag is set only if there is a word. -/
theorem exists_word_of_scan {f : Bool} {ws : List (List Char)} (cs : List Char)
    (h : scan cs = (f, ws)) : f = false ∨ ∃ w us, ws = w :: us := by
  induction cs generalizing f ws with
  | nil =>
    cases h
    exact .inl rfl
  | cons c cs ih =>
    change prependChar c (scan cs) = _ at h
    cases hc : isBlank c with
    | true =>
      rw [prependChar_of_isBlank hc] at h
      cases h
      exact .inl rfl
    | false =>
      rcases hs : scan cs with ⟨f', ws'⟩
      rw [hs] at h
      rcases ih hs with rfl | ⟨w, us, rfl⟩
      · rw [prependChar_false hc] at h
        cases h
        exact .inr ⟨[c], ws', rfl⟩
      · -- the flag says whether the word goes on
        cases f' with
        | false =>
          rw [prependChar_false hc] at h
          cases h
          exact .inr ⟨[c], w :: us, rfl⟩
        | true =>
          rw [prependChar_true hc] at h
          cases h
          exact .inr ⟨c :: w, us, rfl⟩

/-- The words of a text that begins with `c`: a blank adds nothing, another character begins a word or
goes before the first one. -/
theorem scan_cons_cases (c : Char) (cs : List Char) : (isBlank c ∧ scan (c :: cs) = (false, (scan cs).2)) ∨
      isBlank c = false ∧
        ((∃ ws, scan cs = (false, ws) ∧ scan (c :: cs) = (true, [c] :: ws)) ∨
          ∃ w ws, scan cs = (true, w :: ws) ∧ scan (c :: cs) = (true, (c :: w) :: ws)) := by
  change _ ∨ _ ∧ ((∃ ws, _ ∧ prependChar c (scan cs) = _) ∨ _)
  cases hc : isBlank c with
  | true => exact .inl ⟨rfl, prependChar_of_isBlank hc _⟩
  | false =>
    refine .inr ⟨rfl, ?_⟩
    rcases hs : scan cs with ⟨f, ws⟩
    cases f with
    | false => exact .inl ⟨ws, rfl, prependChar_false hc ws⟩
    | true =>
      rcases exists_word_of_scan cs hs with hf | ⟨w, us, rfl⟩
      · cases hf
      · refine .inr ⟨w, us, rfl, ?_⟩
        change prependChar c (scan cs) = _
        rw [hs, prependChar_true hc]

/-- Behind a blank, words that follow are kept apart. -/
theorem foldr_prependChar (cs : List Char) (us : List (List Char)) :
    cs.foldr prependChar (false, us) = ((scan cs).1, (scan cs).2 ++ us) := by
  induction cs with
  | nil => rfl
  | cons c cs ih =>
    rw [foldr_cons, ih]
    rcases scan_cons_cases c cs with ⟨hc, heq⟩ | ⟨hc, ⟨ws, hs, heq⟩ | ⟨w, ws, hs, heq⟩⟩
    · rw [heq, prependChar_of_isBlank hc]
    · rw [heq, hs, prependChar_false hc]
      rfl
    · rw [heq, hs]
      exact prependChar_true hc w (ws ++ us)

/-- A text can be cut at a blank. -/
theorem wordsOf_append_cons (hc : isBlank c) (a b : List Char) :
    wordsOf (a ++ c :: b) = wordsOf a ++ wordsOf b := by
  rw [wordsOf, foldr_append, foldr_cons, prependChar_of_isBlank hc, foldr_prependChar]
  rfl

theorem wordsOf_append_of_head (hb : b.head?.any isBlank) : wordsOf (a ++ b) = wordsOf a ++ wordsOf b := by
  cases b with
  | nil => cases hb
  | cons c b =>
    have hc : isBlank c := by simpa using hb
    rw [wordsOf_append_cons hc]
    congr 1
    exact (wordsOf_append_cons hc [] b).symm

theorem wordsOf_append_of_getLast (ha : a.getLast?.any isBlank) :
    wordsOf (a ++ b) = wordsOf a ++ wordsOf b := by
  rcases eq_nil_or_concat a with rfl | ⟨a, c, rfl⟩
  · cases ha
  · rw [concat_eq_append] at ha ⊢
    have hc : isBlank c := by simpa using ha
    rw [append_assoc, singleton_append, wordsOf_append_cons hc, wordsOf_append_cons hc]
    simp [wordsOf]

theorem words_append_of_head (ht : t.toList.head?.any isBlank) (s : String) :
    words (s ++ t) = words s ++ words t := by
  rw [words, String.toList_append, wordsOf_append_of_head ht, map_append]
  rfl

theorem words_append_of_getLast (hs : s.toList.getLast?.any isBlank) (t : String) :
    words (s ++ t) = words s ++ words t := by
  rw [words, String.toList_append, wordsOf_append_of_getLast hs, map_append]
  rfl

/-- The words of texts that are joined with blanks at both ends of the joint. -/
theorem words_intercalate (hhead : s.toList.head?.any isBlank) (hlast : s.toList.getLast?.any isBlank)
    (ts : List String) : words (s.intercalate ts) = (words s).intercalate (ts.map words) := by
  induction ts with
  | nil => rfl
  | cons t ts ih =>
    cases ts with
    | nil => simp [String.intercalate_singleton]
    | cons u ts =>
      have hjoint : (s ++ s.intercalate (u :: ts)).toList.head?.any isBlank := by
        cases hs : s.toList with
        | nil => simp [hs] at hhead
        | cons c cs => simpa [hs] using hhead
      rw [String.intercalate_cons_cons, String.append_assoc, words_append_of_head hjoint,
        words_append_of_getLast hlast, ih, map_cons, map_cons, map_cons,
        intercalate_cons_cons, append_assoc]

/-! ## Words without blanks -/

/-- A text that is one word. -/
def IsWord (s : String) : Prop :=
  s.toList ≠ [] ∧ ∀ c ∈ s.toList, isBlank c = false

theorem scan_of_not_isBlank (hne : w ≠ []) (hw : ∀ c ∈ w, isBlank c = false) : scan w = (true, [w]) := by
  induction w with
  | nil => exact absurd rfl hne
  | cons c w ih =>
    obtain ⟨hc, hw⟩ := forall_mem_cons.mp hw
    change prependChar c (scan w) = _
    cases w with
    | nil => exact prependChar_false hc []
    | cons d w => rw [ih (cons_ne_nil d w) hw, prependChar_true hc]

theorem IsWord.words_eq (hs : IsWord s) : words s = [s] := by
  change (scan s.toList).2.map String.ofList = [s]
  rw [scan_of_not_isBlank hs.1 hs.2, map_singleton, String.ofList_toList]

/-- The words of a text are not empty and have no blank in them. -/
theorem scan_spec (cs : List Char) : ∀ w ∈ (scan cs).2, w ≠ [] ∧ ∀ c ∈ w, isBlank c = false := by
  induction cs with
  | nil => nofun
  | cons c cs ih =>
    rcases scan_cons_cases c cs with ⟨-, heq⟩ | ⟨hc, ⟨ws, hs, heq⟩ | ⟨w, ws, hs, heq⟩⟩
    · rw [heq]
      exact ih
    · rw [hs] at ih
      rw [heq]
      refine forall_mem_cons.mpr ⟨⟨cons_ne_nil c [], ?_⟩, ih⟩
      simpa using hc
    · rw [hs] at ih
      obtain ⟨hw, hws⟩ := forall_mem_cons.mp ih
      rw [heq]
      exact forall_mem_cons.mpr
        ⟨⟨cons_ne_nil c w, forall_mem_cons.mpr ⟨hc, hw.2⟩⟩, hws⟩

theorem isWord_of_mem_words (hs : s ∈ words t) : IsWord s := by
  obtain ⟨w, hw, rfl⟩ := mem_map.mp hs
  rw [IsWord, String.toList_ofList]
  exact scan_spec _ w hw

/-! ## Wrapped text -/

theorem flatten_fillFrom (width : Nat) (line : List String) (used : Nat) (ws : List String) :
    (fillFrom width line used ws).flatten = line ++ ws := by
  induction ws generalizing line used with
  | nil => simp [fillFrom]
  | cons w ws ih =>
    rw [fillFrom]
    split
    · rw [ih, append_assoc, singleton_append]
    · rw [flatten_cons, ih, singleton_append]

theorem flatten_fill (width : Nat) (ws : List String) : (fill width ws).flatten = ws := by
  cases ws with
  | nil => rfl
  | cons w ws => exact flatten_fillFrom width [w] w.utf8ByteSize ws

/-- Joining lists with nothing between them puts them one after the other. -/
theorem intercalate_nil {α : Type} (ls : List (List α)) : List.intercalate [] ls = ls.flatten := by
  induction ls with
  | nil => rfl
  | cons l ls ih =>
    cases ls with
    | nil => simp
    | cons l' ls => rw [intercalate_cons_cons, ih, append_nil, ← flatten_cons]

/-- A line shows its words. -/
theorem words_line {line : List String} (h : ∀ w ∈ line, IsWord w) :
    words (" ".intercalate line) = line := by
  have hmap : line.map words = line.map fun w => [w] := map_congr_left fun w hw => (h w hw).words_eq
  rw [words_intercalate rfl rfl, hmap]
  change List.intercalate [] _ = _
  rw [intercalate_nil, ← flatMap_def, flatMap_singleton']

/-- Wrapping a text keeps its words. -/
theorem words_wrap (t : String) (width : Nat) : words (wrap t width) = words t := by
  have hword : ∀ line ∈ fill width (words t), ∀ w ∈ line, IsWord w := by
    intro line hline w hw
    apply isWord_of_mem_words
    rw [← flatten_fill width (words t)]
    exact mem_flatten.mpr ⟨line, hline, hw⟩
  have hmap : ((fill width (words t)).map fun line => " ".intercalate line).map words =
      fill width (words t) := by
    rw [map_map]
    exact (map_congr_left fun line hline => words_line (hword line hline)).trans (map_id _)
  refine (words_intercalate rfl rfl _).trans ?_
  rw [hmap]
  change List.intercalate [] _ = _
  rw [intercalate_nil, flatten_fill]

/-! ## The end of a text -/

/-- A character behind a word belongs to that word. -/
theorem scan_concat (hlast : a.getLast?.any (fun c => !isBlank c)) (hc : isBlank c = false) :
    ∃ f ws w, scan a = (f, ws ++ [w]) ∧ scan (a ++ [c]) = (f, ws ++ [w ++ [c]]) := by
  induction a with
  | nil => cases hlast
  | cons d a ih =>
    change ∃ f ws w, prependChar d (scan a) = _ ∧ prependChar d (scan (a ++ [c])) = _
    cases a with
    | nil =>
      have hd : isBlank d = false := by simpa using hlast
      have hsc : scan ([] ++ [c]) = (true, [[c]]) := prependChar_false hc []
      refine ⟨true, [], [d], prependChar_false hd [], ?_⟩
      rw [hsc, prependChar_true hd]
      rfl
    | cons d' a =>
      obtain ⟨f, ws, w, hs, hs'⟩ := ih (by simpa using hlast)
      rw [hs, hs']
      cases hd : isBlank d with
      | true => exact ⟨false, ws, w, prependChar_of_isBlank hd _, prependChar_of_isBlank hd _⟩
      | false =>
        cases f with
        | false => exact ⟨true, [d] :: ws, w, prependChar_false hd _, prependChar_false hd _⟩
        | true =>
          cases ws with
          | nil => exact ⟨true, [], d :: w, prependChar_true hd w [], prependChar_true hd _ []⟩
          | cons u ws => exact ⟨true, (d :: u) :: ws, w, prependChar_true hd u _, prependChar_true hd u _⟩

/-- The word without the semicolon at its end. -/
def dropSemicolon? (w : String) : Option String :=
  match w.toList.reverse with
  | ';' :: cs => some (String.ofList cs.reverse)
  | _ => none

/-- The words with the semicolon at the end of the last one taken off. -/
def unterminated? : List String → Option (List String)
  | [] => none
  | [w] => (dropSemicolon? w).map fun w => [w]
  | w :: ws => (unterminated? ws).map (w :: ·)

theorem dropSemicolon?_append (w : String) : dropSemicolon? (w ++ ";") = some w := by
  simp [dropSemicolon?]

theorem unterminated?_concat (ws : List String) (w : String) :
    unterminated? (ws ++ [w ++ ";"]) = some (ws ++ [w]) := by
  induction ws with
  | nil => simp [unterminated?, dropSemicolon?_append]
  | cons u ws ih =>
    obtain ⟨v, vs, hv⟩ : ∃ v vs, ws ++ [w ++ ";"] = v :: vs := by
      cases ws <;> simp
    rw [cons_append, hv, unterminated?, ← hv, ih]
    · rfl
    · simp

/-- The semicolon behind a text can be taken off its words. -/
theorem unterminated?_words (hlast : s.toList.getLast?.any (fun c => !isBlank c)) :
    unterminated? (words (s ++ ";")) = some (words s) := by
  obtain ⟨f, ws, w, hs, hs'⟩ := scan_concat hlast (c := ';') (by decide)
  have hwords : words s = ws.map String.ofList ++ [String.ofList w] := by
    change (scan s.toList).2.map String.ofList = _
    rw [hs, map_append, map_singleton]
  have hwords' : words (s ++ ";") = ws.map String.ofList ++ [String.ofList w ++ ";"] := by
    have hchars : (s ++ ";").toList = s.toList ++ [';'] := String.toList_append
    change (scan (s ++ ";").toList).2.map String.ofList = _
    rw [hchars, hs', map_append, map_singleton, String.ofList_append]
  rw [hwords', hwords, unterminated?_concat]

end PldSynth.Text
