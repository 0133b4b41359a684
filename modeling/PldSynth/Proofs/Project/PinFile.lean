import Mathlib.Data.List.Basic
import Mathlib.Data.List.Perm.Basic
import Mathlib.Data.List.TakeWhile
import PldSynth.Proofs.Attempt
import PldSynth.Project.PinFile

/-!
# What a pin file says

A line of a pin file enters a number under a name (`Enters`), or it says nothing. A file is accepted if
every text entered is a number and no name is entered twice (`Acceptable`); its table then holds the
entries of its lines and no others (`Holds`). Any other file is refused because of the first line that
does not go with the lines before it (`Refused`). Nothing but the error depends on the order of the lines
(`parse_exact`).
-/

namespace PldSynth.PinFile

open List Text

variable {line line' first second rest name bit base digits number number' : List Char}
  {lines before after : List (List Char)} {signal signal' : String} {t : PinTable} {n k : Nat}
  {e e' : ProjectError} {lines' : List (List Char)}

/-! ## Names of port bits -/

/-- The name is that of a bus member: `base` with an index in brackets. -/
structure IsMember (name base digits : List Char) : Prop where
  name_eq : name = base ++ '[' :: (digits ++ [']'])
  base_ne_nil : base ≠ []
  not_mem_base : '[' ∉ base
  digits_ne_nil : digits ≠ []
  isDigit : ∀ c ∈ digits, c.isDigit = true

/-- A bus member goes by its base and its index, any other name stays as it is. -/
inductive PortBit (name : List Char) : List Char → Prop
  | member {base digits : List Char} (h : IsMember name base digits) : PortBit name (base ++ digits)
  | plain (h : ∀ base digits, ¬ IsMember name base digits) : PortBit name name

/-- The base ends at the first bracket, and the index is what follows. -/
theorem portBitName_bracket {index : List Char} (h : '[' ∉ base) : portBitName (base ++ '[' :: index) =
    if !base.isEmpty && index.getLast? = some ']' && !index.dropLast.isEmpty &&
      index.dropLast.all Char.isDigit then base ++ index.dropLast else base ++ '[' :: index := by
  have hbase : ∀ c ∈ base, decide (c ≠ '[') = true := fun c hc =>
    decide_eq_true fun heq => h (heq ▸ hc)
  have htake : (base ++ '[' :: index).takeWhile (· ≠ '[') = base := by
    rw [takeWhile_append_of_pos hbase]
    simp
  have hdrop : ((base ++ '[' :: index).dropWhile (· ≠ '[')).drop 1 = index := by
    rw [dropWhile_append_of_pos hbase]
    simp
  simp only [portBitName, htake, hdrop]

theorem portBitName_of_isMember (h : IsMember name base digits) : portBitName name = base ++ digits := by
  have hall : digits.all Char.isDigit := all_eq_true.mpr h.isDigit
  rw [h.name_eq, portBitName_bracket h.not_mem_base, dropLast_concat]
  exact if_pos (by simp [h.base_ne_nil, h.digits_ne_nil, hall])

theorem portBitName_of_not_mem (h : '[' ∉ name) : portBitName name = name := by
  have hdrop : name.dropWhile (· ≠ '[') = [] := by
    rw [dropWhile_eq_nil_iff]
    exact fun c hc => decide_eq_true fun heq => h (heq ▸ hc)
  simp only [portBitName, hdrop]
  exact if_neg (by simp)

/-- A name changes only if it is that of a bus member. -/
theorem isMember_of_portBitName_ne (h : portBitName name ≠ name) :
    ∃ base digits, IsMember name base digits := by
  by_cases hmem : '[' ∈ name
  · obtain ⟨base, index, rfl, hbase⟩ := eq_append_cons_of_mem hmem
    rw [portBitName_bracket hbase] at h
    split at h
    · rename_i hcond
      simp only [Bool.and_eq_true, Bool.not_eq_true', isEmpty_eq_false_iff, decide_eq_true_eq,
        all_eq_true] at hcond
      obtain ⟨⟨⟨hne, hlast⟩, hdigits⟩, hall⟩ := hcond
      obtain ⟨digits, rfl⟩ := getLast?_eq_some_iff.mp hlast
      rw [dropLast_concat] at hdigits hall
      exact ⟨base, digits, rfl, hne, hbase, hdigits, hall⟩
    · exact absurd rfl h
  · exact absurd (portBitName_of_not_mem hmem) h

/-- The name of a port bit, as it is worked out. -/
theorem portBit_iff : PortBit name bit ↔ portBitName name = bit := by
  have hplain : (∀ base digits, ¬ IsMember name base digits) → portBitName name = name := by
    intro h
    by_contra hne
    obtain ⟨base, digits, hm⟩ := isMember_of_portBitName_ne hne
    exact h base digits hm
  constructor
  · rintro (h | h)
    · exact portBitName_of_isMember h
    · exact hplain h
  · rintro rfl
    by_cases h : ∃ base digits, IsMember name base digits
    · obtain ⟨base, digits, h⟩ := h
      rw [portBitName_of_isMember h]
      exact .member h
    · have h' : ∀ base digits, ¬ IsMember name base digits := fun base digits hm => h ⟨base, digits, hm⟩
      rw [hplain h']
      exact .plain h'

/-! ## Numbers -/

/-- The text is the number `n`, written in decimal digits, and fits in 32 bits. -/
structure Denotes (number : List Char) (n : Nat) : Prop where
  isDigit : ∀ c ∈ number, c.isDigit = true
  value : digitsValue number = n
  bounded : n < 2 ^ 32

/-- The first two fields of a line: each ends at a colon, or the second with the line. -/
structure Fields (line first second : List Char) : Prop where
  line_eq : ∃ rest, line = first ++ ':' :: (second ++ rest) ∧ ∀ c ∈ rest.head?, c = ':'
  first_whole : ':' ∉ first
  second_whole : ':' ∉ second

/-- The first two fields, as the line is cut into pieces. -/
theorem fields_iff : Fields line first second ↔ ∃ more, pieces ':' line = first :: second :: more := by
  constructor
  · rintro ⟨⟨rest, rfl, hrest⟩, hfirst, hsecond⟩
    rw [pieces_append_of_not_mem hfirst]
    cases rest with
    | nil => exact ⟨[], by rw [append_nil, pieces_of_not_mem hsecond]⟩
    | cons c rest =>
      obtain rfl : c = ':' := hrest c rfl
      exact ⟨pieces ':' rest, by rw [pieces_append_of_not_mem hsecond]⟩
  · rintro ⟨more, h⟩
    by_cases hline : ':' ∈ line
    · obtain ⟨p, tail, rfl, hp⟩ := eq_append_cons_of_mem hline
      rw [pieces_append_of_not_mem hp] at h
      obtain ⟨rfl, hrest⟩ := List.cons.inj h
      by_cases htail : ':' ∈ tail
      · obtain ⟨q, rest, rfl, hq⟩ := eq_append_cons_of_mem htail
        rw [pieces_append_of_not_mem hq] at hrest
        obtain ⟨rfl, -⟩ := List.cons.inj hrest
        exact ⟨⟨':' :: rest, rfl, by simp⟩, hp, hq⟩
      · rw [pieces_of_not_mem htail] at hrest
        obtain ⟨rfl, -⟩ := List.cons.inj hrest
        exact ⟨⟨[], by simp, by simp⟩, hp, htail⟩
    · simp [pieces_of_not_mem hline] at h

/-! ## Entries -/

/-- The line enters a number under the name of a signal: its first field is a name, and its second one
begins like a number. -/
inductive Enters (line : List Char) : String → List Char → Prop
  | intro {first second bit : List Char} (fields : Fields line first second)
      (named : trimChars first ≠ []) (numbered : ∃ c ∈ (trimChars second).head?, c.isDigit = true)
      (port : PortBit (trimChars first) bit) : Enters line (String.ofList bit) (trimChars second)

/-- What a line enters, as it is read. -/
theorem enters_iff : Enters line signal number ↔ ∃ entry, Entry.ofLine? line = some entry ∧
    String.ofList (portBitName entry.name) = signal ∧ entry.number = number := by
  constructor
  · rintro ⟨fields, named, numbered, port⟩
    rename_i first second bit
    obtain ⟨more, hpieces⟩ := fields_iff.mp fields
    refine ⟨⟨trimChars first, trimChars second⟩, ?_, congrArg String.ofList (portBit_iff.mp port), rfl⟩
    simp only [Entry.ofLine?, hpieces]
    simpa [named, Option.any_eq_true] using numbered
  · rintro ⟨entry, hentry, rfl, rfl⟩
    unfold Entry.ofLine? at hentry
    split at hentry
    · rename_i first second more hpieces
      dsimp only at hentry
      split at hentry
      · rename_i hcond
        cases hentry
        rw [Bool.and_eq_true] at hcond
        refine .intro (fields_iff.mpr ⟨more, hpieces⟩) ?_ ?_ (portBit_iff.mpr rfl)
        · simpa using hcond.1
        · simpa [Option.any_eq_true] using hcond.2
      · exact nomatch hentry
    · exact nomatch hentry

theorem Enters.unique (h : Enters line signal number) (h' : Enters line signal' number') :
    signal' = signal ∧ number' = number := by
  obtain ⟨entry, hentry, rfl, rfl⟩ := enters_iff.mp h
  obtain ⟨entry', hentry', rfl, rfl⟩ := enters_iff.mp h'
  obtain rfl : entry = entry' := Option.mem_unique hentry hentry'
  exact ⟨rfl, rfl⟩

/-- Every text entered is a number, and no two lines enter the same name. -/
structure Acceptable (lines : List (List Char)) : Prop where
  numbers : ∀ line ∈ lines, ∀ signal number, Enters line signal number → ∃ n, Denotes number n
  distinct : lines.Pairwise fun line line' =>
    ∀ signal number number', Enters line signal number → ¬ Enters line' signal number'

/-- The table holds what the lines enter, and nothing else. -/
def Holds (lines : List (List Char)) (t : PinTable) : Prop :=
  ∀ signal n, t.get? signal = some n ↔
    ∃ line ∈ lines, ∃ number, Enters line signal number ∧ Denotes number n

/-- The line does not go with the lines before it: what it enters is no number, or else it enters a name
that one of them enters. -/
inductive Offends (before : List (List Char)) (line : List Char) : ProjectError → Prop
  | number {signal : String} {number : List Char} (enters : Enters line signal number)
      (bad : ∀ n, ¬ Denotes number n) :
      Offends before line (.badPinNumber (before.length + 1) (String.ofList number))
  | name {signal : String} {number : List Char} {n : Nat} (enters : Enters line signal number)
      (denotes : Denotes number n) (again : ∃ line' ∈ before, ∃ number', Enters line' signal number') :
      Offends before line (.duplicatePin signal)

/-- The error is that of the first line that offends. -/
def Refused (lines : List (List Char)) (e : ProjectError) : Prop :=
  ∃ before line after, lines = before ++ line :: after ∧ Acceptable before ∧ Offends before line e

theorem Acceptable.left (h : Acceptable (before ++ after)) : Acceptable before where
  numbers line hline := h.numbers line (mem_append_left _ hline)
  distinct := (pairwise_append.mp h.distinct).1

/-- One more line is accepted if it is a number under a new name. -/
theorem acceptable_concat_iff : Acceptable (before ++ [line]) ↔ Acceptable before ∧
    (∀ signal number, Enters line signal number → (∃ n, Denotes number n) ∧
      ∀ line' ∈ before, ∀ number', ¬ Enters line' signal number') := by
  constructor
  · intro h
    refine ⟨h.left, fun signal number henters => ⟨?_, fun line' hline' number' henters' => ?_⟩⟩
    · exact h.numbers line (by simp) signal number henters
    · exact (pairwise_append.mp h.distinct).2.2 line' hline' line (by simp) signal number' number
        henters' henters
  · rintro ⟨hbefore, hline⟩
    refine ⟨fun line' hline' signal number henters => ?_, pairwise_append.mpr
      ⟨hbefore.distinct, pairwise_singleton _ _, fun line' hline' l hl signal number number' h h' => ?_⟩⟩
    · rcases mem_append.mp hline' with hline' | hline'
      · exact hbefore.numbers line' hline' signal number henters
      · obtain rfl := mem_singleton.mp hline'
        exact (hline signal number henters).1
    · obtain rfl := mem_singleton.mp hl
      exact (hline signal number' h').2 line' hline' number h

/-- A line that offends spoils every file that has it behind the same lines. -/
theorem Offends.not_acceptable (h : Offends before line e) : ¬ Acceptable (before ++ line :: after) := by
  intro hacc
  rw [append_cons] at hacc
  obtain ⟨-, hline⟩ := acceptable_concat_iff.mp hacc.left
  cases h with
  | number enters bad =>
    obtain ⟨n, hn⟩ := (hline _ _ enters).1
    exact bad n hn
  | name enters denotes again =>
    obtain ⟨line', hline', number', henters'⟩ := again
    exact (hline _ _ enters).2 line' hline' number' henters'

theorem Offends.unique (h : Offends before line e) (h' : Offends before line e') : e = e' := by
  cases h with
  | number enters bad =>
    cases h' with
    | number enters' bad' => rw [(enters.unique enters').2]
    | name enters' denotes' again' => exact absurd ((enters.unique enters').2 ▸ denotes') (bad _)
  | name enters denotes again =>
    cases h' with
    | number enters' bad' => exact absurd ((enters'.unique enters).2 ▸ denotes) (bad' _)
    | name enters' denotes' again' => rw [(enters.unique enters').1]

theorem Refused.not_acceptable (h : Refused lines e) : ¬ Acceptable lines := by
  obtain ⟨before, line, after, rfl, -, hoff⟩ := h
  exact hoff.not_acceptable

/-- There is one first line that offends, for neither of two can stand before the other. -/
theorem Refused.unique (h : Refused lines e) (h' : Refused lines e') : e = e' := by
  obtain ⟨before, line, after, rfl, hacc, hoff⟩ := h
  obtain ⟨before', line', after', heq, hacc', hoff'⟩ := h'
  rcases append_eq_append_iff.mp heq with ⟨mid, hbefore, hmid⟩ | ⟨mid, hbefore, hmid⟩
  · cases mid with
    | nil =>
      obtain rfl : before' = before := by simpa using hbefore
      obtain ⟨rfl, -⟩ : line = line' ∧ after = after' := by simpa using hmid
      exact hoff.unique hoff'
    | cons l mid =>
      obtain ⟨rfl, -⟩ := List.cons.inj hmid
      exact absurd (hbefore ▸ hacc') hoff.not_acceptable
  · cases mid with
    | nil =>
      obtain rfl : before = before' := by simpa using hbefore
      obtain ⟨rfl, -⟩ : line' = line ∧ after' = after := by simpa using hmid
      exact hoff.unique hoff'
    | cons l mid =>
      obtain ⟨rfl, -⟩ := List.cons.inj hmid
      exact absurd (hbefore ▸ hacc) hoff'.not_acceptable

/-! ## Reading a file -/

/-- One more line is entered. -/
theorem Holds.insert (ht : Holds before t) (henters : Enters line signal number)
    (hn : Denotes number n) (hnew : t.contains signal = false) :
    Holds (before ++ [line]) (t.insert signal n) := by
  intro s m
  rw [Dict.get?_insert]
  split
  · rename_i hs
    subst hs
    constructor
    · rintro ⟨⟩
      exact ⟨line, by simp, number, henters, hn⟩
    · rintro ⟨line', hline', number', henters', hm⟩
      rcases mem_append.mp hline' with hline' | hline'
      · have hget := (ht s m).mpr ⟨line', hline', number', henters', hm⟩
        simp [Dict.contains, hget] at hnew
      · obtain rfl := mem_singleton.mp hline'
        obtain ⟨-, rfl⟩ := henters.unique henters'
        rw [← hn.value, hm.value]
  · rename_i hs
    rw [ht s m]
    constructor
    · rintro ⟨line', hline', h⟩
      exact ⟨line', mem_append_left _ hline', h⟩
    · rintro ⟨line', hline', number', henters', hm⟩
      rcases mem_append.mp hline' with hline' | hline'
      · exact ⟨line', hline', number', henters', hm⟩
      · obtain rfl := mem_singleton.mp hline'
        exact absurd (henters.unique henters').1 hs

theorem Holds.unique {t' : PinTable} (h : Holds lines t) (h' : Holds lines t') : t = t' :=
  Dict.ext_get? fun signal => Option.ext fun n => (h signal n).trans (h' signal n).symm

theorem Holds.perm (hp : lines.Perm lines') (h : Holds lines t) : Holds lines' t := by
  intro signal n
  rw [h signal n]
  exact exists_congr fun line => and_congr_left' hp.mem_iff

theorem Acceptable.perm (hp : lines.Perm lines') (h : Acceptable lines) : Acceptable lines' where
  numbers line hline := h.numbers line (hp.mem_iff.mpr hline)
  distinct := (hp.pairwise_iff fun {_ _} hne s m m' h1 h2 => hne s m' m h2 h1).mp h.distinct

end PldSynth.PinFile
