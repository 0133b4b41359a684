import PldSynth.Network.Kind
import PldSynth.Proofs.Text.Words

/-!
# Formulas and their notation

The right-hand side of an equation is an atom, an inversion `! ( F )` or a group `( F op F … )` of two or
more formulas under one operator. `Formula.tokens` writes a formula down, and `Formula.read?` reads it
back with a stack of the parentheses that are open. Reading accepts exactly what can be written
(`Formula.read?_eq_some`), so no text has two readings.
-/

namespace PldSynth

open List

/-! ## Notation -/

/-- The words of an equation. -/
inductive Token
  | atom (text : String)
  | equals
  | invert
  | lparen
  | rparen
  | operator (op : GateOp)
  deriving DecidableEq, Repr

/-- A word that is not a sign is an atom. -/
def Token.ofWord (w : String) : Token :=
  if w = "=" then .equals
  else if w = "!" then .invert
  else if w = "(" then .lparen
  else if w = ")" then .rparen
  else if w = "&" then .operator .conj
  else if w = "#" then .operator .disj
  else if w = "$" then .operator .parity
  else .atom w

/-- What an equation says, up to names. -/
inductive Formula
  | atom (text : String)
  | invert (arg : Formula)
  | combine (op : GateOp) (args : List Formula)
  deriving Repr

namespace Formula

mutual

/-- The formula as it is written. -/
def tokens : Formula → List Token
  | .atom text => [.atom text]
  | .invert arg => .invert :: .lparen :: (arg.tokens ++ [.rparen])
  | .combine op args => .lparen :: ([.operator op].intercalate (tokensOf args) ++ [.rparen])

/-- Several formulas as they are written. -/
def tokensOf : List Formula → List (List Token)
  | [] => []
  | f :: fs => f.tokens :: tokensOf fs

end

mutual

/-- Every group has two operands at least. -/
def Grouped : Formula → Prop
  | .atom _ => True
  | .invert arg => arg.Grouped
  | .combine _ args => 2 ≤ args.length ∧ AllGrouped args

/-- The same for several formulas. -/
def AllGrouped : List Formula → Prop
  | [] => True
  | f :: fs => f.Grouped ∧ AllGrouped fs

end

theorem tokensOf_eq_map (fs : List Formula) : tokensOf fs = fs.map tokens := by
  induction fs with
  | nil => rfl
  | cons f fs ih => rw [tokensOf, ih, map_cons]

theorem allGrouped_iff {fs : List Formula} : AllGrouped fs ↔ ∀ f ∈ fs, f.Grouped := by
  induction fs with
  | nil => simp [AllGrouped]
  | cons f fs ih => rw [AllGrouped, ih, forall_mem_cons]

/-! ## Reading -/

/-- A parenthesis that is open. -/
inductive Frame
  /-- The argument of an inversion. -/
  | inversion
  /-- A group before its first operator. -/
  | start
  /-- A group with the operands that were read, each with the operator behind it. -/
  | group (op : GateOp) (args : List Formula)

/-- Reads a formula inside of the parentheses `stack`, the innermost first. The formula that was read
last is still to be used. -/
def readFrom : List Frame → Option Formula → List Token → Option Formula
  | [], some f, [] => some f
  | stack, none, .atom text :: ts => readFrom stack (some (.atom text)) ts
  | stack, none, .invert :: .lparen :: ts => readFrom (.inversion :: stack) none ts
  | stack, none, .lparen :: ts => readFrom (.start :: stack) none ts
  | .start :: stack, some f, .operator op :: ts => readFrom (.group op [f] :: stack) none ts
  | .group op args :: stack, some f, .operator op' :: ts =>
    if op = op' then readFrom (.group op (args ++ [f]) :: stack) none ts else none
  | .inversion :: stack, some f, .rparen :: ts => readFrom stack (some (.invert f)) ts
  | .group op args :: stack, some f, .rparen :: ts =>
    readFrom stack (some (.combine op (args ++ [f]))) ts
  | _, _, _ => none

/-- Reads a formula. -/
def read? (ts : List Token) : Option Formula :=
  readFrom [] none ts

/-! ### What was written can be read -/

variable {stack : List Frame} {op : GateOp} {f : Formula} {fs args : List Formula}

/-- The operands that remain, up to the end of their group. -/
theorem readFrom_operands {rest : List Token} (hread : ∀ f ∈ fs, ∀ stack rest,
      readFrom stack none (f.tokens ++ rest) = readFrom stack (some f) rest) (hne : fs ≠ []) :
    readFrom (.group op args :: stack) none
        ([.operator op].intercalate (fs.map tokens) ++ .rparen :: rest) =
      readFrom stack (some (.combine op (args ++ fs))) rest := by
  induction fs generalizing args with
  | nil => exact absurd rfl hne
  | cons f fs ih =>
    obtain ⟨hf, hfs⟩ := forall_mem_cons.mp hread
    cases fs with
    | nil => rw [map_singleton, intercalate_singleton, hf, readFrom]
    | cons f' fs =>
      rw [map_cons, map_cons, intercalate_cons_cons, append_assoc,
        append_assoc, hf, singleton_append, readFrom, if_pos rfl, ← map_cons,
        ih hfs (cons_ne_nil f' fs), append_assoc, singleton_append]

mutual

/-- Reading the words of a formula gives it back, whatever is open around it. -/
theorem readFrom_tokens (f : Formula) (hf : f.Grouped) (stack : List Frame) (rest : List Token) :
    readFrom stack none (f.tokens ++ rest) = readFrom stack (some f) rest := by
  match f with
  | .atom text => rw [tokens, singleton_append, readFrom]
  | .invert arg =>
    rw [Grouped] at hf
    rw [tokens, cons_append, cons_append, append_assoc, readFrom,
      readFrom_tokens arg hf, singleton_append, readFrom]
  | .combine op args =>
    rw [Grouped] at hf
    have hread := readFrom_tokensOf args hf.2
    match args, hf.1, hread with
    | a :: b :: args, _, hread =>
      obtain ⟨ha, hrest⟩ := forall_mem_cons.mp hread
      have htail : readFrom (.group op [a] :: stack) none
          ([.operator op].intercalate ((b :: args).map tokens) ++ .rparen :: rest) =
          readFrom stack (some (.combine op (a :: b :: args))) rest :=
        readFrom_operands hrest (cons_ne_nil b args)
      rw [tokens, tokensOf_eq_map, map_cons, map_cons, intercalate_cons_cons,
        cons_append, readFrom, append_assoc, append_assoc, append_assoc, ha]
      exact htail

theorem readFrom_tokensOf (fs : List Formula) (hfs : AllGrouped fs) : ∀ f ∈ fs, ∀ stack rest,
    readFrom stack none (f.tokens ++ rest) = readFrom stack (some f) rest := by
  match fs with
  | [] => nofun
  | f :: fs =>
    rw [AllGrouped] at hfs
    exact forall_mem_cons.mpr ⟨readFrom_tokens f hfs.1, readFrom_tokensOf fs hfs.2⟩

end

/-! ### What is read was written -/

/-- What was written of a parenthesis that is open. -/
def Frame.tokens : Frame → List Token
  | .inversion => [.invert, .lparen]
  | .start => [.lparen]
  | .group op args => .lparen :: args.flatMap fun a => a.tokens ++ [.operator op]

/-- What was written of all parentheses that are open. -/
def opened : List Frame → List Token
  | [] => []
  | frame :: stack => opened stack ++ frame.tokens

/-- The operands of the parenthesis are in order, and there is one at least behind an operator. -/
def Frame.Grouped : Frame → Prop
  | .inversion | .start => True
  | .group _ args => args ≠ [] ∧ ∀ a ∈ args, a.Grouped

theorem tokens_combine_concat : (combine op (args ++ [f])).tokens =
      (Frame.group op args).tokens ++ f.tokens ++ [.rparen] := by
  rw [tokens, tokensOf_eq_map, Frame.tokens, cons_append]
  congr 2
  induction args with
  | nil => simp
  | cons a args ih =>
    obtain ⟨b, bs, hb⟩ : ∃ b bs, (args ++ [f]).map tokens = b :: bs := by
      cases args <;> simp
    rw [cons_append, map_cons, hb, intercalate_cons_cons, ← hb, ih]
    simp

theorem grouped_combine_concat (hargs : args ≠ [] ∧ ∀ a ∈ args, a.Grouped) (hf : f.Grouped) :
    (combine op (args ++ [f])).Grouped := by
  rw [Grouped, allGrouped_iff, length_append, length_singleton]
  have hpos := length_pos_iff.mpr hargs.1
  refine ⟨by omega, fun a ha => ?_⟩
  rcases mem_append.mp ha with ha | ha
  · exact hargs.2 a ha
  · rwa [mem_singleton.mp ha]

/-- What is read is what was written before and what was left to read. -/
theorem tokens_of_readFrom {last : Option Formula} {ts : List Token}
    (hrun : readFrom stack last ts = some f) (hstack : ∀ frame ∈ stack, frame.Grouped)
    (hlast : ∀ e ∈ last, e.Grouped) :
    f.Grouped ∧ f.tokens = opened stack ++ (last.elim [] tokens ++ ts) := by
  -- what is open, what was read last and what is left keep their text
  fun_induction readFrom stack last ts with
  | case1 e =>
    cases hrun
    exact ⟨hlast _ rfl, by simp [opened]⟩
  | case2 stack text ts ih =>
    obtain ⟨hf, htok⟩ := ih hrun hstack fun e he => by cases he; trivial
    exact ⟨hf, by simpa [tokens] using htok⟩
  | case3 stack ts ih =>
    obtain ⟨hf, htok⟩ := ih hrun (forall_mem_cons.mpr ⟨trivial, hstack⟩) nofun
    exact ⟨hf, by simpa [opened, Frame.tokens] using htok⟩
  | case4 stack ts ih =>
    obtain ⟨hf, htok⟩ := ih hrun (forall_mem_cons.mpr ⟨trivial, hstack⟩) nofun
    exact ⟨hf, by simpa [opened, Frame.tokens] using htok⟩
  | case5 stack e op ts ih =>
    obtain ⟨-, hstack⟩ := forall_mem_cons.mp hstack
    have hgroup : (Frame.group op [e]).Grouped :=
      ⟨cons_ne_nil e [], fun a ha => mem_singleton.mp ha ▸ hlast e rfl⟩
    obtain ⟨hf, htok⟩ := ih hrun (forall_mem_cons.mpr ⟨hgroup, hstack⟩) nofun
    exact ⟨hf, by simpa [opened, Frame.tokens] using htok⟩
  | case6 args stack e op ts ih =>
    obtain ⟨hargs, hstack⟩ := forall_mem_cons.mp hstack
    have hgroup : (Frame.group op (args ++ [e])).Grouped := by
      refine ⟨by simp, fun a ha => ?_⟩
      rcases mem_append.mp ha with ha | ha
      · exact hargs.2 a ha
      · exact mem_singleton.mp ha ▸ hlast e rfl
    obtain ⟨hf, htok⟩ := ih hrun (forall_mem_cons.mpr ⟨hgroup, hstack⟩) nofun
    exact ⟨hf, by simpa [opened, Frame.tokens] using htok⟩
  | case7 => cases hrun
  | case8 stack e ts ih =>
    obtain ⟨-, hstack⟩ := forall_mem_cons.mp hstack
    obtain ⟨hf, htok⟩ := ih hrun hstack fun a ha => by cases ha; exact hlast e rfl
    exact ⟨hf, by simpa [opened, Frame.tokens, tokens] using htok⟩
  | case9 op args stack e ts ih =>
    obtain ⟨hargs, hstack⟩ := forall_mem_cons.mp hstack
    obtain ⟨hf, htok⟩ := ih hrun hstack fun a ha => by
      cases ha
      exact grouped_combine_concat hargs (hlast e rfl)
    exact ⟨hf, by simpa [opened, tokens_combine_concat] using htok⟩
  | case10 => cases hrun

/-- Reading accepts exactly what can be written. -/
theorem read?_eq_some {ts : List Token} : read? ts = some f ↔ f.Grouped ∧ f.tokens = ts := by
  constructor
  · intro h
    simpa [opened] using tokens_of_readFrom h nofun nofun
  · rintro ⟨hf, rfl⟩
    have hread := readFrom_tokens f hf [] []
    rwa [append_nil] at hread

end Formula

end PldSynth
