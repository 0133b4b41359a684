import PldSynth.Proofs.Equation.Formula
import PldSynth.Proofs.Equation.Solution
import PldSynth.Text.Alphanumeric

/-!
# Equations can be read back

The formula behind an output is given by the gates: an operator for each of them, over the formulas of
what drives its inputs, in order (`Network.HasFormula`). If names are made of letters, digits and
underscores, the text of an equation reads back as its left-hand side and the formula of the driver,
however the text is wrapped (`Network.read_equations`).
-/

namespace PldSynth

open Attempt List

/-! ## Names -/

namespace Text

/-- The blanks as closed intervals. -/
def blankRanges : List (Nat × Nat) :=
  [(0x9, 0xD), (0x20, 0x20), (0x85, 0x85), (0xA0, 0xA0), (0x1680, 0x1680), (0x2000, 0x200A),
    (0x2028, 0x2029), (0x202F, 0x202F), (0x205F, 0x205F), (0x3000, 0x3000)]

theorem exists_range_of_inRanges {n : Nat} {rs : List (Nat × Nat)} (h : inRanges n rs) :
    ∃ r ∈ rs, r.1 ≤ n ∧ n ≤ r.2 := by
  induction rs with
  | nil => cases h
  | cons r rs ih =>
    rw [inRanges] at h
    split at h
    · cases h
    · rename_i hlo
      rcases Bool.or_eq_true_iff.mp h with hhi | hrest
      · exact ⟨r, mem_cons_self, Nat.le_of_not_lt hlo, of_decide_eq_true hhi⟩
      · obtain ⟨r', hr', hn⟩ := ih hrest
        exact ⟨r', mem_cons_of_mem r hr', hn⟩

theorem exists_blankRange {c : Char} (h : isBlank c) :
    ∃ r ∈ blankRanges, r.1 ≤ c.toNat ∧ c.toNat ≤ r.2 := by
  simp only [isBlank, Bool.or_eq_true, Bool.and_eq_true, decide_eq_true_eq] at h
  simp only [blankRanges, mem_cons, not_mem_nil, or_false, exists_eq_or_imp, exists_eq_left]
  omega

/-- Blanks lie between the intervals of letters and numbers. -/
theorem blankRanges_apart : (blankRanges.all fun r => alphanumericRanges.all fun q =>
    r.2 < q.1 || q.2 < r.1) := by
  decide +kernel

/-- Letters and numbers are no blanks. -/
theorem not_isBlank_of_isAlphanumeric {c : Char} (h : isAlphanumeric c) : isBlank c = false := by
  by_contra hb
  obtain ⟨q, hq, hqn⟩ := exists_range_of_inRanges h
  obtain ⟨r, hr, hrn⟩ := exists_blankRange (Bool.not_eq_false _ ▸ hb)
  have hapart := all_eq_true.mp (all_eq_true.mp blankRanges_apart r hr) q hq
  simp only [Bool.or_eq_true, decide_eq_true_eq] at hapart
  omega

/-- A name that is not empty and is made of letters, numbers and underscores. -/
def IsName (s : String) : Prop :=
  s ≠ "" ∧ (s.toList.all fun c => isAlphanumeric c || c = '_') = true

instance (s : String) : Decidable (IsName s) :=
  inferInstanceAs (Decidable (_ ∧ _))

theorem IsName.char {s : String} (h : IsName s) {c : Char} (hc : c ∈ s.toList) :
    isAlphanumeric c ∨ c = '_' := by
  simpa using all_eq_true.mp h.2 c hc

end Text

open Text

/-- A word that is no sign. -/
def IsAtom (s : String) : Prop :=
  IsWord s ∧ Token.ofWord s = .atom s

/-- The characters of the signs. -/
def signs : List Char :=
  ['=', '!', '(', ')', '&', '#', '$']

theorem isAtom_of_head {s : String} {c : Char} {cs : List Char} (hs : s.toList = c :: cs)
    (hc : c ∉ signs) (hblank : ∀ d ∈ c :: cs, isBlank d = false) : IsAtom s := by
  have hne : ∀ {d : Char}, d ∈ signs → s ≠ String.ofList [d] := by
    rintro d hd rfl
    rw [String.toList_ofList] at hs
    cases hs
    exact hc hd
  refine ⟨⟨by simp [hs], hs ▸ hblank⟩, ?_⟩
  unfold Token.ofWord
  rw [if_neg (hne (by decide)), if_neg (hne (by decide)),
    if_neg (hne (by decide)), if_neg (hne (by decide)),
    if_neg (hne (by decide)), if_neg (hne (by decide)),
    if_neg (hne (by decide))]

namespace Text.IsName

variable {s t : String}

theorem not_isBlank (h : IsName s) : ∀ c ∈ s.toList, isBlank c = false := by
  intro c hc
  rcases h.char hc with hc | rfl
  · exact not_isBlank_of_isAlphanumeric hc
  · decide

theorem exists_head (h : IsName s) : ∃ c cs, s.toList = c :: cs ∧ c ∉ signs := by
  cases hs : s.toList with
  | nil => exact absurd (String.toList_eq_nil_iff.mp hs) h.1
  | cons c cs =>
    refine ⟨c, cs, rfl, fun hsign => ?_⟩
    have hsigns : (signs.all fun d => !isAlphanumeric d && d ≠ '_') := by decide
    have hnot := all_eq_true.mp hsigns c hsign
    rcases h.char (c := c) (by simp [hs]) with hc | hc <;> simp [hc] at hnot

theorem isAtom (h : IsName s) : IsAtom s := by
  obtain ⟨c, cs, hs, hc⟩ := h.exists_head
  exact isAtom_of_head hs hc (hs ▸ h.not_isBlank)

/-- A name behind the name of its node. -/
theorem isAtom_dotted (hs : IsName s) (ht : IsName t) : IsAtom (s ++ "." ++ t) := by
  obtain ⟨c, cs, hcs, hc⟩ := hs.exists_head
  have hchars : (s ++ "." ++ t).toList = c :: (cs ++ '.' :: t.toList) := by simp [hcs]
  refine isAtom_of_head hchars hc fun d hd => ?_
  rw [← cons_append, ← hcs] at hd
  rcases mem_append.mp hd with hd | hd
  · exact hs.not_isBlank d hd
  · rcases mem_cons.mp hd with rfl | hd
    · decide
    · exact ht.not_isBlank d hd

end Text.IsName

theorem isAtom_literal (value : Nat) : IsAtom ("'b'" ++ toString value) := by
  have hchars : ("'b'" ++ toString value).toList = '\'' :: 'b' :: '\'' :: Nat.toDigits 10 value := by
    rw [String.toList_append, Nat.toString_eq_repr, Nat.toList_repr]
    rfl
  refine isAtom_of_head hchars (by decide) ?_
  simp only [forall_mem_cons]
  refine ⟨by decide, by decide, by decide, fun d hd => not_isBlank_of_isAlphanumeric ?_⟩
  exact isAlphanumeric_of_isDigit (Nat.isDigit_of_mem_toDigits (by omega) (Nat.le_refl 10) hd)

/-! ## Texts of terms -/

namespace Term

mutual

/-- What a term says. -/
def formula : Term → Formula
  | .signal _ name => .atom name
  | .constant _ value => .atom ("'b'" ++ toString value)
  | .invert _ arg => .invert arg.formula
  | .combine _ op args => .combine op (formulas args)

/-- What several terms say. -/
def formulas : List Term → List Formula
  | [] => []
  | t :: ts => t.formula :: formulas ts

end

theorem formulas_eq_map (ts : List Term) : formulas ts = ts.map formula := by
  induction ts with
  | nil => rfl
  | cons t ts ih => rw [formulas, ih, map_cons]

theorem texts_eq_map (ts : List Term) : texts ts = ts.map text := by
  induction ts with
  | nil => rfl
  | cons t ts ih => rw [texts, ih, map_cons]

/-- The words of the term write down what it says, and it does not end with a blank. -/
structure Legible (t : Term) : Prop where
  tokens : (words t.text).map Token.ofWord = t.formula.tokens
  grouped : t.formula.Grouped
  last : t.text.toList.getLast?.any (fun c => !isBlank c) = true

variable {source : ConnId} {gate : NodeId} {t : Term} {ts : List Term} {name : String}

theorem getLast_of_isWord {s : String} (h : IsWord s) : s.toList.getLast?.any (fun c => !isBlank c) := by
  rw [getLast?_eq_some_getLast h.1]
  simpa using h.2 _ (getLast_mem h.1)

theorem legible_signal (h : IsAtom name) : Legible (.signal source name) where
  tokens := by rw [text, h.1.words_eq, map_singleton, h.2, formula, Formula.tokens]
  grouped := trivial
  last := getLast_of_isWord h.1

theorem legible_constant (value : Nat) : Legible (.constant source value) where
  tokens := by
    have h := isAtom_literal value
    rw [text, h.1.words_eq, map_singleton, h.2, formula, Formula.tokens]
  grouped := trivial
  last := getLast_of_isWord (isAtom_literal value).1

/-- What ends with a parenthesis does not end with a blank. -/
theorem getLast_rparen (s : String) : (s ++ " )").toList.getLast?.any (fun c => !isBlank c) = true := by
  rw [String.toList_append, getLast?_append]
  rfl

theorem Legible.invert (h : t.Legible) : Legible (.invert gate t) where
  tokens := by
    rw [text, words_append_of_head rfl, words_append_of_getLast rfl, map_append, map_append,
      h.tokens, formula]
    rfl
  grouped := h.grouped
  last := getLast_rparen _

theorem map_intercalate {α β : Type} (f : α → β) (sep : List α) (ls : List (List α)) :
    (sep.intercalate ls).map f = (sep.map f).intercalate (ls.map (List.map f)) := by
  induction ls with
  | nil => rfl
  | cons l ls ih =>
    cases ls with
    | nil => simp
    | cons l' ls =>
      rw [intercalate_cons_cons, map_append, map_append, ih, map_cons, map_cons,
        map_cons, intercalate_cons_cons]

/-- The words between two operands. -/
theorem words_operator (op : GateOp) (ss : List String) :
    (words ((" " ++ op.symbol ++ " ").intercalate ss)).map Token.ofWord =
      [.operator op].intercalate (ss.map fun s => (words s).map Token.ofWord) := by
  have hop : (words (" " ++ op.symbol ++ " ")).map Token.ofWord = [.operator op] := by
    cases op <;> rfl
  rw [words_intercalate (by cases op <;> rfl) (by cases op <;> rfl), map_intercalate, hop, map_map]
  rfl

theorem Legible.combine (op : GateOp) (hlen : 2 ≤ ts.length) (h : ∀ t ∈ ts, t.Legible) :
    Legible (.combine gate op ts) where
  tokens := by
    have hargs : (texts ts).map (fun s => (words s).map Token.ofWord) = Formula.tokensOf (formulas ts) := by
      rw [texts_eq_map, formulas_eq_map, Formula.tokensOf_eq_map, map_map, map_map]
      exact map_congr_left fun t ht => (h t ht).tokens
    rw [text, words_append_of_head rfl, words_append_of_getLast rfl, map_append, map_append,
      words_operator, hargs, formula]
    rfl
  grouped := by
    rw [formula, formulas_eq_map, Formula.Grouped, length_map, Formula.allGrouped_iff]
    exact ⟨hlen, forall_mem_map.mpr fun t ht => (h t ht).grouped⟩
  last := getLast_rparen _

end Term

/-! ## Texts of equations -/

/-- Reads the text of an equation: a name, an equals sign and a formula, with a semicolon behind. -/
def Equation.read? (text : String) : Option (String × Formula) := do
  let ws ← unterminated? (words text)
  match ws.map Token.ofWord with
  | .atom name :: .equals :: ts => return (name, ← Formula.read? ts)
  | _ => none

/-- The text of an equation can be read back, if its left-hand side and its term are legible. -/
theorem Equation.read?_render {e : Equation} (hname : IsAtom e.name) (hterm : e.term.Legible) :
    Equation.read? e.render = some (e.name, e.term.formula) := by
  have hlast : (e.name ++ " = " ++ e.term.text).toList.getLast?.any (fun c => !isBlank c) := by
    have hterm := hterm.last
    rw [String.toList_append, getLast?_append]
    cases hl : e.term.text.toList.getLast? with
    | none => simp [hl] at hterm
    | some c => simpa [hl] using hterm
  have hwords : (words (e.name ++ " = " ++ e.term.text)).map Token.ofWord =
      .atom e.name :: .equals :: e.term.formula.tokens := by
    rw [String.append_assoc, words_append_of_head (by simp [String.toList_append]; rfl),
      words_append_of_getLast rfl, hname.1.words_eq, map_append, map_append, hterm.tokens,
      map_singleton, hname.2]
    rfl
  have hread := Formula.read?_eq_some.mpr ⟨hterm.grouped, rfl⟩
  rw [Equation.read?, Equation.render, words_wrap, Equation.text, unterminated?_words hlast]
  simp only [Option.bind_eq_bind, Option.bind_some, hwords, hread]
  rfl

/-! ## The formula of an output -/

namespace Network

variable {g : Network} {n : NodeId} {c d o : ConnId} {f f' : Formula}

/-- The formula behind an output, by the gates that are there. -/
inductive HasFormula (g : Network) : ConnId → Formula → Prop
  | signal {n : NodeId} {o : ConnId} {k : NodeKind} {name : String} (hn : g.ownerOf? o = some n)
    (hk : g.kindOf? n = some k) (hb : k.isBoundary = true) (hname : g.signalName? n o = some name) :
    HasFormula g o (.atom name)
  | constant {n : NodeId} {o : ConnId} (hn : g.ownerOf? o = some n)
    (hk : g.kindOf? n = some .constant) :
    HasFormula g o (.atom ("'b'" ++ toString ((g.constantOf? n).getD 0)))
  | invert {n : NodeId} {o d : ConnId} {f : Formula} (hn : g.ownerOf? o = some n)
    (hk : g.kindOf? n = some .inverter) (hd : g.driversAt n = [d]) (hf : HasFormula g d f) :
    HasFormula g o (.invert f)
  | combine {n : NodeId} {o : ConnId} {op : GateOp} {fs : List Formula} (hn : g.ownerOf? o = some n)
    (hk : g.kindOf? n = some (.gate op)) (hlen : (g.driversAt n).length = fs.length)
    (hf : ∀ {d f}, (d, f) ∈ (g.driversAt n).zip fs → HasFormula g d f) :
    HasFormula g o (.combine op fs)

/-- The kind of the node tells how the formula was made. -/
theorem HasFormula.of_kind {k : NodeKind} (h : g.HasFormula o f) (hn : g.ownerOf? o = some n)
    (hk : g.kindOf? n = some k) : match k with
    | .gate op => ∃ fs, f = .combine op fs ∧ List.Forall₂ g.HasFormula (g.driversAt n) fs
    | .inverter => ∃ d f', f = .invert f' ∧ g.driversAt n = [d] ∧ g.HasFormula d f'
    | .constant => f = .atom ("'b'" ++ toString ((g.constantOf? n).getD 0))
    | _ => ∃ name, f = .atom name ∧ g.signalName? n o = some name := by
  cases h with
  | signal hn' hk' hb hname =>
    cases hn.symm.trans hn'
    cases hk.symm.trans hk'
    cases k with
    | flipFlop | latch | triState | pin | pinNode | design => exact ⟨_, rfl, hname⟩
    | gate | inverter | constant | unknown => cases hb
  | constant hn' hk' =>
    cases hn.symm.trans hn'
    cases hk.symm.trans hk'
    rfl
  | invert hn' hk' hd hf =>
    cases hn.symm.trans hn'
    cases hk.symm.trans hk'
    exact ⟨_, _, rfl, hd, hf⟩
  | combine hn' hk' hlen hf =>
    cases hn.symm.trans hn'
    cases hk.symm.trans hk'
    exact ⟨_, rfl, forall₂_iff_zip.mpr ⟨hlen, hf⟩⟩

theorem eq_of_forall₂ {R : ConnId → Formula → Prop} {ds : List ConnId} {fs fs' : List Formula}
    (h : List.Forall₂ (fun d f => ∀ {f'}, R d f' → f = f') ds fs) (h' : List.Forall₂ R ds fs') :
    fs = fs' := by
  induction h generalizing fs' with
  | nil =>
    cases h'
    rfl
  | cons hd _ ih =>
    cases h' with
    | cons hd' hrest => rw [hd hd', ih hrest]

/-- An output has one formula. -/
theorem HasFormula.unique (h : g.HasFormula o f) (h' : g.HasFormula o f') : f = f' := by
  induction h generalizing f' with
  | @signal n o k name hn hk hb hname =>
    have hof := h'.of_kind hn hk
    cases k with
    | flipFlop | latch | triState | pin | pinNode | design =>
      obtain ⟨name', rfl, hname'⟩ := hof
      cases hname.symm.trans hname'
      rfl
    | gate | inverter | constant | unknown => cases hb
  | constant hn hk => exact (h'.of_kind hn hk).symm
  | invert hn hk hd _ ih =>
    obtain ⟨d', f', rfl, hd', hf'⟩ := h'.of_kind hn hk
    obtain rfl := singleton_inj.mp (hd.symm.trans hd')
    rw [ih hf']
  | combine hn hk hlen _ ih =>
    obtain ⟨fs', rfl, hfs'⟩ := h'.of_kind hn hk
    rw [eq_of_forall₂ (forall₂_iff_zip.mpr ⟨hlen, ih⟩) hfs']

/-! ## The equations of a network -/

/-- Every name is made of letters, numbers and underscores. -/
structure PlainNames (g : Network) : Prop where
  node : ∀ {n s}, g.nodeNameOf? n = some s → IsName s
  conn : ∀ {c s}, g.connNameOf? c = some s → IsName s

/-- It is enough to look at the names of the records that there are. -/
theorem plainNames_iff : g.PlainNames ↔
    (∀ x ∈ g.nodes.items, IsName x.name) ∧ ∀ x ∈ g.conns.items, IsName x.name := by
  constructor
  · intro h
    constructor <;> intro x hx <;> obtain ⟨i, hi⟩ := Array.getElem?_of_mem hx
    · exact h.node (n := ⟨i⟩) (by simp [nodeNameOf?, node?, Arena.get?, hi])
    · exact h.conn (c := ⟨i⟩) (by simp [connNameOf?, conn?, Arena.get?, hi])
  · rintro ⟨hnode, hconn⟩
    constructor
    · intro n s hs
      obtain ⟨x, hx, rfl⟩ := Option.map_eq_some_iff.mp hs
      exact hnode x (Array.mem_of_getElem? hx)
    · intro c s hs
      obtain ⟨x, hx, rfl⟩ := Option.map_eq_some_iff.mp hs
      exact hconn x (Array.mem_of_getElem? hx)

instance (g : Network) : Decidable g.PlainNames :=
  decidable_of_iff _ plainNames_iff.symm

namespace PlainNames

variable {name : String} {t : Term} (hg : g.PlainNames)
include hg

theorem isAtom_signalName (h : g.signalName? n o = some name) : IsAtom name := by
  unfold signalName? at h
  split at h
  case h_1 | h_2 | h_3 =>
    simp only [Option.bind_eq_bind, Option.bind_eq_some_iff, Option.pure_def, Option.some.injEq] at h
    obtain ⟨s, hs, s', hs', rfl⟩ := h
    exact (hg.node hs).isAtom_dotted (hg.conn hs')
  case h_4 | h_5 => exact (hg.node h).isAtom
  case h_6 => exact (hg.conn h).isAtom
  case h_7 => cases h

theorem isAtom_equationName (h : g.equationName c = .ok name) : IsAtom name := by
  simp only [equationName, bind_eq_ok, conn_eq_ok, node_eq_ok] at h
  obtain ⟨x, hx, y, hy, h⟩ := h
  have hnode : IsName y.name := hg.node (n := x.owner) (by simp [nodeNameOf?, hy])
  have hconn : IsName x.name := hg.conn (c := c) (by simp [connNameOf?, hx])
  have hdotted := hnode.isAtom_dotted hconn
  split at h
  case h_1 | h_2 =>
    split at h
    · exact pure_eq_ok.mp h ▸ hnode.isAtom
    · exact pure_eq_ok.mp h ▸ hdotted
  case h_3 => exact pure_eq_ok.mp h ▸ hconn.isAtom
  case h_4 => exact pure_eq_ok.mp h ▸ hdotted

/-- The term behind an output says the formula of the output, and its text can be read. -/
theorem legible_termOf {equation : String} {levels : Nat} {w w' : NodeSet}
    (h : g.termOf equation levels w o = .ok (t, w')) : t.Legible ∧ g.HasFormula o t.formula := by
  induction levels generalizing w w' o t with
  | zero =>
    cases h
  | succ levels ih =>
    obtain ⟨n, hn⟩ := exists_owner_of_termOf h
    cases readsOff_termOf hn h with
    | signal hk hname =>
      obtain ⟨k, hk, hb⟩ := hasKind_iff.mp hk
      exact ⟨Term.legible_signal (hg.isAtom_signalName hname), .signal hn hk hb hname⟩
    | constant hk => exact ⟨Term.legible_constant _, .constant hn hk⟩
    | invert hk hd ht =>
      obtain ⟨w, w', ht⟩ := ht
      obtain ⟨hlegible, hformula⟩ := ih ht
      exact ⟨hlegible.invert, .invert hn hk hd hformula⟩
    | combine hk hlen ht =>
      rename_i op ts
      have hall : List.Forall₂ (fun d t => t.Legible ∧ g.HasFormula d t.formula) (g.driversAt n) ts :=
        ht.imp (by rintro d t ⟨w, w', ht⟩; exact ih ht)
      have hformulas : List.Forall₂ g.HasFormula (g.driversAt n) (Term.formulas ts) := by
        rw [Term.formulas_eq_map, forall₂_map_right_iff]
        exact hall.imp fun _ _ h => h.2
      refine ⟨.combine op (hall.length_eq ▸ hlen) fun t ht => ?_,
        .combine hn hk hformulas.length_eq fun hmem => (forall₂_iff_zip.mp hformulas).2 hmem⟩
      obtain ⟨d, -, hlegible, -⟩ := exists_left_of_forall₂ hall ht
      exact hlegible

end PlainNames

/-- Each input with a source has one equation, in order. The text of the equation reads back as the
name of the input and the formula of the source. -/
theorem read_equations {es : List Equation} (hg : g.PlainNames) (h : g.equations = .ok es) :
    List.Forall₂ (fun c text => ∃ d name f, g.sourceOf? c = some d ∧ g.equationName c = .ok name ∧
        Equation.read? text = some (name, f) ∧ ∀ f', g.HasFormula d f' ↔ f' = f)
      (g.top.filter fun c => (g.sourceOf? c).isSome) (es.map Equation.render) := by
  rw [forall₂_map_right_iff]
  refine (equations_spec h).imp fun c e ⟨_, hname, d, hd, w, w', hterm⟩ => ?_
  obtain ⟨hlegible, hformula⟩ := hg.legible_termOf hterm
  refine ⟨d, e.name, e.term.formula, hd, hname,
    Equation.read?_render (hg.isAtom_equationName hname) hlegible, fun f' => ⟨fun hf' => ?_, ?_⟩⟩
  · exact hf'.unique hformula
  · rintro rfl
    exact hformula

/-- A register whose input is the parity of its output and of an inverted constant. Its clock is not
wired. -/
def feedback : Network where
  nodes := ⟨#[{ name := "m", kind := .design },
    { name := "a_register_with_a_rather_long_name", kind := .flipFlop, conns := [⟨0⟩, ⟨1⟩, ⟨2⟩] },
    { name := "x", kind := .gate .parity, conns := [⟨3⟩, ⟨4⟩, ⟨5⟩] },
    { name := "n", kind := .inverter, conns := [⟨6⟩, ⟨7⟩] },
    { name := "CONST0", kind := .constant, constant := some 0, conns := [⟨8⟩] }]⟩
  conns := ⟨#[{ owner := ⟨1⟩, direction := .input, name := "CK" },
    { owner := ⟨1⟩, direction := .input, name := "D", refs := [⟨5⟩] },
    { owner := ⟨1⟩, direction := .output, name := "Q", refs := [⟨3⟩] },
    { owner := ⟨2⟩, direction := .input, name := "A", refs := [⟨2⟩] },
    { owner := ⟨2⟩, direction := .input, name := "B", refs := [⟨7⟩] },
    { owner := ⟨2⟩, direction := .output, name := "Y", refs := [⟨1⟩] },
    { owner := ⟨3⟩, direction := .input, name := "A", refs := [⟨8⟩] },
    { owner := ⟨3⟩, direction := .output, name := "Y", refs := [⟨4⟩] },
    { owner := ⟨4⟩, direction := .output, name := "OUT", refs := [⟨6⟩] }]⟩
  cells := [⟨1⟩, ⟨2⟩, ⟨3⟩, ⟨4⟩]
  top := [⟨0⟩, ⟨1⟩]

/-- Its equation takes two lines. -/
theorem read_equations_feedback : feedback.PlainNames ∧ ∃ es, feedback.equations = .ok es ∧
    es.map Equation.render = ["a_register_with_a_rather_long_name.D = ( a_register_with_a_rather_long_name.Q $" ++
      "\r\n  ! ( 'b'0 ) );"] ∧
    List.Forall₂ (fun c text => ∃ d name f, feedback.sourceOf? c = some d ∧
        feedback.equationName c = .ok name ∧ Equation.read? text = some (name, f) ∧
        ∀ f', feedback.HasFormula d f' ↔ f' = f)
      (feedback.top.filter fun c => (feedback.sourceOf? c).isSome) (es.map Equation.render) := by
  have hg : feedback.PlainNames := by decide +kernel
  obtain ⟨es, hes⟩ := exists_of_isOk (x := feedback.equations) (by decide +kernel)
  have htexts : feedback.equations.toOption.map (·.map Equation.render) =
      some (es.map Equation.render) := by
    rw [hes]
    rfl
  refine ⟨hg, es, hes, Option.mem_unique htexts ?_, read_equations hg hes⟩
  decide +kernel

end Network

end PldSynth
