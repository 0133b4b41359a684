import PldSynth.Proofs.Compile.Declarations

/-!
# The pin numbers in a listing

A pin table gives numbers to the bits of the ports by their names. A listing declares the bits under
names of letters, digits and underscores, and it looks their numbers up under those names too. So a bit
gets the number that the table has for it exactly if the table has the same number under both names
(`Design.numbered_iff`). `Design.dotted` has a port whose number is lost.
-/

namespace PldSynth

open Network

variable {d : Design} {g : Network} {name out s : String} {options : Options}

namespace Listing

/-- The declaration of a pin with this text for its number. -/
def declaration (number name : String) : String :=
  "PIN  " ++ number ++ "  = " ++ name ++ ";"

/-- The line gives the port bit `s` the number that the table has for it, and leaves the number blank
exactly if the table has none or 0. -/
def Numbered (pins : PinTable) (s line : String) : Prop :=
  (∀ k, Dict.get? pins s = some k → k ≠ 0 → line = declaration (toString k) (Text.identifier s)) ∧
    (line = declaration "" (Text.identifier s) ↔
      Dict.get? pins s = none ∨ Dict.get? pins s = some 0)

/-- The text of a number, blank for 0. -/
def numberText (k : Nat) : String :=
  if k = 0 then "" else toString k

theorem pinLine_eq (pins : PinTable) (name : String) :
    pinLine pins name = declaration (numberText (pins.number name)) name := rfl

theorem declaration_inj {number number' name : String} :
    declaration number name = declaration number' name ↔ number = number' := by
  unfold declaration
  constructor
  · intro h
    rw [String.append_left_inj, String.append_left_inj, String.append_left_inj,
      String.append_right_inj] at h
    exact h
  · intro h
    rw [h]

theorem toString_ne_empty (k : Nat) : toString k ≠ "" := by
  intro h
  have hdigits := congrArg String.toList h
  rw [Nat.toString_eq_repr, Nat.toList_repr] at hdigits
  exact Nat.toDigits_ne_nil hdigits

theorem numberText_injective : Function.Injective numberText := by
  intro j k h
  unfold numberText at h
  split at h <;> split at h
  · omega
  · exact absurd h.symm (toString_ne_empty k)
  · exact absurd h (toString_ne_empty j)
  · exact madeUpName_injective (congrArg ("PN" ++ ·) h)

/-- The line of a number fits the table exactly if it is the number of the port bit. -/
theorem numbered_declaration_iff {pins : PinTable} {k : Nat} :
    Numbered pins s (declaration (numberText k) (Text.identifier s)) ↔ k = pins.number s := by
  have hblank : numberText k = "" ↔ k = 0 := by
    rw [← numberText_injective.eq_iff]
    rfl
  unfold Numbered PinTable.number
  rw [declaration_inj, hblank]
  cases hget : Dict.get? pins s with
  | none => simp
  | some j =>
    simp only [Option.some.injEq, forall_eq', declaration_inj, reduceCtorEq, false_or,
      Option.getD_some]
    constructor
    · intro h
      by_cases hj : j = 0
      · rw [hj, h.2, hj]
      · apply numberText_injective
        rw [h.1 hj, numberText, if_neg hj]
    · intro h
      rw [h]
      exact ⟨fun hj => if_neg hj, Iff.rfl⟩

end Listing

/-- The bits of the ports are declared in order, each under its name as an identifier. The declaration of
a bit carries the number that the table has for the bit, and is blank exactly if the table has none or 0,
if and only if the table has the same number for the identifier. -/
theorem Design.numbered_iff (hg : d.toNetwork name = .ok g) (h : g.compile options = .ok out) :
    ∃ pinNodes, Listing.Declares options out (d.portNames.map Text.identifier) pinNodes ∧
      ∀ s ∈ d.portNames,
        Listing.Numbered options.pins s (Listing.pinLine options.pins (Text.identifier s)) ↔
          options.pins.number (Text.identifier s) = options.pins.number s := by
  simp only [Network.compile, Attempt.bind_eq_ok] at h
  rcases h with ⟨g1, h1, g2, h2, g3, h3, hlist⟩
  rcases (built_toNetwork hg).names_of_reduced h1 h2 h3 with ⟨hpins, sources, -, -, hpinNodes⟩
  refine ⟨sources.map (·.signal g), declares_listing hlist ?_ ?_, ?_⟩
  · rw [hpins, List.map_map]
    rfl
  · rw [hpinNodes, List.map_map]
    rfl
  · intro s _
    exact Listing.numbered_declaration_iff

/-- Numbers for the clock and for the first bit of the port `q`. -/
def Design.shiftRegisterPins : PinTable :=
  .ofList [("clk", 1), ("q0", 19)]

/-- The ports of the shift register have clean names, so every bit gets its number. -/
theorem Design.numbered_iff_shiftRegister :
    ∃ g out pinNodes, (shiftRegister "s").toNetwork "m" = .ok g ∧
      g.compile { pins := shiftRegisterPins } = .ok out ∧
      Listing.Declares { pins := shiftRegisterPins } out ["clk", "d", "q0", "q1"] pinNodes ∧
      (∀ s ∈ (shiftRegister "s").portNames, Listing.Numbered shiftRegisterPins s
        (Listing.pinLine shiftRegisterPins (Text.identifier s))) ∧
      Listing.pinLine shiftRegisterPins "q0" = "PIN  19  = q0;" := by
  have hrun : ((shiftRegister "s").run? "m" (·.compile { pins := shiftRegisterPins })).isSome := by
    decide +kernel
  rcases Option.isSome_iff_exists.mp hrun with ⟨out, h⟩
  rcases run?_eq_some.mp h with ⟨g, hg, hout⟩
  rcases numbered_iff hg hout with ⟨pinNodes, hdecl, hnum⟩
  have hnames : (shiftRegister "s").portNames.map Text.identifier = ["clk", "d", "q0", "q1"] := by
    decide +kernel
  have hsame : ∀ s ∈ (shiftRegister "s").portNames,
      shiftRegisterPins.number (Text.identifier s) = shiftRegisterPins.number s := by decide +kernel
  rw [hnames] at hdecl
  exact ⟨g, out, pinNodes, hg, hout, hdecl, fun s hs => (hnum s hs).mpr (hsame s hs),
    by decide +kernel⟩

/-- A wire from the port `a.b` to the port `y`. -/
def Design.dotted : Design where
  ports := .ofList [("a.b", ⟨"input", [.wire 2]⟩), ("y", ⟨"output", [.wire 2]⟩)]
  cells := Dict.empty
  nets := Dict.empty

/-- A number for the port `a.b`. -/
def Design.dottedPins : PinTable :=
  .ofList [("a.b", 5)]

/-- The table has a number for `a.b`, but the declaration of that port is blank. -/
theorem Design.not_numbered_dotted :
    (dotted.portNames.map Text.identifier).Nodup ∧ "a.b" ∈ dotted.portNames ∧
    ∃ g out, dotted.toNetwork "m" = .ok g ∧ g.compile { pins := dottedPins } = .ok out ∧
      Listing.Declares { pins := dottedPins } out ["a_b", "y"] [] ∧
      Listing.pinLine dottedPins "a_b" = "PIN    = a_b;" ∧ Dict.get? dottedPins "a.b" = some 5 ∧
      ¬ Listing.Numbered dottedPins "a.b" (Listing.pinLine dottedPins "a_b") := by
  refine ⟨by decide +kernel, by decide +kernel, ?_⟩
  have h : dotted.run? "m" (fun g =>
      g.branched >>= fun g1 => g1.simplified >>= fun g2 => g2.reduced none >>= fun g3 =>
        g3.listing { pins := dottedPins } >>= fun _ =>
          pure (g3.pins.map g3.nodeNameOf?, g3.pinNodes.map g3.nodeNameOf?)) =
      some (["a_b", "y"].map some, [].map some) := by
    decide +kernel
  simp only [run?_eq_some, Attempt.bind_eq_ok, Attempt.pure_eq_ok, Prod.mk.injEq] at h
  rcases h with ⟨g, hg, g1, h1, g2, h2, g3, h3, out, hlist, hpins, hpinNodes⟩
  refine ⟨g, out, hg, ?_, declares_listing hlist hpins hpinNodes, by decide +kernel,
    by decide +kernel, ?_⟩
  · simp only [Network.compile, Attempt.bind_eq_ok]
    exact ⟨g1, h1, g2, h2, g3, h3, hlist⟩
  · have hid : "a_b" = Text.identifier "a.b" := by decide +kernel
    rw [Listing.pinLine_eq, hid, Listing.numbered_declaration_iff]
    decide +kernel

end PldSynth
