import PldSynth.CommandLine.Run
import PldSynth.Proofs.Files.Writing

/-!
# What a command that fails leaves behind

Up to the passes a command only reads. From then on it writes intermediate listings, if they are asked for,
and the listing itself last. An intermediate listing is written to the output with another extension, so it can
come to stand in place of the output only if the output bears this very extension
(`execute_spares_output`). Then a command that fails later does leave something at the output
(`execute_overwrites_output_clearedLatch`).
-/

namespace PldSynth.CommandLine

variable {α β : Type} {w w' w'' : World} {ε : Type} {ext name path text : String}

/-! ## Runs on files that are data -/

/-- Run in `w`, the program ends well in `P`, or it fails and leaves a state in `E`. -/
structure Leads (x : Run (StateM World) α) (w : World) (P : α → World → Prop) (E : World → Prop) : Prop where
  ok : ∀ {a w'}, x.run w = (.ok a, w') → P a w'
  error : ∀ {e w'}, x.run w = (.error e, w') → E w'

namespace Leads

variable {x : Run (StateM World) α} {f : α → Run (StateM World) β} {P P' : α → World → Prop}
  {Q : β → World → Prop} {E E' : World → Prop}

theorem mono (h : Leads x w P E) (hP : ∀ a w', P a w' → P' a w') (hE : ∀ w', E w' → E' w') :
    Leads x w P' E' :=
  ⟨fun hrun => hP _ _ (h.ok hrun), fun hrun => hE _ (h.error hrun)⟩

theorem pure {a : α} (h : P a w) : Leads (pure a) w P E where
  ok hrun := by
    cases hrun
    exact h
  error hrun := by cases hrun

theorem throw {e : Failure} (h : E w) : Leads (throw e : Run (StateM World) α) w P E where
  ok hrun := by cases hrun
  error hrun := by
    cases hrun
    exact h

/-- One program after another. -/
theorem bind (h : Leads x w P E) (hf : ∀ a w', P a w' → Leads (f a) w' Q E) : Leads (x >>= f) w Q E := by
  have hseq : (x >>= f).run w = ExceptT.bindCont f (x.run w).1 (x.run w).2 := rfl
  rcases hx : x.run w with ⟨r, w'⟩
  rw [hx] at hseq
  cases r with
  | ok a =>
    have hrest := hf a w' (h.ok hx)
    exact ⟨fun hrun => hrest.ok (hseq.symm.trans hrun), fun hrun => hrest.error (hseq.symm.trans hrun)⟩
  | error e =>
    have hstop : (x >>= f).run w = (.error e, w') := hseq
    constructor
    · intro b w'' hrun
      cases hstop.symm.trans hrun
    · intro e' w'' hrun
      cases hstop.symm.trans hrun
      exact h.error hx

theorem ask {x : StateM World α} (h : P (x.run w).1 (x.run w).2) : Leads (ask x) w P E where
  ok hrun := by
    cases hrun
    exact h
  error hrun := by cases hrun

theorem orFail {cause : ε → Failure} {r : Except ε α} (hok : ∀ a, r = .ok a → P a w)
    (herror : ∀ e, r = .error e → E w) : Leads (orFail cause r) w P E := by
  cases r with
  | ok a => exact pure (hok a rfl)
  | error e => exact throw (herror e rfl)

end Leads

/-! ## Commands that only read -/

/-- The files are the same, and paths are seen from the same directory. -/
structure Undisturbed (w w' : World) : Prop where
  tree : w'.tree = w.tree
  place : w'.workingPlace = w.workingPlace

theorem Undisturbed.refl (w : World) : Undisturbed w w :=
  ⟨rfl, rfl⟩

theorem Undisturbed.trans (h : Undisturbed w w') (h' : Undisturbed w' w'') : Undisturbed w w'' :=
  ⟨h'.tree.trans h.tree, h'.place.trans h.place⟩

/-- The program disturbs nothing, whether it fails or not. -/
def Harmless (x : Run (StateM World) α) : Prop :=
  ∀ w, Leads x w (fun _ => Undisturbed w) (Undisturbed w)

namespace Harmless

variable {x : Run (StateM World) α} {f : α → Run (StateM World) β}

theorem pure (a : α) : Harmless (pure a) :=
  fun w => .pure (.refl w)

theorem throw (e : Failure) : Harmless (throw e : Run (StateM World) α) :=
  fun w => .throw (.refl w)

theorem bind (h : Harmless x) (hf : ∀ a, Harmless (f a)) : Harmless (x >>= f) := by
  intro w
  have hfirst := h w
  refine Leads.bind hfirst fun a w' hw' => ?_
  exact (hf a w').mono (fun _ _ h' => hw'.trans h') fun _ h' => hw'.trans h'

theorem ask {x : StateM World α} (h : ∀ w, Undisturbed w (x.run w).2) : Harmless (ask x) :=
  fun w => .ask (h w)

theorem orFail (cause : ε → Failure) (r : Except ε α) : Harmless (orFail cause r : Run (StateM World) α) :=
  fun w => .orFail (fun _ _ => .refl w) fun _ _ => .refl w

theorem isFile (path : String) : Harmless (CommandLine.ask (Host.isFile path)) :=
  .ask .refl

theorem read (path : String) : Harmless (CommandLine.ask (Host.read path)) :=
  .ask .refl

theorem note (line : String) : Harmless (CommandLine.ask (Host.note line)) :=
  .ask fun _ => ⟨rfl, rfl⟩

theorem readFile (path : String) : Harmless (readFile path) :=
  .bind (.read path) fun _ => .orFail _ _

/-- Reading settings from a file changes nothing. -/
theorem loadWith {γ : Type} (parse : String → Except ProjectError γ) (path : String) :
    Harmless (CommandLine.ask (loadWith parse path)) := by
  refine .ask fun w => ?_
  have hread : (Host.read path : StateM World _).run w = (w.tree.read w.workingPlace path, w) := rfl
  rw [PldSynth.loadWith, StateT.run_bind, hread]
  cases w.tree.read w.workingPlace path <;> exact .refl w

theorem loadConfig (given : Option String) : Harmless (loadConfig given) := by
  unfold CommandLine.loadConfig
  extract_lets rest
  have hrest : ∀ found, Harmless (rest found) := by
    intro found
    cases found with
    | none => exact .pure _
    | some path => exact .bind (.loadWith _ path) fun _ => .bind (.orFail _ _) fun _ => .pure _
  split
  · exact .bind (.pure _) hrest
  · exact .bind (.ask .refl) fun dir => .bind (.ask .refl) hrest

theorem loadPins (path : String) : Harmless (loadPins path) := by
  refine .bind (.isFile path) fun found => ?_
  cases found with
  | true => exact .bind (.loadWith _ path) fun _ => .orFail _ _
  | false => exact .throw _

theorem resolveOptions (args : CompileArgs) (config : Config) (dir : String) :
    Harmless (resolveOptions args config dir) := by
  unfold CommandLine.resolveOptions
  split
  · exact .bind (.pure _) fun _ => .pure _
  · exact .bind (.loadPins _) fun _ => .bind (.pure _) fun _ => .pure _

end Harmless

/-! ## Writing -/

/-- The extensions of the intermediate listings. -/
def intermediateExtensions : List String :=
  ["it1", "it2"]

/-- The path may be the output: it is the one that is given, or it has the name of a module. -/
def CompileArgs.MayWrite (args : CompileArgs) (output : String) : Prop :=
  args.output = some output ∨ args.output = none ∧ ∃ name, output = name ++ ".pld"

/-- The output has stayed as it was in `w`, or its own extension is that of an intermediate listing, which now
stands there. -/
structure Spares (args : CompileArgs) (output : String) (w w' : World) : Prop where
  place : w'.workingPlace = w.workingPlace
  output : w'.textAt? output = w.textAt? output ∨ args.intermediate = true ∧
    ∃ ext ∈ intermediateExtensions, PathName.withExtension output ext = output ∧
      ∃ (g : Network) (options : Options) (text : String), g.listing options = .ok text ∧
        w'.textAt? output = some text

variable {args : CompileArgs} {output : String}

theorem Spares.refl (w : World) : Spares args output w w :=
  ⟨rfl, .inl rfl⟩

theorem Spares.undisturbed (h : Spares args output w w') (hu : Undisturbed w' w'') :
    Spares args output w w'' := by
  have htext : w''.textAt? output = w'.textAt? output := by
    rw [World.textAt?, World.textAt?, hu.tree, hu.place]
  refine ⟨hu.place.trans h.place, ?_⟩
  rw [htext]
  exact h.output

theorem intermediateExtensions_spec (h : ext ∈ intermediateExtensions) :
    '/' ∉ ext.toList ∧ ∃ c, ext.toList.getLast? = some c ∧ c ≠ 'd' := by
  simp only [intermediateExtensions, List.mem_cons, List.not_mem_nil, or_false] at h
  rcases h with rfl | rfl
  · exact ⟨by decide, '1', rfl, by decide⟩
  · exact ⟨by decide, '2', rfl, by decide⟩

theorem getLast?_default (name : String) : (name ++ ".pld").toList.getLast? = some 'd' := by
  simp

/-- An intermediate listing ends up in place of the output only if the output has its extension. -/
theorem withExtension_of_last {last : String} (hmay : args.MayWrite output)
    (hext : ext ∈ intermediateExtensions) (hout : (FileTree.namesOf output).getLast? = some last)
    (hdump : (FileTree.namesOf (PathName.withExtension (args.output.getD (name ++ ".pld")) ext)).getLast? =
      some last) (hhere : FileTree.isHere last = false) (hup : last ≠ "..") :
    PathName.withExtension output ext = output := by
  rcases intermediateExtensions_spec hext with ⟨hslash, c, hc, hne⟩
  rcases hmay with hgiven | ⟨hnone, module, rfl⟩
  · rw [hgiven] at hdump
    exact PathName.withExtension_eq_self hslash hout hdump hhere
  · -- the name of the output ends in another letter than that of the listing
    rw [hnone] at hdump
    have hlast := PathName.getLast?_withExtension hslash (getLast?_default name) (by decide) (by decide) hdump
      hhere hup hc
    rcases PathName.exists_splits (module ++ ".pld") with ⟨f, x, h⟩
    obtain rfl := Option.mem_unique h.getLast?_namesOf hout
    rw [String.toList_ofList, h.getLast? (getLast?_default module) (by decide)] at hlast
    exact absurd (Option.some.inj hlast).symm hne

/-- Writing an intermediate listing spares the output, or it is the exception. -/
theorem Spares.write {g : Network} {options : Options} (h : Spares args output w w')
    (hmay : args.MayWrite output) (hi : args.intermediate) (hext : ext ∈ intermediateExtensions)
    (htext : g.listing options = .ok text) : Spares args output w
      (w'.write (PathName.withExtension (args.output.getD (name ++ ".pld")) ext) text).2 := by
  rcases w'.write_cases (PathName.withExtension (args.output.getD (name ++ ".pld")) ext) text with
    ⟨tree, htree, hw⟩ | ⟨fault, hw⟩
  · rw [hw]
    refine ⟨h.place, ?_⟩
    rcases FileTree.textAt?_write htree output with hsame | ⟨last, hout, hdump, hhere, hup, hnew⟩
    · have hkeep : World.textAt? { w' with tree } output = w'.textAt? output := hsame
      rw [hkeep]
      exact h.output
    · exact .inr ⟨hi, ext, hext, withExtension_of_last hmay hext hout hdump hhere hup, g, options, text, htext,
        hnew⟩
  · rw [hw]
    exact h

/-! ## Compiling -/

section

variable {name : String} {options : Options} {g : Network}

theorem Spares.leads (h : Spares args output w w') {x : Run (StateM World) α} (hx : Harmless x) :
    Leads x w' (fun _ => Spares args output w) (Spares args output w) :=
  (hx w').mono (fun _ _ hu => h.undisturbed hu) fun _ hu => h.undisturbed hu

theorem leads_writeFile {E : World → Prop} (h : E (w.write path text).2) :
    Leads (writeFile path text) w (fun _ => E) E :=
  .bind (.ask h) fun _ _ hw => .orFail (fun _ _ => hw) fun _ _ => hw

/-- A write that fails changes nothing. -/
theorem leads_writeFile_or_fails {E : World → Prop} (h : E w) :
    Leads (writeFile path text) w (fun _ _ => True) E := by
  refine .bind (.ask ?_) fun r w' hw =>
    .orFail (fun _ _ => trivial) hw
  intro fault hfault
  rcases w.write_cases path text with ⟨tree, -, hw⟩ | ⟨fault', hw⟩
  · have hok : (w.write path text).1 = .error fault := hfault
    rw [hw] at hok
    cases hok
  · have hsame : (w.write path text).2 = w := by rw [hw]
    exact hsame.symm ▸ h

/-- The listing after a pass. -/
theorem Spares.writeIntermediate (h : Spares args output w w') (hmay : args.MayWrite output)
    (hi : args.intermediate) (hext : ext ∈ intermediateExtensions) :
    Leads (writeIntermediate g options (args.output.getD (name ++ ".pld")) ext) w'
      (fun _ => Spares args output w) (Spares args output w) := by
  have hlisting : Leads (orStop (g.listing options)) w'
      (fun text w'' => g.listing options = .ok text ∧ Spares args output w w'') (Spares args output w) :=
    .orFail (fun text htext => ⟨htext, h⟩) fun _ _ => h
  refine hlisting.bind fun text w'' hw'' => ?_
  exact leads_writeFile (hw''.2.write hmay hi hext hw''.1)

/-- A command that stops before the listing is written spares the output. -/
theorem Spares.compileTo (h : Spares args output w w') (hmay : args.MayWrite output) :
    Leads (compileTo g options (args.output.getD (name ++ ".pld")) args.intermediate) w'
      (fun _ _ => True) (Spares args output w) := by
  refine .bind (h.leads (.orFail _ _)) fun g1 w1 h1 => ?_
  extract_lets rest1
  have hrest1 : ∀ w1, Spares args output w w1 → Leads (rest1 ()) w1 (fun _ _ => True) (Spares args output w) := by
    intro w1 h1
    refine .bind (h1.leads (.orFail _ _)) fun g2 w2 h2 => ?_
    extract_lets rest2
    have hrest2 : ∀ w2, Spares args output w w2 →
        Leads (rest2 ()) w2 (fun _ _ => True) (Spares args output w) := by
      intro w2 h2
      refine .bind (h2.leads (.orFail _ _)) fun g3 w3 h3 => ?_
      refine .bind (h3.leads (.orFail _ _)) fun text w4 h4 => ?_
      exact .bind (leads_writeFile_or_fails h4) fun _ _ _ => .pure trivial
    split
    · rename_i hi
      exact .bind (h2.writeIntermediate hmay hi (by simp [intermediateExtensions])) fun _ w3 h3 => hrest2 w3 h3
    · exact hrest2 w2 h2
  split
  · rename_i hi
    exact .bind (h1.writeIntermediate hmay hi (by simp [intermediateExtensions])) fun _ w2 h2 => hrest1 w2 h2
  · exact hrest1 w1 h1

/-- A compilation that fails has spared the output. -/
theorem spares_runCompile (inv : Invocation) (hmay : args.MayWrite output) :
    Leads (runCompile inv args) w (fun _ _ => True) (Spares args output w) := by
  refine .bind ((Spares.refl w).leads (.loadConfig _)) fun settings w1 h1 => ?_
  refine .bind (h1.leads (.isFile _)) fun found w2 h2 => ?_
  extract_lets rest
  have hrest : Leads (rest ()) w2 (fun _ _ => True) (Spares args output w) := by
    refine .bind (h2.leads (.resolveOptions _ _ _)) fun options w3 h3 => ?_
    extract_lets rest'
    have hrest' : ∀ w3, Spares args output w w3 →
        Leads (rest' ()) w3 (fun _ _ => True) (Spares args output w) := by
      intro w3 h3
      refine .bind (h3.leads (.readFile _)) fun text w4 h4 => ?_
      refine .bind (h4.leads (.orFail _ _)) fun g w5 h5 => ?_
      refine .bind (h5.leads (.orFail _ _)) fun name w6 h6 => ?_
      refine .bind (h6.compileTo hmay) fun g' w7 _ => ?_
      split
      · exact .pure trivial
      · exact .bind (P := fun _ _ => True) (.ask trivial) fun _ _ _ => .ask trivial
    split
    · exact .bind (h3.leads (.note _)) fun _ w4 h4 => hrest' w4 h4
    · exact hrest' w3 h3
  split
  · exact hrest
  · exact .bind (P := fun _ _ => False) (.throw h2) fun _ _ h => h.elim

end

/-- If a command that compiles fails, for whatever cause, the file at its output is as it was before, present
or absent. The one exception is an output that bears the extension of an intermediate listing which is asked
for: then this listing may have come to stand there. -/
theorem execute_spares_output {argv : List String} {inv : Invocation} {why : Failure}
    (hparse : Invocation.parse argv = .ok inv) (hcommand : inv.command = .compile args)
    (hmay : args.MayWrite output) (hrun : (execute argv : StateM World Ending).run w = (.failed why, w')) :
    w'.textAt? output = w.textAt? output ∨ args.intermediate = true ∧
      ∃ ext ∈ intermediateExtensions, PathName.withExtension output ext = output ∧
        ∃ (g : Network) (options : Options) (text : String), g.listing options = .ok text ∧
          w'.textAt? output = some text := by
  have hexec : (execute argv : StateM World Ending).run w =
      match (runCompile inv args : Run (StateM World) Unit).run w with
      | (.ok (), w') => (.done, w')
      | (.error why, w') => (.failed why, w') := by
    unfold execute
    rw [hparse]
    simp only [runCommand, hcommand]
    change StateT.run (StateT.bind _ _) w = _
    simp only [StateT.run, StateT.bind]
    rcases (runCompile inv args : Run (StateM World) Unit).run w with ⟨r, w1⟩
    cases r <;> rfl
  rw [hexec] at hrun
  split at hrun
  · cases hrun
  · rename_i hfailed
    cases hrun
    exact ((spares_runCompile inv hmay).error hfailed).output

/-- A directory with the netlist of a latch that is cleared for good, which no listing can express. -/
def clearedLatch : World where
  tree := ({} : FileTree).addFile ["a.json"] <|
    "\x7b\"modules\": \x7b\"m\": \x7b\"ports\": \x7b\"d\": \x7b\"direction\": \"input\", \"bits\": [2]\x7d, " ++
    "\"q\": \x7b\"direction\": \"output\", \"bits\": [4]\x7d\x7d, \"cells\": \x7b\"l\": \x7b\"type\": \"LDCP\", " ++
    "\"connections\": \x7b\"D\": [2], \"G\": [2], \"CLR\": [\"1\"], \"Q\": [4]\x7d\x7d\x7d\x7d\x7d\x7d"

/-- The arguments that compile the netlist to a path, with intermediate listings. -/
def withIntermediate (output : String) : List String :=
  ["cupl", "a.json", "-o", output, "-i"]

/-- Nothing is left at an output whose extension is its own. -/
theorem execute_spares_output_clearedLatch : ∃ inv args why w',
    Invocation.parse (withIntermediate "out.pld") = .ok inv ∧ inv.command = .compile args ∧
    args.MayWrite "out.pld" ∧
    (execute (withIntermediate "out.pld") : StateM World Ending).run clearedLatch = (.failed why, w') ∧
    w'.textAt? "out.pld" = clearedLatch.textAt? "out.pld" := by
  have hfails : ((execute (withIntermediate "out.pld") : StateM World Ending).run clearedLatch).1 =
      .failed (.compile (.network (.latchControl "l" .clear))) := by
    decide +kernel
  have hparse : Invocation.parse (withIntermediate "out.pld") = .ok
      { command := .compile { input := "a.json", output := some "out.pld", intermediate := true } } := by
    decide +kernel
  rcases hrun : (execute (withIntermediate "out.pld") : StateM World Ending).run clearedLatch with ⟨ending, w'⟩
  rw [hrun] at hfails
  subst hfails
  refine ⟨_, _, _, _, hparse, rfl, .inl rfl, rfl, ?_⟩
  rcases execute_spares_output hparse rfl (.inl rfl) hrun with hkept | ⟨-, ext, hext, heq, -⟩
  · exact hkept
  · have hother : ∀ ext ∈ intermediateExtensions, PathName.withExtension "out.pld" ext ≠ "out.pld" := by
      decide +kernel
    exact absurd heq (hother ext hext)

/-- The intermediate listing is left at an output that bears its extension. -/
theorem execute_overwrites_output_clearedLatch :
    Invocation.parse (withIntermediate "out.it1") = .ok
      { command := .compile { input := "a.json", output := some "out.it1", intermediate := true } } ∧
    ((execute (withIntermediate "out.it1") : StateM World Ending).run clearedLatch).1 =
      .failed (.compile (.network (.latchControl "l" .clear))) ∧
    ((execute (withIntermediate "out.it1") : StateM World Ending).run clearedLatch).2.textAt? "out.it1" ≠
      clearedLatch.textAt? "out.it1" := by
  decide +kernel

end PldSynth.CommandLine
