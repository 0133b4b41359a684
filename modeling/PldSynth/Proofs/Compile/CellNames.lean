import PldSynth.Compile
import PldSynth.Proofs.Compile.Acceptance
import PldSynth.Proofs.Netlist.Acceptance
import PldSynth.Proofs.Netlist.Interference

/-!
# The names of the cells

The cells of a design are drawn in the order of their names, and registers and buffers are taken over in
this order. If they do not stand in each other's way (`Design.Orderless`), whether there is a listing does
not depend on the order, and so the cells may bear any names (`compile_renamed_iff`). For a buffer that
reads another buffer it does: the pin of the outer one cannot take over both
(`compile_renamed_chain`). With a limit on the pin nodes it does for a gate with two outputs as well
(`Design.renamed_forkedInverter`). No such run is known for irregular gates without a limit or for a
second output of a buffer, but the account of the passes that is used here leaves them out.
-/

namespace PldSynth

open Attempt List Network

variable {d d' : Design} {g g' : Network} {ns ns' : List NodeId} {name : String} {options : Options}
  {e : String × Cell} {text : String} {which : Option String}

namespace Design

/-- How many gates and inverters the design has. -/
def gateCount (d : Design) : Nat :=
  d.cells.entries.countP fun e => (Library.kindOfType? e.2.type).any NodeKind.isCombinational

/-- The cells of the design may be taken in any order: wires have numbers that are not negative, gates and
buffers are regular, no buffer reads another one, no register reads another one that a bidirectional port
reads too. If the pin nodes have to keep within a limit, there are fewer gates than an expression may have
levels. -/
structure Orderless (d : Design) (options : Options) : Prop where
  natural : ∀ b ∈ d.bindings, b.bit.isNatural = true
  regular : d.hasRegularCells = true
  buffers : d.BuffersApart
  registers : d.RegistersApart
  few : options.pinNodeLimit = none ∨ d.gateCount < Equation.maxDepth

/-! ## Designs in another order -/

namespace Reorders

variable (h : d.Reorders d')
include h

theorem symm : d'.Reorders d :=
  ⟨h.ports.symm, h.cells.symm⟩

theorem exists_cell (he : e ∈ d'.cells.entries) : ∃ s, (s, e.2) ∈ d.cells.entries := by
  have hmem : e.2 ∈ d.cells.entries.map Prod.snd := h.cells.mem_iff.mpr (mem_map_of_mem he)
  rcases mem_map.mp hmem with ⟨⟨s, cell⟩, hcell, rfl⟩
  exact ⟨s, hcell⟩

theorem bindings : d.bindings.Perm d'.bindings := by
  have hcells := h.cells.flatMap_right Cell.bindings
  rw [flatMap_map, flatMap_map] at hcells
  rw [Design.bindings, Design.bindings, h.ports]
  exact hcells.append_left _

/-- Whether a design has a network does not depend on the order of its cells. -/
theorem wellFormed (hd : d.WellFormed) : d'.WellFormed where
  literal b hb := hd.literal b (h.bindings.mem_iff.mpr hb)
  outputs := (h.bindings.filterMap _).nodup_iff.mp hd.outputs
  portDirection := by
    rw [h.ports]
    exact hd.portDirection
  cellType e he := by
    rcases h.exists_cell he with ⟨s, hs⟩
    exact hd.cellType (s, e.2) hs
  oneBit e he := by
    rcases h.exists_cell he with ⟨s, hs⟩
    exact hd.oneBit (s, e.2) hs
  hasPort e he := by
    rcases h.exists_cell he with ⟨s, hs⟩
    exact hd.hasPort (s, e.2) hs
  driven b hb w hw := by
    rcases hd.driven b (h.bindings.mem_iff.mpr hb) w hw with ⟨b', hb', hdrives⟩
    exact ⟨b', h.bindings.mem_iff.mp hb', hdrives⟩

theorem gateCount : d'.gateCount = d.gateCount := by
  have hcount := h.cells.countP_eq fun cell => (Library.kindOfType? cell.type).any NodeKind.isCombinational
  rw [countP_map, countP_map] at hcount
  exact hcount.symm

/-- An acceptable network stays acceptable if the cells are drawn in another order. -/
theorem acceptable (hd : d.Faithful ns g) (hd' : d'.Faithful ns' g') (hreg : d.hasRegularCells)
    (hreg' : d'.hasRegularCells) (hok : g.Acceptable) : g'.Acceptable := by
  rcases h.exists_resembles hd hd' with ⟨N, C, hlike, hname⟩
  have hacyclic := hlike.acyclic hd.sound hd'.sound hok.acyclic
  -- without a circle on either side, what the search for loops grants holds on both
  have hraw := (hd.toBuilt.fresh_of_hasRegularCells hreg ((checkLoops_iff hd.sound).mpr hok.acyclic)).toRaw
  have hraw' := (hd'.toBuilt.fresh_of_hasRegularCells hreg' ((checkLoops_iff hd'.sound).mpr hacyclic)).toRaw
  exact ⟨hacyclic, hlike.controlsIdle hd'.sound.toWired hname hok.idle, hlike.noJams hraw hraw' hok.noJams,
    hlike.tractable hd.sound.toWired hok.tractable⟩

end Reorders

/-! ## Designs that may be reordered -/

theorem countP_of_forall₂ {α β : Type} {R : α → β → Prop} {p : α → Bool} {q : β → Bool} {l : List α}
    {l' : List β} (h : List.Forall₂ R l l') (hR : ∀ {a b}, R a b → p a = q b) : l.countP p = l'.countP q := by
  induction h with
  | nil => rfl
  | cons hab _ ih => rw [countP_cons, countP_cons, hR hab, ih]

/-- The network has the gates of the design. -/
theorem Faithful.length_gates (hd : d.Faithful ns g) : g.gates.length = d.gateCount := by
  have hns : ns = g.cells.filter fun n => !g.hasKind (· = .constant) n := by
    have hnodes := hd.nodes
    rw [boundNodes, List.cons.injEq] at hnodes
    exact hnodes.2.symm
  -- constants are left out of the rows, but no gate is a constant
  have hgates : g.gates = ns.filter (g.hasKind NodeKind.isCombinational) := by
    rw [hns, filter_filter]
    refine filter_congr fun n _ => ?_
    cases hn : g.hasKind NodeKind.isCombinational n with
    | false => rfl
    | true =>
      rcases hasKind_iff.mp hn with ⟨k, hk, hcomb⟩
      have hne : k ≠ .constant := by
        rintro rfl
        cases hcomb
      simp [hasKind, hk, hne]
  have hcount : (d.cells.entries.map Prod.snd).countP (fun cell =>
      (Library.kindOfType? cell.type).any NodeKind.isCombinational) =
        ns.countP (g.hasKind NodeKind.isCombinational) := by
    refine countP_of_forall₂ hd.toRows.cells fun {cell n} hcell => ?_
    rcases hcell.1 with ⟨k, hk, hkn⟩
    rw [hk, hasKind, hkn]
  rw [countP_map] at hcount
  rw [hgates, ← countP_eq_length_filter, ← hcount]
  rfl

namespace Orderless

/-- A design with wires that are not negative is wired as it says. -/
theorem literalsApart (hd : d.Orderless options) : d.LiteralsApart := by
  intro b hb w hw
  have hnat := hd.natural b hb
  rw [(Binding.reads?_eq_some.mp hw).2] at hnat
  exact .inl (of_decide_eq_true hnat)

/-- There is a listing if and only if there is a network and it is acceptable. -/
theorem exists_compile_iff (hd : d.Orderless options) (hg : d.toNetwork name = .ok g) :
    (∃ text, g.compile options = .ok text) ↔ g.Acceptable := by
  rcases exists_faithful hd.literalsApart hg with ⟨ns, hf⟩
  refine hf.toBuilt.exists_compile_iff hd.regular
    ⟨hf.constantsSole, hf.buffersApart hd.buffers, hf.registersApart hd.registers⟩ options ?_
  rw [hf.length_gates]
  exact hd.few

/-- A design with a listing has one if its cells are taken in another order. -/
theorem exists_compile (hd : d.Orderless options) (hd' : d'.Orderless options) (h : d.Reorders d')
    (hok : ∃ g text, d.toNetwork name = .ok g ∧ g.compile options = .ok text) :
    ∃ g text, d'.toNetwork name = .ok g ∧ g.compile options = .ok text := by
  rcases hok with ⟨g, text, hg, htext⟩
  have hformed := h.wellFormed ((exists_toNetwork_iff hd.natural).mp ⟨g, hg⟩)
  rcases (exists_toNetwork_iff hd'.natural).mpr hformed with ⟨g', hg'⟩
  rcases exists_faithful hd.literalsApart hg with ⟨ns, hf⟩
  rcases exists_faithful hd'.literalsApart hg' with ⟨ns', hf'⟩
  have hacc := h.acceptable hf hf' hd.regular hd'.regular ((hd.exists_compile_iff hg).mp ⟨text, htext⟩)
  rcases (hd'.exists_compile_iff hg').mpr hacc with ⟨text', htext'⟩
  exact ⟨g', text', hg', htext'⟩

end Orderless

/-! ## Other names -/

/-- `d'` is `d` with its cells renamed. -/
structure Renames (rename : String → String) (d d' : Design) : Prop where
  ports : d'.ports = d.ports
  nets : d'.nets = d.nets
  cells : d'.cells.entries.Perm (d.cells.entries.map fun e => (rename e.1, e.2))

namespace Renames

variable {rename : String → String} (h : Renames rename d d')
include h

theorem reorders : d.Reorders d' := by
  refine ⟨h.ports, ?_⟩
  have hcells := h.cells.map Prod.snd
  rw [map_map] at hcells
  exact hcells.symm

theorem exists_cell (he : e ∈ d'.cells.entries) : ∃ e0 ∈ d.cells.entries, e = (rename e0.1, e0.2) := by
  rcases mem_map.mp (h.cells.mem_iff.mp he) with ⟨e0, he0, heq⟩
  exact ⟨e0, he0, heq.symm⟩

/-- Renaming the cells does not make their order count. -/
theorem orderless (hd : d.Orderless options) : d'.Orderless options where
  natural b hb := hd.natural b (h.reorders.bindings.mem_iff.mpr hb)
  regular := by
    refine all_eq_true.mpr fun e he => ?_
    rcases h.reorders.exists_cell he with ⟨s, hs⟩
    exact all_eq_true.mp hd.regular (s, e.2) hs
  buffers := by
    -- a cell that reads itself bears one name before and after
    intro e he e' he' hk hk' b hb b' hb' w hw hw'
    rcases h.exists_cell he with ⟨e0, he0, rfl⟩
    rcases h.exists_cell he' with ⟨e0', he0', rfl⟩
    exact congrArg rename (hd.buffers e0 he0 e0' he0' hk hk' b hb b' hb' w hw hw')
  registers := by
    intro e he e' he' hk hk' b hb b' hb' w hw hw'
    rcases h.exists_cell he with ⟨e0, he0, rfl⟩
    rcases h.exists_cell he' with ⟨e0', he0', rfl⟩
    rw [h.ports]
    exact fun p hp hdir hreads =>
      congrArg rename (hd.registers e0 he0 e0' he0' hk hk' b hb b' hb' w hw hw' p hp hdir hreads)
  few := by
    rw [h.reorders.gateCount]
    exact hd.few

end Renames

end Design

/-- The listing of a text is that of the network of its design. -/
theorem compile_of_select
    (htext : (Netlist.parse text >>= fun netlist => netlist.select which) = .ok (name, d)) :
    compile text which options = (do
      let net ← (d.toNetwork name).mapError .netlist
      (net.compile options).mapError .network) := by
  rcases bind_eq_ok.mp htext with ⟨netlist, hparse, hselect⟩
  simp only [compile, Netlist.network, hparse, ok_bind, hselect]

theorem exists_compile_iff
    (htext : (Netlist.parse text >>= fun netlist => netlist.select which) = .ok (name, d)) :
    (∃ out, compile text which options = .ok out) ↔
      ∃ g out, d.toNetwork name = .ok g ∧ g.compile options = .ok out := by
  simp only [compile_of_select htext, bind_eq_ok, mapError_eq_ok]
  exact exists_comm

/-- Two texts that differ in the names of the cells of the selected design only both have a listing or both
have none, if the cells of the design may be taken in any order. -/
theorem compile_renamed_iff {text text' : String} {which : Option String} {rename : String → String}
    (htext : (Netlist.parse text >>= fun netlist => netlist.select which) = .ok (name, d))
    (htext' : (Netlist.parse text' >>= fun netlist => netlist.select which) = .ok (name, d'))
    (h : d.Renames rename d') (hd : d.Orderless options) :
    (∃ out, compile text which options = .ok out) ↔ ∃ out, compile text' which options = .ok out := by
  have hd' := h.orderless hd
  rw [exists_compile_iff htext, exists_compile_iff htext']
  exact ⟨hd.exists_compile hd' h.reorders, hd'.exists_compile hd h.reorders.symm⟩

/-! ### A cell that a buffer reads -/

/-- The parts of the text of a buffer that is enabled by wire 2. -/
def bufferParts (data output : String) : List String :=
  ["\x7b\"type\":\"$_TBUF_\",\"port_directions\":\x7b\"A\":\"input\",",
    "\"E\":\"input\",\"Y\":\"output\"\x7d,\"connections\":\x7b\"A\":[", data, "],\"E\":[2],\"Y\":[", output,
    "]\x7d\x7d"]

/-- The parts of the text of a register between the wires 2 and 3. -/
def registerParts : List String :=
  ["\x7b\"type\":\"FDCP\",\"connections\":\x7b\"CK\":[2],\"D\":[2],\"Q\":[3]\x7d\x7d"]

/-- The text of a netlist in which a buffer at the output reads another cell. -/
def readByBuffer (inner : String) (cell : List String) (outer : String) : String :=
  .ofList (List.flatMap String.toList
    (["\x7b\"modules\":\x7b\"m\":\x7b\"ports\":\x7b\"a\":\x7b\"direction\":\"input\",",
      "\"bits\":[2]\x7d,\"y\":\x7b", "\"direction\":\"output\",\"bits\":[4]\x7d\x7d,\"cells\":\x7b\"",
      inner, "\":"] ++ cell ++ [",\"", outer, "\":"] ++ bufferParts "3" "4" ++ ["\x7d\x7d\x7d\x7d"]))

/-- What the text of a buffer says. -/
def Cell.buffer (data output : Int) : Cell :=
  ⟨"$_TBUF_", .ofList [("A", "input"), ("E", "input"), ("Y", "output")],
    .ofList [("A", [.wire data]), ("E", [.wire 2]), ("Y", [.wire output])]⟩

/-- What the text of the register says. -/
def Cell.register : Cell :=
  ⟨"FDCP", .ofList [], .ofList [("CK", [.wire 2]), ("D", [.wire 2]), ("Q", [.wire 3])]⟩

/-- What the text of the netlist says. -/
def Design.readByBuffer (inner : String) (cell : Cell) (outer : String) : Design where
  ports := .ofList [("a", ⟨"input", [.wire 2]⟩), ("y", ⟨"output", [.wire 4]⟩)]
  cells := .ofList [(inner, cell), (outer, .buffer 3 4)]
  nets := .ofList []

/-- A netlist with one design is read off the characters of its text. -/
theorem select_of_toList {cs : List Char} (hcs : text.toList = cs)
    (h : (((Json.Reading.run .blank [] cs).bind Json.ofTokens?).bind Netlist.ofJson?).map
      (Dict.entries ∘ Netlist.designs) = some [(name, d)]) :
    (Netlist.parse text >>= fun netlist => netlist.select none) = .ok (name, d) := by
  rcases Option.map_eq_some_iff.mp h with ⟨netlist, hread, hentries⟩
  rw [← hcs] at hread
  have hparse : (Json.parse? text).bind Netlist.ofJson? = some netlist := hread
  have hdesigns : netlist.designs.entries = [(name, d)] := hentries
  rw [Netlist.parse, hparse, ok_bind, Netlist.select, hdesigns]

/-- A register that a buffer reads may be drawn first or last. -/
theorem compile_renamed_iff_register :
    (∃ out, compile (readByBuffer "r" registerParts "t") none { pinNodeLimit := some 0 } = .ok out) ∧
      ∃ out, compile (readByBuffer "u" registerParts "t") none { pinNodeLimit := some 0 } = .ok out := by
  have htext : (Netlist.parse (readByBuffer "r" registerParts "t") >>= fun netlist => netlist.select none) =
      .ok ("m", .readByBuffer "r" .register "t") :=
    select_of_toList String.toList_ofList (by decide +kernel)
  have htext' : (Netlist.parse (readByBuffer "u" registerParts "t") >>= fun netlist => netlist.select none) =
      .ok ("m", .readByBuffer "u" .register "t") :=
    select_of_toList String.toList_ofList (by decide +kernel)
  have hrenames : (Design.readByBuffer "r" .register "t").Renames (fun s => if s = "r" then "u" else s)
      (.readByBuffer "u" .register "t") :=
    ⟨rfl, rfl, by decide +kernel⟩
  have horderless : (Design.readByBuffer "r" .register "t").Orderless { pinNodeLimit := some 0 } :=
    ⟨by decide +kernel, by decide +kernel, by decide +kernel, by decide +kernel, .inr (by decide +kernel)⟩
  have hfirst : ∃ out,
      compile (readByBuffer "r" registerParts "t") none { pinNodeLimit := some 0 } = .ok out := by
    rw [compile_of_select htext]
    apply exists_of_isOk
    decide +kernel
  exact ⟨hfirst, (compile_renamed_iff htext htext' hrenames horderless).mp hfirst⟩

/-- A buffer that a buffer reads. Drawn first, it gets a pin node, and then the pin takes over the other
one. Drawn last, it finds the pin taken. -/
theorem compile_renamed_chain :
    (Netlist.parse (readByBuffer "s" (bufferParts "2" "3") "t") >>= fun netlist => netlist.select none) =
      .ok ("m", .readByBuffer "s" (.buffer 2 3) "t") ∧
    (Netlist.parse (readByBuffer "u" (bufferParts "2" "3") "t") >>= fun netlist => netlist.select none) =
      .ok ("m", .readByBuffer "u" (.buffer 2 3) "t") ∧
    (Design.readByBuffer "s" (.buffer 2 3) "t").Renames (fun s => if s = "s" then "u" else s)
      (.readByBuffer "u" (.buffer 2 3) "t") ∧
    (∃ out, compile (readByBuffer "s" (bufferParts "2" "3") "t") none {} = .ok out) ∧
    compile (readByBuffer "u" (bufferParts "2" "3") "t") none {} = .error (.network (.secondBuffer "y")) := by
  have htext : (Netlist.parse (readByBuffer "s" (bufferParts "2" "3") "t") >>= fun netlist =>
      netlist.select none) = .ok ("m", .readByBuffer "s" (.buffer 2 3) "t") :=
    select_of_toList String.toList_ofList (by decide +kernel)
  have htext' : (Netlist.parse (readByBuffer "u" (bufferParts "2" "3") "t") >>= fun netlist =>
      netlist.select none) = .ok ("m", .readByBuffer "u" (.buffer 2 3) "t") :=
    select_of_toList String.toList_ofList (by decide +kernel)
  refine ⟨htext, htext', ⟨rfl, rfl, by decide +kernel⟩, ?_, ?_⟩
  · rw [compile_of_select htext]
    apply exists_of_isOk
    decide +kernel
  · rw [compile_of_select htext']
    decide +kernel

/-! ### A gate with two outputs -/

/-- An inverter with two outputs, each of which clocks a register and is its data. -/
def Design.forkedInverter (r s : String) : Design where
  ports := .ofList [("a", ⟨"input", [.wire 2]⟩), ("y", ⟨"output", [.wire 2]⟩)]
  cells := .ofList [
    ("n", ⟨"$_NOT_", .ofList [("A", "input"), ("Y", "output"), ("Z", "output")],
      .ofList [("A", [.wire 2]), ("Y", [.wire 5]), ("Z", [.wire 6])]⟩),
    (r, .ofRegister "FDCP" [("D", .wire 5), ("CK", .wire 5), ("Q", .wire 7)]),
    (s, .ofRegister "FDCP" [("D", .wire 6), ("CK", .wire 6), ("Q", .wire 8)])]
  nets := .ofList []

/-- With a limit on the pin nodes, gates have to be regular: one order of the registers has a listing, the
other one does not. -/
theorem Design.renamed_forkedInverter :
    (forkedInverter "r" "s").Renames (fun x => if x = "r" then "s" else if x = "s" then "r" else x)
      (forkedInverter "s" "r") ∧
    (forkedInverter "r" "s").hasRegularCells = false ∧ (forkedInverter "r" "s").BuffersApart ∧
    (forkedInverter "r" "s").RegistersApart ∧
    (forkedInverter "r" "s").run? "m" (·.compile { pinNodeLimit := some 0 }) = none ∧
    ((forkedInverter "s" "r").run? "m" (·.compile { pinNodeLimit := some 0 })).isSome = true := by
  refine ⟨⟨rfl, rfl, ?_⟩, ?_, ?_, ?_, ?_, ?_⟩ <;> decide +kernel

end PldSynth
