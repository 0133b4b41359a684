import PldSynth.Proofs.Compile.Combinational
import PldSynth.Proofs.Network.Rehosting

/-!
# Designs with registers

Registers and buffers cut a design into pieces of logic: their outputs are given, like input ports and
constants, and the design computes what their inputs read. The passes keep these readings. The first
two drop nothing but idle latch controls (`Design.readings_simplified`), and replacing pin nodes by
copies of logic changes no reading, whatever was taken over before (`Design.readings_expanded`).
-/

namespace PldSynth

open Attempt

namespace Network

variable {K : NodeKind → Bool} {g g' g1 g2 : Network} {n m : NodeId} {c p : ConnId}
  {v : ConnId → Bool}

/-! ## From the network of a module to the simplified network -/

/-- The pin `n` of `g'` stands for the port `p` of `g`: it bears its name. An input port is all that
there is on its pin, and any other pin has one connection that can be driven, which reads what the
port read. -/
structure PortReading (g g' : Network) (p : ConnId) (n : NodeId) : Prop where
  name : g'.nodeNameOf? n = g.connNameOf? p
  input : g.isOutput p = true → g'.connsOf n = [p]
  slot : g.isSink p = true → ∃ c, (g'.connsOf n).filter g'.isSink = [c] ∧
    ∀ v, ∃ b, g.Reads v p b ∧ g'.Reads v c b

/-- The input `c` of the register or buffer `n` of `g` reads in `g'` what it read before, or it is gone
from `g'` and was an idle latch control. -/
inductive CellReading (g g' : Network) (n : NodeId) (c : ConnId) : Prop
  | kept (hc : c ∈ g'.connsOf n) (hr : ∀ v, ∃ b, g.Reads v c b ∧ g'.Reads v c b)
  | dropped (hc : ∀ m, c ∉ g'.connsOf m) (hi : g.IdleControl n c)

/-- A pin that shows a value has a slot for it. -/
theorem Fresh.slot_of_shows (hg : g.Fresh K) (hn : n ∈ g.pins) {b : Bool} (h : g.Shows v n b) :
    ∃ c, (g.connsOf n).filter g.isSink = [c] ∧ g.Reads v c b := by
  obtain ⟨c, hc, hs, hread⟩ := h
  have hk : g.hasKind NodeKind.isNamed n := hasKind_of (hg.pin_kind hn) rfl
  refine ⟨c, filter_of_sole (hg.nodup_conns n) hc hs fun e he hes => ?_, hs, hread⟩
  exact hg.single hk he hc hes hs

/-- What the first two passes make of one port. -/
theorem Branched.portReading (h : Branched K g g1) (hg : g.Fresh K) (hs : Simplified K g1 g2)
    (hp : p ∈ g.connsOf designId) (hn : n ∈ g1.pins) (hconns : g1.connsOf n = [p])
    (hname : g1.nodeNameOf? n = g.connNameOf? p) : PortReading g g2 p n := by
  have hps := hg.conn_isSome hp
  have hn2 : n ∈ g2.pins := hs.pins ▸ hn
  have hns := isSome_of_kindOf? (h.fresh.pin_kind hn)
  have hk : g1.hasKind NodeKind.isNamed n := hasKind_of (h.fresh.pin_kind hn) rfl
  refine ⟨(hs.refines.evolves.name hns).trans hname, fun hout => ?_, fun hsink => ?_⟩
  · refine (hs.undriven hn ?_).trans hconns
    simpa [hconns, h.refines.evolves.isSink hps] using not_isSink_of_isOutput hout
  · -- the slot is the same for every valuation, since it is the only one
    have hshow : ∀ v, ∃ b, g.Reads v p b ∧ g2.Shows v n b := by
      intro v
      obtain ⟨b, hb⟩ := hg.exists_reads hp hsink
      have hb1 := (h.refines.preserves v).reads hb ⟨n, by simp [hconns]⟩
      exact ⟨b, hb, (hs.refines.preserves v).shows hk ⟨p, by simp [hconns], hb1⟩
        (.inr (.inr (.inl hn2)))⟩
    obtain ⟨b, -, hb⟩ := hshow fun _ => false
    obtain ⟨c, hc, -⟩ := hs.fresh.slot_of_shows hn2 hb
    refine ⟨c, hc, fun v => ?_⟩
    obtain ⟨b, hb, hb'⟩ := hshow v
    obtain ⟨c', hc', hr⟩ := hs.fresh.slot_of_shows hn2 hb'
    obtain rfl : c = c' := List.singleton_inj.mp (hc.symm.trans hc')
    exact ⟨b, hb, hr⟩

theorem Refines.cellReading (h : Refines g g') (hg : g.Fresh K) (hi : KeepsInputs g g')
    (hk : g.hasKind NodeKind.isSequential n) (hc : c ∈ g.connsOf n) (hs : g.isSink c) :
    CellReading g g' n c := by
  rcases hi.kept hk hc hs with hc' | ⟨hgone, hidle⟩
  · refine .kept hc' fun v => ?_
    obtain ⟨b, hb⟩ := hg.exists_reads hc hs
    exact ⟨b, hb, (h.preserves v).reads hb ⟨n, hc'⟩⟩
  · exact .dropped hgone hidle

end Network

open Network

variable {d : Design} {g g1 g2 : Network} {name : String}

/-- The first two passes, taken apart. -/
theorem Design.Built.passes {K : NodeKind → Bool} (h : d.Built g)
    (hg : g.checkLoops = .ok () → g.Fresh K) (h1 : g.branched = .ok g1)
    (h2 : g1.simplified = .ok g2) : g.Fresh K ∧ Branched K g g1 ∧ Simplified K g1 g2 := by
  obtain ⟨hloops, r1, hr1, rfl⟩ := branched_eq_ok.mp h1
  obtain ⟨r2, hr2, rfl⟩ := simplified_eq_ok.mp h2
  obtain ⟨hb, -⟩ := branch_spec (hg hloops) h.pins h.pinNodes hr1
  obtain ⟨hs, -⟩ := simplify_spec hb.fresh hr2
  exact ⟨hg hloops, hb, hs⟩

/-- Naming shared signals and removing pin nodes that only forward one changes no reading: every port
that can be driven reads the same at the slot of its pin, whatever the values of input ports,
constants, registers and buffers are. So does every input of a register or buffer that is still there,
and those that are not were latch controls that a constant 0 drives. -/
theorem Design.readings_simplified (hg : d.toNetwork name = .ok g) (h1 : g.branched = .ok g1)
    (h2 : g1.simplified = .ok g2) :
    List.Forall₂ (PortReading g g2) (g.connsOf designId) g2.pins ∧
      ∀ n c, g.hasKind NodeKind.isSequential n = true → c ∈ g.connsOf n → g.isSink c = true →
        CellReading g g2 n c := by
  have hbuilt := built_toNetwork hg
  -- the shape of the cells does not matter here
  obtain ⟨hfresh, hb, hs⟩ := hbuilt.passes (K := fun _ => false)
    (hbuilt.fresh (fun _ _ _ _ hk => nomatch hk) rfl) h1 h2
  have hinputs := hb.inputs.trans hb.refines.evolves hs.inputs hs.refines.evolves
  refine ⟨?_, fun n c hk hc hsink => (hb.refines.trans hs.refines).cellReading hfresh hinputs hk hc hsink⟩
  rw [hs.pins]
  have hports := (List.forall₂_and_left _ _).mpr ⟨fun _ h => h, hb.pins⟩
  have hpins := (List.forall₂_and_left _ _).mpr ⟨fun _ h => h, hports.flip⟩
  apply hpins.flip.imp
  rintro p n ⟨hn, hp, hconns, hname⟩
  exact hb.portReading hfresh hs hp hn hconns hname

/-- A register or latch. The library knows which way its ports face. -/
def Cell.ofRegister (type : String) (ports : List (String × Bit)) : Cell where
  type := type
  portDirections := .empty
  connections := .ofList (ports.map fun p => (p.1, [p.2]))

/-- A bus that is driven from a register and read back, and a latch on the same logic whose controls are
tied to 0. The parity is at a port and in the logic; the logic is shared by both registers. -/
def Design.transceiver : Design where
  ports := .ofList [("bus", ⟨"inout", [.wire 5]⟩), ("ck", ⟨"input", [.wire 2]⟩),
    ("d", ⟨"input", [.wire 3]⟩), ("en", ⟨"input", [.wire 4]⟩), ("held", ⟨"output", [.wire 8]⟩),
    ("odd", ⟨"output", [.wire 7]⟩)]
  cells := .ofList [("x", .ofGate "$_XOR_" [("A", .wire 3), ("B", .wire 5)] 7),
    ("y", .ofGate "$_OR_" [("A", .wire 7), ("B", .literal "1")] 9),
    ("r", .ofRegister "FDCP" [("D", .wire 9), ("CK", .wire 2), ("AR", .literal "0"), ("Q", .wire 6)]),
    ("t", .ofGate "$_TBUF_" [("A", .wire 6), ("E", .wire 4)] 5),
    ("l", .ofRegister "LDCP" [("D", .wire 9), ("G", .wire 4), ("PRE", .literal "0"),
      ("CLR", .literal "0"), ("Q", .wire 8)])]
  nets := .empty

/-- The transceiver: the latch reads the shared logic through a pin node now, and the controls that are gone
were idle. -/
theorem Design.readings_simplified_transceiver : ∃ g g1 g2, transceiver.toNetwork "bus" = .ok g ∧
    g.branched = .ok g1 ∧ g1.simplified = .ok g2 ∧ g.refsOf ⟨8⟩ = [⟨27⟩] ∧ g2.refsOf ⟨8⟩ = [⟨28⟩] ∧
    (∀ v, ∃ b, g.Reads v ⟨8⟩ b ∧ g2.Reads v ⟨8⟩ b) ∧ g2.connsOf ⟨1⟩ = [⟨8⟩, ⟨9⟩, ⟨12⟩] ∧
    g.IdleControl ⟨1⟩ ⟨6⟩ ∧ g.IdleControl ⟨1⟩ ⟨10⟩ := by
  have h : transceiver.run? "bus" (fun g =>
      g.branched >>= fun g1 => g1.simplified >>= fun g2 => pure (decide (
        g.connsOf ⟨1⟩ = [⟨6⟩, ⟨8⟩, ⟨9⟩, ⟨10⟩, ⟨12⟩] ∧ g2.connsOf ⟨1⟩ = [⟨8⟩, ⟨9⟩, ⟨12⟩] ∧
        g.hasKind NodeKind.isSequential ⟨1⟩ ∧ g.isSink ⟨6⟩ ∧ g.isSink ⟨8⟩ ∧ g.isSink ⟨10⟩ ∧
        g.refsOf ⟨8⟩ = [⟨27⟩] ∧ g2.refsOf ⟨8⟩ = [⟨28⟩]))) = some true := by
    decide +kernel
  simp only [run?_eq_some, bind_eq_ok, pure_eq_ok, decide_eq_true_eq] at h
  obtain ⟨g, hg, g1, h1, g2, h2, hconns, hconns', hk, hclr, hdata, hpre, hrefs, hrefs'⟩ := h
  obtain ⟨-, hcell⟩ := readings_simplified hg h1 h2
  have hidle : ∀ c ∈ g.connsOf ⟨1⟩, g.isSink c → c ∉ g2.connsOf ⟨1⟩ → g.IdleControl ⟨1⟩ c := by
    intro c hc hs hgone
    cases hcell ⟨1⟩ c hk hc hs with
    | kept hc' => exact absurd hc' hgone
    | dropped _ hi => exact hi
  refine ⟨g, g1, g2, hg, h1, h2, hrefs, hrefs', ?_, hconns',
    hidle _ (by simp [hconns]) hclr (by simp [hconns']),
    hidle _ (by simp [hconns]) hpre (by simp [hconns'])⟩
  cases hcell ⟨1⟩ ⟨8⟩ hk (by simp [hconns]) hdata with
  | kept _ hr => exact hr
  | dropped hc => exact absurd (by simp [hconns']) (hc ⟨1⟩)

/-! ## From the collapsed network to the expanded network -/

/-- Gates have one output at most and no bidirectional port. -/
def Design.hasRegularGates (d : Design) : Bool :=
  d.cells.entries.all fun e =>
    (Library.kindOfType? e.2.type).all (fun k => !k.isCombinational) || e.2.isRegular

/-- A buffer has one data input, since no other port is renamed to it. -/
theorem Draft.Drawn.oneDataAt {cell : Cell} {n : NodeId}
    (h : Drawn cell .triState cell.connections.entries g n) : g.OneDataAt n := by
  have hport : ∀ {port : String}, Library.portName .triState port = bufferData → port = bufferData := by
    intro port hp
    unfold Library.portName at hp
    split at hp <;> simp_all [bufferData]
  -- connections correspond to ports, and ports have different names
  have hkey : ∀ {i : Nat} (hi : i < (g.connsOf n).length) (hi' : i < cell.connections.entries.length),
      g.isData (g.connsOf n)[i] → cell.connections.entries[i].1 = bufferData := by
    intro i hi hi' hd
    obtain ⟨dir, -, hname, -⟩ := h.conns.get hi' hi
    rw [isData, beq_iff_eq] at hd
    exact hport (Option.mem_unique hname hd)
  intro c c' hc hc' hd hd'
  obtain ⟨i, hi, rfl⟩ := List.getElem_of_mem hc
  obtain ⟨j, hj, rfl⟩ := List.getElem_of_mem hc'
  have hlen := h.conns.length_eq
  have hi' : i < cell.connections.entries.length := hlen ▸ hi
  have hj' : j < cell.connections.entries.length := hlen ▸ hj
  have heq := (hkey hi hi' hd).trans (hkey hj hj' hd').symm
  have hnd := Dict.nodup_keys cell.connections
  have hij : i = j := by
    have hi'' : i < (cell.connections.entries.map Prod.fst).length := by simpa using hi'
    have hj'' : j < (cell.connections.entries.map Prod.fst).length := by simpa using hj'
    have heq' : (cell.connections.entries.map Prod.fst)[i] =
        (cell.connections.entries.map Prod.fst)[j] := by simpa using heq
    exact hnd.getElem_inj_iff.mp heq'
  subst hij
  rfl

theorem Design.Built.oneDataAt {n : NodeId} (h : d.Built g) (hk : g.kindOf? n = some .triState) :
    g.OneDataAt n := by
  rcases h.covers.cells hk with hk' | hk' | ⟨e, -, -, hdrawn⟩
  · cases hk'
  · cases hk'
  · exact hdrawn.oneDataAt

theorem Design.Built.fresh_of_hasRegularGates (h : d.Built g) (hd : d.hasRegularGates)
    (hloops : g.checkLoops = .ok ()) : g.Fresh NodeKind.isCombinational := by
  refine h.fresh (regular_of_all (r := Option.all fun k => !k.isCombinational) hd
    (fun k hcomb hnone => ?_) fun _ => id) rfl hloops
  simp [hcomb] at hnone

/-- A buffer with a connection stands on the list of cells, so it was there from the start. -/
theorem Network.Simplified.buffer {K : NodeKind → Bool} (hs : Simplified K g1 g2) (hb : Branched K g g1)
    (hg : g.Fresh K) (hk : g2.kindOf? n = some .triState) (hc : c ∈ g2.connsOf n) :
    g.kindOf? n = some .triState := by
  have hcell : n ∈ g2.cells := hs.fresh.mem_cells_of_isCell hc (hasKind_of hk rfl)
  have hn := hg.cell_isSome (hb.cells n (hs.cells n hcell))
  exact ((hb.refines.trans hs.refines).evolves.kind hn).symm.trans hk

/-- After the first two passes registers and buffers can be taken over. -/
theorem Network.Simplified.ready {K : NodeKind → Bool} (h : d.Built g) (hg : g.Fresh K)
    (hb : Branched K g g1) (hs : Simplified K g1 g2) : g2.Ready K := by
  refine hs.fresh.ready fun {n} hk => ?_
  intro c c' hc hc' hd hd'
  have hk0 := hs.buffer hb hg hk hc
  exact (h.oneDataAt hk0).evolves hg.toOwned hk0 (hb.refines.trans hs.refines).evolves hc hc' hd hd'

/-- The connections of the node `n` are the same in `g` and in `g'`. Those that can be driven are driven
in neither or read the same value, where a connection of `g'` that `g` does not have is a copy of
`origin` and given the same value. -/
structure Network.NodeReading (origin : ConnId → ConnId) (g g' : Network) (n : NodeId) : Prop where
  conns : g'.connsOf n = g.connsOf n
  reads : ∀ c ∈ g.connsOf n, g.isSink c = true → (g.refsOf c = [] ∧ g'.refsOf c = []) ∨
    ∀ v, ∃ b, g.Reads v c b ∧ g'.Reads (v ∘ origin) c b

/-- `origin` leads from the connections of `g'` to those of `g`: from old ones to themselves, and from
those of a copied node to those of the node, which is of the same kind and has the same value. -/
structure Network.Copied (origin : ConnId → ConnId) (g g' : Network) : Prop where
  old : ∀ {c}, (g.conn? c).isSome → origin c = c
  copy : ∀ {n c}, c ∈ g'.connsOf n → ∃ m, origin c ∈ g.connsOf m ∧ g'.kindOf? n = g.kindOf? m ∧
    g'.constantOf? n = g.constantOf? m

theorem Network.Unfolds.nodeReading {K : NodeKind → Bool} {origin : ConnId → ConnId} {n : NodeId}
    (h : Unfolds K origin g g1) (hg : g.Sound) (hset : ∀ v, g.Settled v) (hn : (g.node? n).isSome)
    (hu : g1.InUse n) : NodeReading origin g g1 n where
  conns := h.connsOf hn hu
  reads c hc hs := by
    have hc1 : c ∈ g1.connsOf n := (h.connsOf hn hu).symm ▸ hc
    rcases hg.eq_nil_or_singleton hs with hnil | ⟨d, hd⟩
    · exact .inl ⟨hnil, h.undriven hc1 hs hnil⟩
    · refine .inr fun v => ?_
      obtain ⟨b, hb⟩ := hset v hs (d := d) (by simp [hd])
      have hread : g.Reads v c b := ⟨hs, d, hd, hb⟩
      exact ⟨b, hread, (h.preserves (hset v)).reads hread ⟨n, hc1⟩⟩

/-- Keeping within the budget of pin nodes changes no reading, whatever registers and buffers have been
taken over: every pin, every pin node that is left and every register and buffer reads what it read,
whatever the values of input ports, constants, registers, buffers and of the nodes that have taken one
over are. -/
theorem Design.readings_expanded {limit : Option Nat} {r3 r4 : Bool × Network}
    (hd : d.hasRegularGates = true) (hg : d.toNetwork name = .ok g) (h1 : g.branched = .ok g1)
    (h2 : g1.simplified = .ok g2) (h3 : g2.collapse = .ok r3) (h4 : r3.2.expand limit = .ok r4) :
    ∃ origin, Copied origin r3.2 r4.2 ∧ r4.2.pins = r3.2.pins ∧
      r4.2.pinNodes.Sublist r3.2.pinNodes ∧
      (∀ n, r3.2.hasKind NodeKind.isSequential n = true → (n ∈ r4.2.cells ↔ n ∈ r3.2.cells)) ∧
      ∀ n, n ∈ r4.2.pins ++ r4.2.pinNodes ∨
        r3.2.hasKind NodeKind.isSequential n = true ∧ n ∈ r4.2.cells →
        NodeReading origin r3.2 r4.2 n := by
  have hbuilt := built_toNetwork hg
  obtain ⟨hfresh, hb, hs⟩ := hbuilt.passes (hbuilt.fresh_of_hasRegularGates hd) h1 h2
  obtain ⟨hready, -⟩ := collapse_invariant
    (hs.ready hbuilt hfresh hb) trivial (fun _ _ _ _ => trivial) (fun _ => trivial)
    (fun _ _ _ _ => trivial) h3
  obtain ⟨⟨origin, hu⟩, -⟩ := unfolds_expand hready.toTidy (fun _ hk => hk)
    (hready.settled fun _ => false) h4
  refine ⟨origin, ⟨hu.old, hu.literal⟩, hu.pins, hu.pinNodes, fun n => hu.sequential, fun n hn => ?_⟩
  have hboth : (r3.2.node? n).isSome ∧ r4.2.InUse n := by
    rcases hn with hn | ⟨hk, hn⟩
    · rcases List.mem_append.mp hn with hn | hn
      · exact ⟨isSome_of_kindOf? (hready.pin_kind (hu.pins ▸ hn)), .inr (.inr (.inl hn))⟩
      · exact ⟨isSome_of_kindOf? (hready.pinNode_kind (hu.pinNodes.subset hn)),
          .inr (.inr (.inr hn))⟩
    · exact ⟨isSome_of_hasKind hk, .inr (.inl hn)⟩
  exact hu.nodeReading hready.toSound hready.settled hboth.1 hboth.2

/-- The transceiver, with no pin node allowed: the register on the bus reads a copy of the logic now. -/
theorem Design.readings_expanded_transceiver : ∃ g g1 g2 r3 r4 origin,
    transceiver.hasRegularGates = true ∧ transceiver.toNetwork "bus" = .ok g ∧
    g.branched = .ok g1 ∧ g1.simplified = .ok g2 ∧ g2.collapse = .ok r3 ∧
    r3.2.expand (some 0) = .ok r4 ∧ r3.2.pinNodes = [⟨16⟩] ∧ r4.2.pinNodes = [] ∧
    r3.2.refsOf ⟨16⟩ = [⟨28⟩] ∧ r4.2.refsOf ⟨16⟩ = [⟨40⟩] ∧ Copied origin r3.2 r4.2 ∧
    ∀ v, ∃ b, r3.2.Reads v ⟨16⟩ b ∧ r4.2.Reads (v ∘ origin) ⟨16⟩ b := by
  have hd : transceiver.hasRegularGates = true := by decide +kernel
  have h : transceiver.run? "bus" (fun g =>
      g.branched >>= fun g1 => g1.simplified >>= fun g2 => g2.collapse >>= fun r3 =>
        r3.2.expand (some 0) >>= fun r4 => pure (decide (r3.2.pinNodes = [⟨16⟩] ∧
          r4.2.pinNodes = [] ∧ ⟨10⟩ ∈ r4.2.pins ∧ ⟨16⟩ ∈ r3.2.connsOf ⟨10⟩ ∧ r3.2.isSink ⟨16⟩ ∧
          r3.2.refsOf ⟨16⟩ = [⟨28⟩] ∧ r4.2.refsOf ⟨16⟩ = [⟨40⟩]))) = some true := by
    decide +kernel
  simp only [run?_eq_some, bind_eq_ok, pure_eq_ok, decide_eq_true_eq] at h
  obtain ⟨g, hg, g1, h1, g2, h2, r3, h3, r4, h4, hpn, hpn', hpin, hconn, hsink, hrefs, hrefs'⟩ := h
  obtain ⟨origin, hcopied, -, -, -, hreading⟩ := readings_expanded hd hg h1 h2 h3 h4
  refine ⟨g, g1, g2, r3, r4, origin, hd, hg, h1, h2, h3, h4, hpn, hpn', hrefs, hrefs', hcopied, ?_⟩
  have hbus := hreading ⟨10⟩ (.inl (List.mem_append_left _ hpin))
  refine (hbus.reads ⟨16⟩ hconn hsink).resolve_left fun hnil => ?_
  cases hrefs.symm.trans hnil.1

end PldSynth
