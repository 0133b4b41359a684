import PldSynth.Proofs.Compile.Sequential
import PldSynth.Proofs.Network.Inheritance

/-!
# Registers and buffers on pins

Of a design whose buffers have the ports A, E and Y, every register and buffer that is taken over keeps
its wires, with one exception (`Design.keepsWiring_iff`). A register that reads its own output and goes
to a pin is left with an input that nothing drives, as in `Design.ring`.
-/

namespace PldSynth

open Network

variable {d : Design} {g g1 g2 : Network} {name : String} {n : NodeId} {c : ConnId} {cell : Cell}

/-! ## Plain buffers -/

/-- The ports of the buffer are the inputs A and E and the output Y. -/
def Cell.isPlainBuffer (cell : Cell) : Bool :=
  cell.connections.entries.all fun p =>
    (p.1 == "A" || p.1 == "E") && cell.portDirections.get? p.1 == some "input" ||
      p.1 == "Y" && cell.portDirections.get? p.1 == some "output"

/-- Every buffer of the design is plain. -/
def Design.hasPlainBuffers (d : Design) : Bool :=
  d.cells.entries.all fun e => Library.kindOfType? e.2.type != some .triState || e.2.isPlainBuffer

theorem Cell.isPlainBuffer_iff : cell.isPlainBuffer ↔ ∀ p ∈ cell.connections.entries,
      (p.1 = "A" ∨ p.1 = "E") ∧ cell.portDirections.get? p.1 = some "input" ∨
        p.1 = "Y" ∧ cell.portDirections.get? p.1 = some "output" := by
  simp only [isPlainBuffer, List.all_eq_true, Bool.or_eq_true, Bool.and_eq_true, beq_iff_eq]

theorem Cell.isRegular_of_isPlainBuffer (h : cell.isPlainBuffer) : cell.isRegular := by
  rw [isPlainBuffer_iff] at h
  simp only [isRegular, Bool.and_eq_true, decide_eq_true_eq, List.all_eq_true, bne_iff_ne]
  constructor
  · -- the only output is Y, and there are no two ports of one name
    have hcount := List.nodup_iff_count_le_one.mp cell.connections.nodup_keys "Y"
    rw [List.count_eq_countP, List.countP_map] at hcount
    refine le_trans (List.countP_mono_left fun p hp hout => ?_) hcount
    rw [beq_iff_eq] at hout
    rcases h p hp with ⟨-, hin⟩ | ⟨hy, -⟩
    · simp [hout] at hin
    · simpa using hy
  · intro p hp hinout
    rcases h p hp with ⟨-, hdir⟩ | ⟨-, hdir⟩ <;> simp [hdir] at hinout

/-- What can be driven at a plain buffer is its data or its enable. -/
theorem Draft.Drawn.data_or_enable
    (h : Drawn cell .triState cell.connections.entries g n) (hcell : cell.isPlainBuffer)
    (hc : c ∈ g.connsOf n) (hs : g.isSink c) : g.isData c ∨ g.connNameOf? c = some bufferEnable := by
  obtain ⟨q, hq, dir, hf, hname, hdir⟩ := h.exists_port hc
  rcases Cell.isPlainBuffer_iff.mp hcell q hq with ⟨ha | he, -⟩ | ⟨-, hout⟩
  · left
    rw [isData, hname, ha]
    rfl
  · right
    rw [hname, he]
    rfl
  · -- an output cannot be driven
    rw [hf.get? rfl] at hout
    rw [isSink, hdir] at hs
    cases dir with
    | output => cases hs
    | input | bidirectional => simp [Direction.word] at hout

theorem Design.Built.fresh_of_hasPlainBuffers (h : d.Built g) (hd : d.hasPlainBuffers)
    (hloops : g.checkLoops = .ok ()) : g.Fresh NodeKind.isSequential := by
  refine h.fresh (regular_of_all (r := (· != some .triState)) hd (fun k hseq hne => ?_)
    fun _ => Cell.isRegular_of_isPlainBuffer) rfl hloops
  exact (NodeKind.isRegister_or_eq hseq).resolve_right (by simpa using hne)

/-- After the first two passes a buffer still has nothing to be driven but its data and its enable. -/
theorem Network.Simplified.data_or_enable {K : NodeKind → Bool} (h : d.Built g)
    (hd : d.hasPlainBuffers) (hg : g.Fresh K) (hb : Branched K g g1) (hs : Simplified K g1 g2)
    (hk : g2.kindOf? n = some .triState) (hc : c ∈ g2.connsOf n) (hsink : g2.isSink c) :
    g2.isData c ∨ g2.connNameOf? c = some bufferEnable := by
  have he := (hb.refines.trans hs.refines).evolves
  have hk0 := hs.buffer hb hg hk hc
  have hn := isSome_of_kindOf? hk0
  have hnamed : g.hasKind NodeKind.isNamed n = false := by rw [hasKind, hk0]; rfl
  have hc0 := he.shrinks hn hnamed hc
  have hname := he.connName hn hnamed (hg.conn_isSome hc0) hc
  rw [he.isSink (hg.conn_isSome hc0)] at hsink
  rw [isData, hname]
  rcases h.covers.cells hk0 with hk' | hk' | ⟨e, hmem, htype, hdrawn⟩
  · cases hk'
  · cases hk'
  · simp only [Design.hasPlainBuffers, List.all_eq_true, Bool.or_eq_true, bne_iff_ne] at hd
    exact hdrawn.data_or_enable ((hd e hmem).resolve_left fun hne => hne htype) hc0 hsink

/-! ## Taking over -/

/-- Taking over registers and buffers keeps every wire exactly if no cell that goes to a pin reads
itself: the inputs of the cell stand on its host and read the same signals, what drove the data of a
buffer drives the host or is a register that went there too, and what read the cell reads its host. -/
theorem Design.keepsWiring_iff {r : Bool × Network} (hd : d.hasPlainBuffers = true)
    (hg : d.toNetwork name = .ok g) (h1 : g.branched = .ok g1) (h2 : g1.simplified = .ok g2)
    (h3 : g2.collapse = .ok r) : ∃ host, Hosts host g2 r.2 ∧
      (KeepsWiring host g2 r.2 ↔
        ∀ n, Merged g2 r.2 n → host n ∈ g2.pins → ¬ g2.ReadsItself n) := by
  have hbuilt := built_toNetwork hg
  obtain ⟨hfresh, hb, hs⟩ := hbuilt.passes (hbuilt.fresh_of_hasPlainBuffers hd) h1 h2
  obtain ⟨hready, host, hi⟩ := inherits_collapse (hs.ready hbuilt hfresh hb) (hs.read hb.read)
    (fun _ hk => hk) (hs.data_or_enable hbuilt hd hfresh hb) h3
  exact ⟨host, hi.hosts, hi.keepsWiring_iff_no_loop hs.fresh hready.toOwned fun _ hk => hk⟩

/-- The transceiver. Its register goes to the bus behind the buffer, and its latch to the port `held`;
nothing is lost. -/
theorem Design.keepsWiring_transceiver : ∃ g g1 g2 r, transceiver.hasPlainBuffers = true ∧
    transceiver.toNetwork "bus" = .ok g ∧ g.branched = .ok g1 ∧ g1.simplified = .ok g2 ∧
    g2.collapse = .ok r ∧ ∃ host, Hosts host g2 r.2 ∧ KeepsWiring host g2 r.2 := by
  have hd : transceiver.hasPlainBuffers = true := by decide +kernel
  have h : transceiver.run? "bus" (fun g =>
      g.branched >>= fun g1 => g1.simplified >>= fun g2 => g2.collapse >>= fun r =>
        pure (decide (∀ n ∈ g2.cells, ¬ g2.ReadsItself n))) = some true := by
    decide +kernel
  simp only [run?_eq_some, Attempt.bind_eq_ok, Attempt.pure_eq_ok, decide_eq_true_eq] at h
  obtain ⟨g, hg, g1, h1, g2, h2, r, h3, hnone⟩ := h
  obtain ⟨host, hhosts, hiff⟩ := keepsWiring_iff hd hg h1 h2 h3
  exact ⟨g, g1, g2, r, hd, hg, h1, h2, h3, host, hhosts, hiff.mpr fun n hn _ => hnone n hn.2.1⟩

/-- A register whose data is its own output, which is at a port too. -/
def Design.ring : Design where
  ports := .ofList [("clk", ⟨"input", [.wire 2]⟩), ("y", ⟨"output", [.wire 5]⟩)]
  cells := .ofList [("r", .ofRegister "FDCP" [("CK", .wire 2), ("D", .wire 5), ("Q", .wire 5)])]
  nets := .empty

/-- An input of a merged register that was wired is not wired any more. -/
def Network.CutsInput (g g' : Network) : Prop :=
  ∃ n ∈ g.cells, g.hasKind NodeKind.isRegister n = true ∧ n ∉ g'.cells ∧
    ∃ c ∈ g.connsOf n, g.isInput c = true ∧ (∃ d ∈ g.refsOf c, g.refsOf c = [d]) ∧ g'.refsOf c = []

instance (g g' : Network) : Decidable (CutsInput g g') :=
  inferInstanceAs (Decidable (∃ n ∈ g.cells, g.hasKind NodeKind.isRegister n = true ∧ n ∉ g'.cells ∧
    ∃ c ∈ g.connsOf n, g.isInput c = true ∧ (∃ d ∈ g.refsOf c, g.refsOf c = [d]) ∧ g'.refsOf c = []))

theorem Network.CutsInput.not_keepsWiring {g g' : Network} (h : CutsInput g g')
    (host : NodeId → NodeId) : ¬ KeepsWiring host g g' := by
  rcases h with ⟨n, hn, hreg, hnot, c, hc, hin, ⟨d, -, hd⟩, hnil⟩
  intro hkeeps
  have hmerged : Merged g g' n := ⟨hasKind_isSequential_of_isRegister hreg, hn, hnot⟩
  have hdata : ¬ MergedData g g' n c := fun hdata => by
    rw [hasKind, hdata.2.1] at hreg
    cases hreg
  obtain ⟨-, -, d', hd', -⟩ := hkeeps.inputs hmerged hc hin hd hdata
  rw [hnil] at hd'
  cases hd'

/-- The ring loses the wire that closes it, wherever the register is said to be. -/
theorem Design.not_keepsWiring_ring : ∃ g g1 g2 r, ring.hasPlainBuffers = true ∧
    ring.toNetwork "m" = .ok g ∧ g.branched = .ok g1 ∧ g1.simplified = .ok g2 ∧
    g2.collapse = .ok r ∧ ∀ host, ¬ KeepsWiring host g2 r.2 := by
  have hd : ring.hasPlainBuffers = true := by decide +kernel
  have h : ring.run? "m" (fun g =>
      g.branched >>= fun g1 => g1.simplified >>= fun g2 => g2.collapse >>= fun r =>
        pure (decide (CutsInput g2 r.2))) = some true := by
    decide +kernel
  simp only [run?_eq_some, Attempt.bind_eq_ok, Attempt.pure_eq_ok, decide_eq_true_eq] at h
  obtain ⟨g, hg, g1, h1, g2, h2, r, h3, hcut⟩ := h
  exact ⟨g, g1, g2, r, hd, hg, h1, h2, h3, hcut.not_keepsWiring⟩

end PldSynth
