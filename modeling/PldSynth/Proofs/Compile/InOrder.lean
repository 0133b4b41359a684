import PldSynth.Proofs.Compile.Sequential
import PldSynth.Proofs.Network.Readers
import PldSynth.Proofs.Network.Redirection

/-!
# Networks between the passes

What every pass can rely on when it starts, and what it leaves behind (`Network.InOrder`): wires and
lists agree with each other, every pin node is read, and the list of equations is up to date. It holds
after every pass on a design whose gates and buffers have one output each
(`Design.inOrder_passes`).
-/

namespace PldSynth

open Attempt

namespace Network

variable {K : NodeKind → Bool} {g g' g1 g2 : Network}

/-- Wires are written down on both ends, and what can be driven has one driver at most. A connection
belongs to the node that lists it, which lists it once. Every pin node has an output that is read. The
list of equations holds what can be driven and is, of the pins, the pin nodes and then the registers
and buffers. -/
structure InOrder (g : Network) : Prop where
  mirrored : ∀ c d, d ∈ g.refsOf c ↔ c ∈ g.refsOf d
  driven : ∀ c, g.isSink c = true → (g.refsOf c).length ≤ 1
  owner : ∀ n c, c ∈ g.connsOf n → g.ownerOf? c = some n
  listed : ∀ n, (g.connsOf n).Nodup
  read : ∀ n ∈ g.pinNodes, ∃ o ∈ g.connsOf n, g.isOutput o = true ∧ g.refsOf o ≠ []
  top : g.top = (g.pins ++ g.pinNodes ++ g.cells.filter (g.hasKind NodeKind.isSequential)).flatMap
    fun n => (g.connsOf n).filter fun c => g.isSink c && !(g.refsOf c).isEmpty

/-- What is left to be shown of a network in order: every pin node is read, and the list of equations is
up to date. -/
structure UpToDate (g : Network) : Prop where
  read : g.PinNodesRead
  top : g.Collected

theorem UpToDate.inOrder (h : g.UpToDate) (hg : g.Sound) : g.InOrder := by
  refine ⟨fun c d => ⟨hg.mirror, hg.mirror⟩, ?_, fun n c => hg.owner, hg.nodup_conns, ?_, h.top⟩
  · intro c hs
    rcases hg.eq_nil_or_singleton hs with hnil | ⟨d, hd⟩
    · simp [hnil]
    · simp [hd]
  · intro n hn
    obtain ⟨c, d, hs, hd, hmem⟩ := h.read n hn
    have hdc : d ∈ g.refsOf c := by simp [hd]
    exact ⟨d, hmem, hg.output_of_sink hdc hs, List.ne_nil_of_mem (hg.mirror hdc)⟩

/-- Taking over one cell leaves the list of equations up to date. -/
theorem TakesOver.upToDate {s : Takeover} (ht : TakesOver s g g1 g2 g') (hg : g.Poised K)
    (hK : ∀ k, k.isSequential → K k) (h : g.UpToDate) : g'.UpToDate where
  read := (ht.pinNodesRead hg hK h.read).rebuilt (ht.poised2 hg).toTidy ht.rebuilt
  top := collected_rebuildTop ht.rebuilt

theorem upToDate_collapse {r : Bool × Network} (hg : g.Ready K)
    (hK : ∀ k, k.isSequential → K k) (h : g.UpToDate) (hrun : g.collapse = .ok r) :
    r.2.Ready K ∧ r.2.UpToDate := by
  obtain ⟨hr, -, hup⟩ := collapse_invariant hg h
    (fun hready hP _ ht => ht.upToDate hready.toPoised hK hP) id
    (fun hready hP _ ht => ht.upToDate hready.toPoised hK hP) hrun
  exact ⟨hr, hup⟩

end Network

open Network

variable {d : Design} {g g1 : Network} {name : String}

/-- Gates and buffers have one output at most and no bidirectional port. -/
def Design.hasRegularCells (d : Design) : Bool :=
  d.cells.entries.all fun e => (Library.kindOfType? e.2.type).all NodeKind.isRegister || e.2.isRegular

theorem Design.Built.fresh_of_hasRegularCells (h : d.Built g) (hd : d.hasRegularCells)
    (hloops : g.checkLoops = .ok ()) : g.Fresh fun k => k.isCombinational || k.isSequential :=
  h.fresh (regular_of_all (r := Option.all NodeKind.isRegister) hd (fun _ _ => id) fun _ => id) rfl hloops

/-- After each of the passes that succeed the network is in order. -/
theorem Design.inOrder_passes (hd : d.hasRegularCells = true) (hg : d.toNetwork name = .ok g)
    (h1 : g.branched = .ok g1) :
    g1.InOrder ∧ ∀ g2, g1.simplified = .ok g2 → g2.InOrder ∧
      ∀ r3, g2.collapse = .ok r3 → r3.2.InOrder ∧
        ∀ limit r4, r3.2.expand limit = .ok r4 → r4.2.InOrder := by
  have hbuilt := built_toNetwork hg
  obtain ⟨hloops, r1, hr1, rfl⟩ := branched_eq_ok.mp h1
  have hfresh := hbuilt.fresh_of_hasRegularCells hd hloops
  -- names for shared signals
  obtain ⟨hb, htop1⟩ := branch_spec hfresh hbuilt.pins hbuilt.pinNodes hr1
  refine ⟨UpToDate.inOrder ⟨hb.read, htop1⟩ hb.fresh.toSound, fun g2 h2 => ?_⟩
  -- without pin nodes that only pass a signal on
  obtain ⟨r2, hr2, rfl⟩ := simplified_eq_ok.mp h2
  obtain ⟨hs, htop2⟩ := simplify_spec hb.fresh hr2
  have hup2 : r2.2.UpToDate := ⟨hs.read hb.read, htop2⟩
  refine ⟨hup2.inOrder hs.fresh.toSound, fun r3 h3 => ?_⟩
  -- registers and buffers on their pins
  obtain ⟨hready, hup3⟩ := upToDate_collapse (hs.ready hbuilt hfresh hb) (fun k hk => by simp [hk]) hup2 h3
  refine ⟨hup3.inOrder hready.toSound, fun limit r4 h4 => ?_⟩
  -- pin nodes within the budget
  have hK : ∀ k : NodeKind, k.isCombinational = true → (k.isCombinational || k.isSequential) = true :=
    fun k hk => by simp [hk]
  have hset := hready.settled fun _ => false
  obtain ⟨⟨origin, hu⟩, htop4⟩ := unfolds_expand hready.toTidy hK hset h4
  have hread4 := pinNodesRead_expand hready.toTidy hK hset hup3.read h4
  exact UpToDate.inOrder ⟨hread4, htop4 hup3.top⟩ hu.tidy.toSound

/-- The transceiver, whose pin node for the shared logic is removed at the end. -/
theorem Design.inOrder_passes_transceiver : ∃ g g1 g2 r3 r4, transceiver.hasRegularCells = true ∧
    transceiver.toNetwork "bus" = .ok g ∧ g.branched = .ok g1 ∧ g1.simplified = .ok g2 ∧
    g2.collapse = .ok r3 ∧ r3.2.expand (some 0) = .ok r4 ∧ r4.1 = true ∧
    g1.InOrder ∧ g2.InOrder ∧ r3.2.InOrder ∧ r4.2.InOrder := by
  have hd : transceiver.hasRegularCells = true := by decide +kernel
  have h : transceiver.run? "bus" (fun g =>
      g.branched >>= fun g1 => g1.simplified >>= fun g2 => g2.collapse >>= fun r3 =>
        r3.2.expand (some 0) >>= fun r4 => pure r4.1) = some true := by
    decide +kernel
  simp only [run?_eq_some, bind_eq_ok, pure_eq_ok] at h
  obtain ⟨g, hg, g1, h1, g2, h2, r3, h3, r4, h4, htrue⟩ := h
  obtain ⟨ho1, hrest⟩ := inOrder_passes hd hg h1
  obtain ⟨ho2, hrest⟩ := hrest g2 h2
  obtain ⟨ho3, hrest⟩ := hrest r3 h3
  exact ⟨g, g1, g2, r3, r4, hd, hg, h1, h2, h3, h4, htrue, ho1, ho2, ho3, hrest (some 0) r4 h4⟩

end PldSynth
