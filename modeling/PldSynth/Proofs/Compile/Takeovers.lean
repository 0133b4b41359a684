import PldSynth.Proofs.Compile.Sequential
import PldSynth.Proofs.Network.Completion
import PldSynth.Proofs.Network.Layers
import PldSynth.Proofs.Network.Progress

/-!
# Takeovers in a design

Registers and buffers of a design are taken over completely, or the run stops at a cell for one of two
reasons (`Design.collapse_complete`): a node would take over a second buffer, or a register would be
taken over by the pin of a bidirectional port, which has no input to give up. When the run ends, every
host has one register and one buffer at most and is marked for those that it has, the cells that are
left have no reader, and a second run does nothing.
-/

namespace PldSynth

namespace Network

variable {K : NodeKind → Bool} {g h : Network} {n : NodeId} {e : NetworkError}

/-- The pin that cannot take over a register stands for a bidirectional port. -/
theorem Blocked.port (hb : Blocked h n e) (hg : g.Owned) (hh : h.Poised K) (hp : Ported g h)
    {pin : String} {what : Miscount} (he : e = .miscount pin what) : ∃ p ∈ g.connsOf designId,
      g.directionOf? p = some .bidirectional ∧ g.connNameOf? p = some pin := by
  cases hb with
  | secondBuffer => cases he
  | @bidirectional _ p _ _ _ _ _ _ hk hc hd hname =>
    cases he
    rcases hp.pins (hh.pin_kind hk) hc hd with ⟨hport, hpin⟩
    refine ⟨p, hport, ?_, hpin.symm.trans hname⟩
    rwa [hp.evolves.direction (hg.conn_isSome hport)] at hd

end Network

open Network

variable {d : Design} {g : Network} {name : String}

/-- Buffers have one output at most and no bidirectional port. -/
def Design.hasRegularBuffers (d : Design) : Bool :=
  d.cells.entries.all fun e => Library.kindOfType? e.2.type != some .triState || e.2.isRegular

theorem Design.Built.raw_of_hasRegularBuffers (h : d.Built g) (hd : d.hasRegularBuffers) :
    g.Raw NodeKind.isSequential := by
  refine h.raw (regular_of_all (r := (· != some .triState)) hd (fun k hseq hne => ?_) fun _ => id) rfl
  exact (NodeKind.isRegister_or_eq hseq).resolve_right (by simpa using hne)

/-- The simplified network of a design whose buffers are regular either has a cell that cannot be taken
over, and the run stops there, or every register and buffer with a reader is taken over. In the first
case a pin that cannot take over a register stands for a bidirectional port of the design. In the second
case no host takes over two registers or two buffers, hosts are marked for what they took over, and
another run changes nothing. -/
theorem Design.collapse_complete {r1 r2 : Bool × Network} (hd : d.hasRegularBuffers = true)
    (hg : d.toNetwork name = .ok g) (h1 : g.branch = .ok r1) (h2 : r1.2.simplify = .ok r2) :
    (∃ e n h, r2.2.collapse = .error e ∧ Visits r2.2 n h ∧ Blocked h n e ∧
      ∀ pin what, e = .miscount pin what → ∃ p ∈ g.connsOf designId,
        g.directionOf? p = some .bidirectional ∧ g.connNameOf? p = some pin) ∨
    ∃ r3, r2.2.collapse = .ok r3 ∧ (∃ host, Allots host r2.2 r3.2) ∧
      (∀ n ∈ r3.2.cells, r3.2.hasKind NodeKind.isSequential n = true → r3.2.UnreadAt n) ∧
      r3.2.collapse = .ok (false, r3.2) := by
  have hbuilt := built_toNetwork hg
  have hraw := hbuilt.raw_of_hasRegularBuffers hd
  have hlayered : Layered NodeKind.isSequential g r2.2 :=
    layered_simplify (layered_branch hraw hbuilt.pins hbuilt.pinNodes hbuilt.oneDataAt h1) h2
  have hpoised := hlayered.poised
  have hnone := hlayered.unmerged
  rcases ends_collapse hpoised (fun t => by rw [hnone t]; rfl) with ⟨r3, h3, -⟩ | ⟨e, he, n, h, hv, hb⟩
  · right
    rcases allots_collapse hpoised hlayered.read hnone (fun _ hk => hk) h3 with ⟨hend, hallots⟩
    have hunread := unread_collapse hpoised (hpoised.toTidy.loneCells fun _ hk => hk) h3
    exact ⟨r3, h3, hallots, hunread, collapse_of_unread hend.toOwned hunread⟩
  · left
    rcases hv.keeps hpoised hlayered.ported fun hp hP ht => ht.ported hp hP with ⟨hh, hported⟩
    exact ⟨e, n, h, he, hv, hb, fun pin what heq => hb.port hraw.toOwned hh hported heq⟩

/-- The transceiver. The pin of its bidirectional port takes over the register and the buffer, and the
pin `held` the latch. -/
theorem Design.collapse_complete_transceiver : ∃ g r1 r2, transceiver.hasRegularBuffers = true ∧
    transceiver.toNetwork "bus" = .ok g ∧ g.branch = .ok r1 ∧ r1.2.simplify = .ok r2 ∧
    ∃ r3, r2.2.collapse = .ok r3 ∧ (∃ host, Allots host r2.2 r3.2) ∧
      (∀ n ∈ r3.2.cells, r3.2.hasKind NodeKind.isSequential n = true → r3.2.UnreadAt n) ∧
      r3.2.collapse = .ok (false, r3.2) := by
  have hd : transceiver.hasRegularBuffers = true := by decide +kernel
  have hrun : (transceiver.run? "bus" fun g =>
      g.branch >>= fun r1 => r1.2.simplify >>= fun r2 => r2.2.collapse).isSome := by
    decide +kernel
  rcases Option.isSome_iff_exists.mp hrun with ⟨r3, h⟩
  simp only [run?_eq_some, Attempt.bind_eq_ok] at h
  rcases h with ⟨g, hg, r1, h1, r2, h2, h3⟩
  refine ⟨g, r1, r2, hd, hg, h1, h2, ?_⟩
  rcases collapse_complete hd hg h1 h2 with ⟨e, n, h, he, -⟩ | hdone
  · rw [h3] at he
    cases he
  · exact hdone

end PldSynth
