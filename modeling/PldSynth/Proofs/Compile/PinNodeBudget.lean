import PldSynth.Proofs.Compile.FirstPasses
import PldSynth.Proofs.Compile.Gates
import PldSynth.Proofs.Network.Exhaustion

/-!
# The budget for pin nodes in a design

The pin nodes of a design never stand in the way of their limit: removing them does not fail, and something is
removed exactly if there are too many of them and one took over nothing (`Design.expand_meets_budget`). No more
are removed than have to be, if each of them is read. A buffer with a bidirectional port can make the
difference: its takeover drops what the port reads, and pin nodes may be left behind that nothing reads
(`Design.expand_below_budget`).
-/

namespace PldSynth

open Network

variable {d : Design} {g g1 g2 : Network} {name : String}

/-- Buffers have no bidirectional port. -/
def Design.hasOneWayBuffers (d : Design) : Bool :=
  d.cells.entries.all fun e => Library.kindOfType? e.2.type != some .triState ||
    e.2.connections.entries.all fun p => e.2.portDirections.get? p.1 != some "inout"

/-- The network of a design with one-way buffers is one-way. -/
theorem Design.Built.oneWay (h : d.Built g) (hd : d.hasOneWayBuffers) : g.OneWay := by
  intro n c hn hc hs
  rcases hasKind_iff.mp hn with ⟨k, hk, hseq⟩
  have hplain : g.PlainAt n := by
    rcases h.covers.cells hk with rfl | rfl | ⟨e, he, htype, hdrawn⟩
    · cases hseq
    · cases hseq
    rcases NodeKind.isRegister_or_eq hseq with hreg | rfl
    · refine (hdrawn.regularAt_register hreg).plain ?_
      rw [hk]
      rintro ⟨⟩
      cases hreg
    · refine Draft.plainAt_of_drawn hdrawn ?_
      rintro q hq dir hf rfl
      simp only [Design.hasOneWayBuffers, List.all_eq_true, Bool.or_eq_true, bne_iff_ne] at hd
      exact ((hd e he).resolve_left fun hne => hne htype) q hq (hf.get? rfl)
  refine (hplain hc).resolve_right fun ho => ?_
  rw [not_isSink_of_isOutput ho] at hs
  cases hs

/-- Whatever the limit, keeping within it does not fail on the collapsed network of a design whose gates are
regular. Something is removed if and only if there are more pin nodes than the limit and one of them took over
nothing. If no buffer has a bidirectional port, or if every pin node is read for some other reason, those that
are removed took over nothing, and as many are left as the limit allows and at least those that took over a
register or buffer. -/
theorem Design.expand_meets_budget {r3 : Bool × Network} (hd : d.hasRegularGates = true)
    (hg : d.toNetwork name = .ok g) (h1 : g.branched = .ok g1) (h2 : g1.simplified = .ok g2)
    (h3 : g2.collapse = .ok r3) (limit : Nat) : ∃ r4, r3.2.expand (some limit) = .ok r4 ∧
      (r4.1 = true ↔ limit < r3.2.pinNodes.length ∧ r3.2.mergedPinNodes < r3.2.pinNodes.length) ∧
      (d.hasOneWayBuffers = true ∨ r3.2.PinNodesRead → MeetsBudget limit r3.2 r4.2) := by
  have hbuilt := built_toNetwork hg
  rcases hbuilt.passes (hbuilt.fresh_of_hasRegularGates hd) h1 h2 with ⟨hfresh, hb, hs⟩
  have hready2 := hs.ready hbuilt hfresh hb
  have htrimmable : g2.Trimmable fun _ => false := by
    rcases branched_eq_ok.mp h1 with ⟨-, r1, hr1, rfl⟩
    rcases simplified_eq_ok.mp h2 with ⟨r2, hr2, rfl⟩
    rcases hbuilt.trimmable_branch hr1 with ⟨htrimmable, htop⟩
    exact (trimmed_simplify htrimmable htop hr2).toTrimmable
  rcases pinNodesFree_collapse hready2 htrimmable.pinNodesCombinational h3 with ⟨hready, hfree⟩
  have hset := hready.settled fun _ => false
  -- takeovers leave every pin node with a reader, unless they drop a bidirectional connection
  have hread : d.hasOneWayBuffers = true → r3.2.PinNodesRead := by
    intro hbuffers
    have hone : g2.OneWay := (hbuilt.oneWay hbuffers).evolves hfresh.toOwned hready2.toOwned
      (hb.refines.trans hs.refines).evolves fun n hn => hb.cells n (hs.cells n hn)
    exact (collapse_keeps_of_oneWay hready2.toPoised hone htrimmable.read trivial
      (fun _ _ _ _ => trivial) h3).2.1
  rcases exists_expand (some limit) hready.toTidy (fun _ hk => hk) hset hfree with ⟨r4, h4⟩
  refine ⟨r4, h4, inlineAll_changed_iff hready.toTidy hset hfree (Nat.le_refl _) h4, fun h => ?_⟩
  exact meetsBudget_inlineAll hready.toTidy (fun _ hk => hk) hset hfree (h.elim hread id)
    (Nat.le_refl _) h4

/-- A bit that follows its input, with two gates and a register that are each read more than once. -/
def Design.follower : Design where
  ports := .ofList [("a", ⟨"input", [.wire 2]⟩), ("b", ⟨"input", [.wire 3]⟩),
    ("ck", ⟨"input", [.wire 4]⟩), ("y", ⟨"output", [.wire 9]⟩), ("z", ⟨"output", [.wire 11]⟩)]
  cells := .ofList [("g", .ofGate "$_AND_" [("A", .wire 2), ("B", .wire 3)] 5),
    ("h", .ofGate "$_XOR_" [("A", .wire 5), ("B", .wire 8)] 6),
    ("i", .ofGate "$_OR_" [("A", .wire 5), ("B", .wire 6)] 9),
    ("j", .ofGate "$_AND_" [("A", .wire 6), ("B", .wire 8)] 10),
    ("r", .ofRegister "FDCP" [("D", .wire 6), ("CK", .wire 4), ("Q", .wire 8)]),
    ("t", .ofGate "$_TBUF_" [("A", .wire 10), ("E", .wire 3)] 11)]
  nets := .empty

/-- Of its three pin nodes, the one that took over the register stays. -/
theorem Design.expand_meets_budget_follower : ∃ g g1 g2 r3, follower.hasRegularGates = true ∧
    follower.toNetwork "m" = .ok g ∧ g.branched = .ok g1 ∧ g1.simplified = .ok g2 ∧
    g2.collapse = .ok r3 ∧ r3.2.pinNodes.length = 3 ∧ r3.2.mergedPinNodes = 1 ∧
    ∀ limit, ∃ r4, r3.2.expand (some limit) = .ok r4 ∧ (r4.1 = true ↔ limit < 3) ∧
      r4.2.pinNodes.length = max 1 (min limit 3) ∧ MeetsBudget limit r3.2 r4.2 := by
  have hd : follower.hasRegularGates = true ∧ follower.hasOneWayBuffers = true := by decide +kernel
  have h : follower.run? "m" (fun g =>
      g.branched >>= fun g1 => g1.simplified >>= fun g2 => g2.collapse >>= fun r =>
        pure (r.2.pinNodes.length, r.2.mergedPinNodes)) = some (3, 1) := by
    decide +kernel
  simp only [run?_eq_some, Attempt.bind_eq_ok, Attempt.pure_eq_ok, Prod.mk.injEq] at h
  rcases h with ⟨g, hg, g1, h1, g2, h2, r3, h3, hlength, hmerged⟩
  refine ⟨g, g1, g2, r3, hd.1, hg, h1, h2, h3, hlength, hmerged, fun limit => ?_⟩
  rcases expand_meets_budget hd.1 hg h1 h2 h3 limit with ⟨r4, h4, hchanged, hmeets⟩
  have hmeets := hmeets (.inl hd.2)
  have hleft := hmeets.length
  rw [hlength, hmerged] at hchanged hleft
  exact ⟨r4, h4, hchanged.trans (and_iff_left (by decide)), hleft, hmeets⟩

/-- Two shared gates are read by a buffer, which is read by a bidirectional port of another buffer only. -/
def Design.eavesdropper : Design where
  ports := .ofList [("a", ⟨"input", [.wire 2]⟩), ("b", ⟨"input", [.wire 3]⟩),
    ("y", ⟨"output", [.wire 9]⟩)]
  cells := .ofList [("g", .ofGate "$_AND_" [("A", .wire 2), ("B", .wire 3)] 4),
    ("h", .ofGate "$_OR_" [("A", .wire 2), ("B", .wire 3)] 5),
    ("t", .ofGate "$_TBUF_" [("A", .wire 4), ("B", .wire 4), ("E", .wire 5), ("F", .wire 5)] 6),
    ("u", {
      type := "$_TBUF_"
      portDirections := .ofList [("A", "input"), ("E", "input"), ("Y", "output"), ("Z", "inout")]
      connections := .ofList [("A", [.wire 2]), ("E", [.wire 3]), ("Y", [.wire 9]), ("Z", [.wire 6])] })]
  nets := .empty

/-- The pin node of one gate would do, but both go. -/
theorem Design.expand_below_budget : ∃ g g1 g2 r3 r4, eavesdropper.hasRegularGates = true ∧
    eavesdropper.toNetwork "m" = .ok g ∧ g.branched = .ok g1 ∧ g1.simplified = .ok g2 ∧
    g2.collapse = .ok r3 ∧ r3.2.expand (some 1) = .ok r4 ∧
    (r3.2.pinNodes.length = 2 ∧ r3.2.mergedPinNodes = 0 ∧ r4.2.pinNodes.length = 0) ∧
    ¬ MeetsBudget 1 r3.2 r4.2 := by
  have hd : eavesdropper.hasRegularGates = true := by decide +kernel
  have h : eavesdropper.run? "m" (fun g =>
      g.branched >>= fun g1 => g1.simplified >>= fun g2 => g2.collapse >>= fun r =>
        r.2.expand (some 1) >>= fun r' =>
          pure (r.2.pinNodes.length, r.2.mergedPinNodes, r'.2.pinNodes.length)) = some (2, 0, 0) := by
    decide +kernel
  simp only [run?_eq_some, Attempt.bind_eq_ok, Attempt.pure_eq_ok, Prod.mk.injEq] at h
  rcases h with ⟨g, hg, g1, h1, g2, h2, r3, h3, r4, h4, hcounts⟩
  refine ⟨g, g1, g2, r3, r4, hd, hg, h1, h2, h3, h4, hcounts, fun h => ?_⟩
  have hleft := h.length
  simp [hcounts] at hleft

end PldSynth
