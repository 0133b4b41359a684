import Mathlib.Data.List.Forall2
import PldSynth.Proofs.Compile.Sequential
import PldSynth.Proofs.Network.FixedPoint

/-!
# The first two passes, on everything that can be drawn

What the first pass does to a drawn network does not depend on the cells being regular, and circles of gates
are no obstacle either: it succeeds, every signal that the outside depends on has one reader or a name, and a
second run changes nothing (`Design.branch_once`). The second pass then fails at the controls of latches only,
and where it succeeds a second run changes nothing as well (`Design.simplify_once`).
-/

namespace PldSynth

open Network

variable {d : Design} {g : Network} {name : String}

/-- A drawn network is in order, whatever the shape of its cells. -/
theorem Design.Built.raw_of_any (h : d.Built g) : g.Raw fun _ => false :=
  h.raw (fun _ _ _ _ hk => absurd hk Bool.false_ne_true) rfl

theorem Design.Built.no_pinNode (h : d.Built g) (n : NodeId) : g.kindOf? n ≠ some .pinNode := by
  intro hk
  rcases h.covers.cells hk with hk' | hk' | ⟨e, -, htype, -⟩
  · cases hk'
  · cases hk'
  · cases (Draft.isCell_of_kindOfType? htype).1

/-- What the first pass makes of a drawn network is ready for the second. -/
theorem Design.Built.trimmable_branch {r : Bool × Network} (h : d.Built g) (hrun : g.branch = .ok r) :
    r.2.Trimmable (fun _ => false) ∧ r.2.Collected := by
  have hlayered := layered_branch h.raw_of_any h.pins h.pinNodes h.oneDataAt hrun
  have hout := branchedOut_branch h.raw_of_any h.pins h.no_pinNode hrun
  refine ⟨⟨hlayered.toRaw, hlayered.anchored, hlayered.read, fun n hn => ?_⟩, hout.collected⟩
  rcases hout.pinNodes (hlayered.pinNode_kind hn) with ⟨out, inp, o, m, hr⟩
  exact ⟨inp, by simp [hr.conns], isSink_of_isInput hr.inp_isInput⟩

/-- The first pass succeeds on every drawn network, loops of gates included. The design node is left without
connections, and there is a pin for each of its ports, in order and under the name of the port. If an output of
a node that is no pin, pin node, register or buffer drives a connection that a pin, register or buffer depends
on, it drives nothing else. Every pin node stands behind such an output and drives the connections that the
output drove, of which there were several, in the same order. A second run changes nothing. -/
theorem Design.branch_once (h : d.toNetwork name = .ok g) : ∃ r, g.branch = .ok r ∧
    r.2.connsOf designId = [] ∧
    List.Forall₂ (fun p n => r.2.kindOf? n = some .pin ∧ r.2.connsOf n = [p] ∧
      r.2.nodeNameOf? n = g.connNameOf? p) (g.connsOf designId) r.2.pins ∧
    (∀ n o c, o ∈ r.2.connsOf n → r.2.isOutput o = true → r.2.hasKind NodeKind.isUnnamed n = true →
      c ∈ r.2.refsOf o → r.2.Upstream c → r.2.refsOf o = [c]) ∧
    (∀ n, r.2.kindOf? n = some .pinNode → ∃ out inp o m, Relays g r.2 n out inp o m) ∧
    r.2.branch = .ok (false, r.2) := by
  have hbuilt := built_toNetwork h
  rcases exists_branch hbuilt.raw_of_any hbuilt.pinNodes with ⟨r, hrun⟩
  have hout := branchedOut_branch hbuilt.raw_of_any hbuilt.pins hbuilt.no_pinNode hrun
  have hkinds : ∀ n ∈ r.2.pins, r.2.kindOf? n = some .pin := fun n hn => hout.sound.pin_kind hn
  have hpins := ((List.forall₂_and_left _ _).mpr ⟨hkinds, hout.pins.flip⟩).flip
  refine ⟨r, hrun, hout.design, hpins, ?_, fun n hn => hout.pinNodes hn, hout.again⟩
  intro n o c ho hisout hunnamed hc hup
  exact hout.unbranched hup (hout.sound.mirror hc) ho hunnamed

/-- A gate that drives two ports and an inverter, which it reads in turn. -/
def Design.sharedLoop : Design where
  ports := .ofList [("a", ⟨"input", [.wire 2]⟩), ("y", ⟨"output", [.wire 5]⟩),
    ("z", ⟨"output", [.wire 5]⟩)]
  cells := .ofList [("g", .ofGate "$_AND_" [("A", .wire 2), ("B", .wire 6)] 5),
    ("h", .ofGate "$_NOT_" [("A", .wire 5)] 6)]
  nets := .empty

/-- A loop of gates whose signal is shared: a pin node passes it on to the port and to both gates. -/
theorem Design.branch_once_sharedLoop : ∃ g r m, sharedLoop.toNetwork "m" = .ok g ∧
    g.checkLoops.isOk = false ∧ g.branch = .ok r ∧
    r.2.pins.map r.2.nodeNameOf? = ["a", "y", "z"].map some ∧ g.refsOf ⟨5⟩ = [⟨6⟩, ⟨1⟩, ⟨2⟩] ∧
    r.2.connsOf ⟨6⟩ = [⟨8⟩, ⟨9⟩] ∧ Relays g r.2 ⟨6⟩ ⟨8⟩ ⟨9⟩ ⟨5⟩ m ∧ r.2.branch = .ok (false, r.2) := by
  have h : sharedLoop.run? "m" (fun g =>
      g.branch >>= fun r => pure (decide (g.checkLoops.isOk = false ∧
        r.2.pins.map r.2.nodeNameOf? = ["a", "y", "z"].map some ∧ g.refsOf ⟨5⟩ = [⟨6⟩, ⟨1⟩, ⟨2⟩] ∧
        r.2.kindOf? ⟨6⟩ = some .pinNode ∧ r.2.connsOf ⟨6⟩ = [⟨8⟩, ⟨9⟩] ∧
        r.2.refsOf ⟨9⟩ = [⟨5⟩]))) = some true := by
    decide +kernel
  simp only [run?_eq_some, Attempt.bind_eq_ok, Attempt.pure_eq_ok, decide_eq_true_eq] at h
  rcases h with ⟨g, hg, r, hr, hloop, hnames, hrefs, hkind, hconns, hdriver⟩
  rcases branch_once hg with ⟨r', hr', -, -, -, hrelays, hagain⟩
  cases hr.symm.trans hr'
  rcases hrelays ⟨6⟩ hkind with ⟨out, inp, o, m, h⟩
  cases hconns.symm.trans h.conns
  cases hdriver.symm.trans h.driver
  exact ⟨g, r, m, hg, hloop, hr, hnames, hrefs, hconns, h, hagain⟩

/-- On what the first pass makes of a drawn network, the second one fails if and only if something other than a
constant 0 drives an asynchronous control of a latch, and the error names such a control. Otherwise no latch
has a control left, no pin or pin node with a single input reads another pin node, and a second run changes
nothing. -/
theorem Design.simplify_once {r : Bool × Network} (h : d.toNetwork name = .ok g)
    (hrun : g.branch = .ok r) :
    ((∃ e, r.2.simplify = .error e) ↔ ∃ e, r.2.ControlInUse e) ∧
    (∀ e, r.2.simplify = .error e → r.2.ControlInUse e) ∧
    ∀ s, r.2.simplify = .ok s →
      (∀ n c control, s.2.kindOf? n = some .latch → c ∈ s.2.connsOf n → s.2.isInput c = true →
        s.2.connNameOf? c ≠ some (LatchControl.port control)) ∧
      (∀ a c o b, s.2.hasKind NodeKind.isNamed a = true → (s.2.connsOf a).filter s.2.isSink = [c] →
        s.2.isInput c = true → o ∈ s.2.refsOf c → o ∈ s.2.connsOf b → s.2.kindOf? b = some .pinNode →
        b = a) ∧
      s.2.simplify = .ok (false, s.2) := by
  rcases (built_toNetwork h).trimmable_branch hrun with ⟨hg, htop⟩
  have hfails : ∀ e, r.2.simplify = .error e → r.2.ControlInUse e := by
    intro e he
    rcases ends_simplify hg htop with ⟨s, hs, -⟩ | ⟨e', he', huse⟩
    · rw [hs] at he
      cases he
    · rw [he'] at he
      cases he
      exact huse
  refine ⟨⟨fun ⟨e, he⟩ => ⟨e, hfails e he⟩, fun ⟨e, he⟩ => ?_⟩, hfails, fun s hs => ?_⟩
  · cases hs : r.2.simplify with
    | error e' => exact ⟨e', rfl⟩
    | ok s => exact absurd ((exists_simplify_iff hg htop).mp ⟨s, hs⟩) he.not_controlsIdle
  · -- what is left has nothing to drop
    have htrimmed := trimmed_simplify hg htop hs
    refine ⟨fun n c control hk hc hin => htrimmed.uncontrolled hk hc hin control, ?_, htrimmed.simplify⟩
    intro a c o b ha hsole hin ho hob hk
    by_contra hne
    have hc : c ∈ s.2.connsOf a := List.mem_of_mem_filter (by rw [hsole]; simp)
    exact htrimmed.unforwarded c o a b ⟨hc, hin, ha,
      htrimmed.refsOf_eq_singleton (isSink_of_isInput hin) ho, hob, hne, hk⟩

/-- The transceiver: the idle controls of its latch go, and so does the pin node between the parity and
its port. -/
theorem Design.simplify_once_transceiver : ∃ g r s, transceiver.toNetwork "bus" = .ok g ∧
    g.branch = .ok r ∧ r.2.simplify = .ok s ∧ (∀ e, ¬ r.2.ControlInUse e) ∧
    (r.2.connsOf ⟨1⟩).map r.2.connNameOf? = ["CLR", "L", "LE", "PRE", "Q"].map some ∧
    (s.2.connsOf ⟨1⟩).map s.2.connNameOf? = ["L", "LE", "Q"].map some ∧
    r.2.pinNodes = [⟨16⟩, ⟨17⟩] ∧ s.2.pinNodes = [⟨16⟩] ∧ s.2.simplify = .ok (false, s.2) := by
  have h : transceiver.run? "bus" (fun g =>
      g.branch >>= fun r => r.2.simplify >>= fun s => pure (decide (
        (r.2.connsOf ⟨1⟩).map r.2.connNameOf? = ["CLR", "L", "LE", "PRE", "Q"].map some ∧
        (s.2.connsOf ⟨1⟩).map s.2.connNameOf? = ["L", "LE", "Q"].map some ∧
        r.2.pinNodes = [⟨16⟩, ⟨17⟩] ∧ s.2.pinNodes = [⟨16⟩]))) = some true := by
    decide +kernel
  simp only [run?_eq_some, Attempt.bind_eq_ok, Attempt.pure_eq_ok, decide_eq_true_eq] at h
  rcases h with ⟨g, hg, r, hr, s, hs, hbefore, hafter, hpn, hpn'⟩
  rcases simplify_once hg hr with ⟨hfails, -, hdone⟩
  refine ⟨g, r, s, hg, hr, hs, fun e he => ?_, hbefore, hafter, hpn, hpn', (hdone s hs).2.2⟩
  rcases hfails.mpr ⟨e, he⟩ with ⟨e', he'⟩
  cases hs.symm.trans he'

end PldSynth
