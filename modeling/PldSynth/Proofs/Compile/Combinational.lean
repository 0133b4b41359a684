import PldSynth.Compile
import PldSynth.Proofs.Equation.Solution
import PldSynth.Proofs.Listing.CleanNames
import PldSynth.Proofs.Netlist.Built
import PldSynth.Proofs.Network.Budget
import PldSynth.Proofs.Network.Forwarding
import PldSynth.Proofs.Network.Sharing

/-!
# Designs without registers

For a design of gates the equations in a listing mean the same as the network that they were made from:
they have one solution for each assignment to the input ports, and it agrees with the network at
every other port (`Design.exists_unique_solution`).

The network at the end of the passes is compared with the network at their start in one step:
`Exhibits` says what each port has become, and what the values at the end are.
-/

namespace PldSynth

open Attempt List

/-- All cells are gates and inverters with one output at most and no bidirectional port. -/
def Design.isCombinational (d : Design) : Bool :=
  d.cells.entries.all fun e =>
    (Library.kindOfType? e.2.type).any NodeKind.isCombinational && e.2.isRegular

namespace Network

variable {K : NodeKind → Bool} {g g' g1 g2 g3 : Network} {n m : NodeId} {c p o : ConnId} {b : Bool}
  {v v' ports : ConnId → Bool} {literal : Nat → Bool} {es : List Equation} {σ : NodeId → Bool}

/-- The values that are given in the network of a module: constants have the values of their literals,
input ports have the values `ports`. -/
def given (g : Network) (literal : Nat → Bool) (ports : ConnId → Bool) (o : ConnId) : Bool :=
  match g.ownerOf? o with
  | some n =>
    if g.kindOf? n = some .constant then literal ((g.constantOf? n).getD 0) else ports o
  | none => ports o

/-- The pins that stand for input ports have the values of these ports. -/
def Assigns (g g' : Network) (ports : ConnId → Bool) (σ : NodeId → Bool) : Prop :=
  List.Forall₂ (fun p n => g.isOutput p = true → σ n = ports p) (g.connsOf designId) g'.pins

theorem branched_eq_ok :
    g.branched = .ok g' ↔ g.checkLoops = .ok () ∧ ∃ r, g.branch = .ok r ∧ r.2 = g' := by
  simp only [branched, bind_eq_ok, pure_eq_ok]
  constructor
  · rintro ⟨_, h⟩
    exact h
  · intro h
    exact ⟨(), h⟩

theorem simplified_eq_ok : g.simplified = .ok g' ↔ ∃ r, g.simplify = .ok r ∧ r.2 = g' := by
  simp only [simplified, bind_eq_ok, pure_eq_ok]

/-! ## Nothing to take over -/

/-- Without registers and buffers nothing is taken over. -/
theorem collapse_eq_self (h : ∀ n ∈ g.cells, g.hasKind NodeKind.isSequential n = false) :
    g.collapse = .ok (false, g) := by
  have hnone : ∀ p : NodeKind → Bool, (∀ k, p k → k.isSequential) →
      g.cells.filter (g.hasKind p) = [] := by
    intro p hp
    rw [filter_eq_nil_iff]
    intro n hn hk
    obtain ⟨k, hk', hpk⟩ := hasKind_iff.mp hk
    have := h n hn
    rw [hasKind, hk', Option.any_some, hp k hpk] at this
    cases this
  have hbuffers := hnone (· = .triState) (by intro k hk; rw [of_decide_eq_true hk]; rfl)
  have hregisters := hnone NodeKind.isRegister (by intro k hk; cases k <;> first | rfl | cases hk)
  rw [collapse, hbuffers]
  change ((g.cells.filter (g.hasKind NodeKind.isRegister)).foldlM _ _) = _
  rw [hregisters]
  rfl

/-! ## From the ports to the pins -/

/-- `g'` stands for `g`, with the values `v` where `g` has the values `given`: a pin of an input port
is untouched and has the value of the port, and any other pin shows what the network computes for its
port. -/
structure Exhibits (K : NodeKind → Bool) (g g' : Network) (literal : Nat → Bool)
    (ports v : ConnId → Bool) : Prop where
  literals : g'.LiteralsAt v literal
  pins : List.Forall₂ (fun p n =>
    (g.isSink p = true ∧ ∃ b, g.Reads (g.given literal ports) p b ∧ g'.Shows v n b) ∨
      (g.isOutput p = true ∧ g'.connsOf n = [p] ∧ g'.isSink p = false ∧ v p = ports p))
    (g.connsOf designId) g'.pins
  pinNodes : ∀ n ∈ g'.pinNodes, ∃ b, g'.Shows v n b

theorem literalsAt_given (hg : g.Owned) : g.LiteralsAt (g.given literal ports) literal := by
  intro n o ho hk
  simp [given, hg.owner ho, hk]

theorem given_port (hg : g.Owned) (ho : o ∈ g.connsOf designId) : g.given literal ports o = ports o := by
  simp [given, hg.owner ho, hg.design_kind]

theorem Fresh.exists_reads (hg : g.Fresh K) (hc : c ∈ g.connsOf n) (hs : g.isSink c) :
    ∃ b, g.Reads v c b := by
  obtain ⟨d, hd⟩ := hg.driven hc hs
  obtain ⟨b, hb⟩ := hg.settled v hs (d := d) (by simp [hd])
  exact ⟨b, hs, d, hd, hb⟩

/-- A pin whose only connection cannot be driven is given. -/
theorem isDerived_of_sole (hk : g.kindOf? n = some .pin) (hc : g.connsOf n = [p])
    (hs : g.isSink p = false) : g.isDerived n = false := by
  simp [isDerived, hasKind, hk, hc, hs, NodeKind.isCombinational]

/-- Literals keep their values if every constant was there before, with the same outputs. -/
theorem LiteralsAt.of_cells {v : ConnId → Bool} (h : g.LiteralsAt v literal) (hg' : g'.Sound)
    (he : Evolves g g') (hg : g.Owned) (hdesign : g'.connsOf designId = [])
    (hcells : ∀ n ∈ g'.cells, n ∈ g.cells) : g'.LiteralsAt v literal := by
  intro n o ho hk
  have hcell : n ∈ g'.cells := by
    rcases hg'.inUse ho with rfl | hn | hn | hn
    · simp [hdesign] at ho
    · exact hn
    · rw [hg'.pin_kind hn] at hk
      cases hk
    · rw [hg'.pinNode_kind hn] at hk
      cases hk
  have hn := hg.cell_isSome (hcells n hcell)
  have hk0 := (he.kind hn).symm.trans hk
  have ho0 := he.shrinks hn (by simp [hasKind, hk0, NodeKind.isNamed]) ho
  rw [h ho0 hk0, he.constant hn]

/-- After the ports have become pins. -/
theorem Branched.exhibits (h : Branched K g g') (hg : g.Fresh K) (literal : Nat → Bool)
    (ports : ConnId → Bool) : Exhibits K g g' literal ports (g.given literal ports) where
  literals := (literalsAt_given hg.toOwned).of_cells h.fresh.toSound h.refines.evolves hg.toOwned
    h.design h.cells
  pins := by
    have hmem := (forall₂_and_left _ _).mpr ⟨fun _ h => h, h.pins⟩
    apply hmem.imp
    rintro p n ⟨hp, hconns, -⟩
    have hps := hg.conn_isSome hp
    cases hs : g.isSink p with
    | true =>
      obtain ⟨b, hb⟩ := hg.exists_reads hp hs
      have hb' := (h.refines.preserves _).reads hb ⟨n, by simp [hconns]⟩
      exact .inl ⟨rfl, b, hb, p, by simp [hconns], hb'⟩
    | false =>
      have hout : g.isOutput p := by simpa [isSink_eq_not_isOutput hps] using hs
      have hs' : g'.isSink p = false := (h.refines.evolves.isSink hps).trans hs
      exact .inr ⟨hout, hconns, hs', given_port hg.toOwned hp⟩
  pinNodes n hn := by
    obtain ⟨c, hc, hs⟩ := h.pinNodes n hn
    obtain ⟨b, hb⟩ := h.fresh.exists_reads hc hs
    exact ⟨b, c, hc, hb⟩

/-- A pass that keeps all values keeps what the pins stand for. -/
theorem Exhibits.step (h : Exhibits K g g1 literal ports v) (hg1 : g1.Sound)
    (hdir : ∀ {c}, (g1.conn? c).isSome → g2.isSink c = g1.isSink c)
    (hpres : Preserves v v' g1 g2) (hlit : g2.LiteralsAt v' literal) (hpins : g2.pins = g1.pins)
    (hpinNodes : ∀ n ∈ g2.pinNodes, n ∈ g1.pinNodes)
    (hgiven : ∀ {p n}, n ∈ g1.pins → g1.connsOf n = [p] → g1.isSink p = false →
      g2.connsOf n = [p] ∧ v' p = v p) : Exhibits K g g2 literal ports v' where
  literals := hlit
  pins := by
    rw [hpins]
    have hmem := (forall₂_and_left _ _).mpr ⟨fun _ h => h, h.pins.flip⟩
    apply hmem.flip.imp
    rintro p n ⟨hn, ⟨hs, b, hb, hshow⟩ | ⟨hout, hconns, hs, hv⟩⟩
    · have hk : g1.hasKind NodeKind.isNamed n := hasKind_of (hg1.pin_kind hn) rfl
      exact .inl ⟨hs, b, hb, hpres.shows hk hshow (.inr (.inr (.inl (hpins ▸ hn))))⟩
    · obtain ⟨hconns', hv'⟩ := hgiven hn hconns hs
      have hps : (g1.conn? p).isSome := hg1.conn_isSome (n := n) (by simp [hconns])
      exact .inr ⟨hout, hconns', (hdir hps).trans hs, hv'.trans hv⟩
  pinNodes n hn := by
    have hn1 := hpinNodes n hn
    obtain ⟨b, hb⟩ := h.pinNodes n hn1
    exact ⟨b, hpres.shows (hasKind_of (hg1.pinNode_kind hn1) rfl) hb (.inr (.inr (.inr hn)))⟩

theorem Exhibits.simplified (h : Exhibits K g g1 literal ports v) (hg1 : g1.Sound)
    (hdesign : g1.connsOf designId = []) (hs : Simplified K g1 g2) : Exhibits K g g2 literal ports v := by
  refine h.step hg1 hs.refines.evolves.isSink (hs.refines.preserves v) ?_ hs.pins hs.pinNodes ?_
  · exact h.literals.of_cells hs.fresh.toSound hs.refines.evolves hg1.toOwned
      (hs.design.trans hdesign) hs.cells
  · intro p n hn hconns hp
    refine ⟨(hs.undriven hn ?_).trans hconns, rfl⟩
    simpa [hconns] using hp

theorem Exhibits.unfolds {origin : ConnId → ConnId} (h : Exhibits K g g1 literal ports v)
    (hg1 : g1.Sound) (hset : g1.Settled v) (hu : Unfolds K origin g1 g2) :
    Exhibits K g g2 literal ports (v ∘ origin) := by
  refine h.step hg1 hu.evolves.isSink (hu.preserves hset) ?_ hu.pins (fun n hn => hu.pinNodes.subset hn) ?_
  · intro n o ho hk
    obtain ⟨m, hm, hkind, hval⟩ := hu.literal ho
    rw [Function.comp, h.literals hm (hkind ▸ hk), hval]
  · intro p n hn hconns hp
    have hps : (g1.conn? p).isSome := hg1.conn_isSome (n := n) (by simp [hconns])
    refine ⟨?_, by rw [Function.comp, hu.old hps]⟩
    rw [hu.connsOf (isSome_of_kindOf? (hg1.pin_kind hn)) (.inr (.inr (.inl (hu.pins ▸ hn))))]
    exact hconns

theorem Exhibits.relabels (h : Exhibits K g g1 literal ports v) (hg1 : g1.Fresh K)
    (hr : Relabels g1 g2) : Exhibits K g g2 literal ports v := by
  refine h.step hg1.toSound (fun _ => hr.alike.isSink _) (hr.preserves hg1) ?_ hr.alike.pins
    (fun n hn => hr.alike.pinNodes ▸ hn) fun _ hconns _ => ⟨(hr.alike.connsOf _).trans hconns, rfl⟩
  intro n o ho hk
  rw [hr.alike.connsOf] at ho
  rw [hr.alike.kindOf?] at hk
  rw [h.literals ho hk, hr.alike.constantOf?]

/-! ## The solution in terms of the ports -/

/-- What the equations of `g'` say, for the values `ports` of the input ports of `g`: they have a
solution, it is unique on the pins and pin nodes, and it gives every port that can be driven the value
that `g` computes. -/
structure Determines (g g' : Network) (literal : Nat → Bool) (ports : ConnId → Bool)
    (es : List Equation) (σ : NodeId → Bool) : Prop where
  solves : g'.Solves literal es σ
  assigns : g.Assigns g' ports σ
  unique : ∀ σ', g'.Solves literal es σ' → g.Assigns g' ports σ' →
    ∀ n ∈ g'.pins ++ g'.pinNodes, σ' n = σ n
  computes : List.Forall₂ (fun p n => g.isSink p = true → g.Reads (g.given literal ports) p (σ n))
    (g.connsOf designId) g'.pins

/-- The pin of an input port has the value of the port. -/
theorem holds_of_sole (hg : g.Sound) (hn : n ∈ g.pins) (hconns : g.connsOf n = [p])
    (hs : g.isSink p = false) : g.Holds v n (v p) := by
  have hp : p ∈ g.connsOf n := by simp [hconns]
  refine .inr ⟨isDerived_of_sole (hg.pin_kind hn) hconns hs, p, hp, ?_, rfl⟩
  simpa [isSink_eq_not_isOutput (hg.conn_isSome hp)] using hs

theorem Exhibits.exists_holds (h : Exhibits K g g' literal ports v) (hg' : g'.Sound)
    (hn : n ∈ g'.pins ++ g'.pinNodes) : ∃ b, g'.Holds v n b := by
  rcases mem_append.mp hn with hn | hn
  · obtain ⟨i, hi, rfl⟩ := getElem_of_mem hn
    rcases h.pins.get (h.pins.length_eq ▸ hi) hi with ⟨-, b, -, hb⟩ | ⟨-, hconns, hs, -⟩
    · exact ⟨b, .inl hb⟩
    · exact ⟨_, holds_of_sole hg' hn hconns hs⟩
  · obtain ⟨b, hb⟩ := h.pinNodes n hn
    exact ⟨b, .inl hb⟩

/-- A solution that agrees with the input ports is right about the nodes that nothing drives. -/
theorem Exhibits.value_of_given (h : Exhibits K g g' literal ports v) (hg' : g'.Combinational K)
    (ha : g.Assigns g' ports σ) (hk : g'.hasKind NodeKind.isNamed n) (hn : g'.isDerived n = false)
    (ho : o ∈ g'.connsOf n) : σ n = v o := by
  have hclash : ∀ {b}, ¬ g'.Shows v n b := by
    rintro b ⟨c, hc, hs, -⟩
    rw [hg'.isDerived_of_isSink hk hc hs] at hn
    cases hn
  rcases mem_append.mp (hg'.mem_of_isNamed ho hk) with hpin | hpin
  · obtain ⟨i, hi, rfl⟩ := getElem_of_mem hpin
    have hlen := h.pins.length_eq
    have hσ := ha.get (hlen ▸ hi) hi
    rcases h.pins.get (hlen ▸ hi) hi with ⟨-, b, -, hb⟩ | ⟨hp, hconns, -, hv⟩
    · exact (hclash hb).elim
    · change g'.connsOf (g'.pins[i]) = [_] at hconns
      rw [hconns, mem_singleton] at ho
      rw [ho, hv]
      exact hσ hp
  · obtain ⟨b, hb⟩ := h.pinNodes n hpin
    exact (hclash hb).elim

/-- The equations of what stands for `g` determine the values of its ports. -/
theorem Exhibits.determines (h : Exhibits K g g' literal ports v) (hg' : g'.Combinational K)
    (hes : g'.equations = .ok es) : ∃ σ, Determines g g' literal ports es σ := by
  obtain ⟨σ, hsol, hσ⟩ := hg'.exists_solves hes h.literals
  have hpin : ∀ {n}, n ∈ g'.pins → g'.hasKind NodeKind.isNamed n := fun hn =>
    hasKind_of (hg'.pin_kind hn) rfl
  have hmem := (forall₂_and_left _ _).mpr ⟨fun _ h => h, h.pins.flip⟩
  refine ⟨σ, hsol, hmem.flip.imp ?_, fun σ' hsol' ha n hn => ?_, hmem.flip.imp ?_⟩
  · rintro p n ⟨hn, ⟨hs, -⟩ | ⟨-, hconns, hs, hv⟩⟩ hp
    · rw [not_isSink_of_isOutput hp] at hs
      cases hs
    · rw [← hv]
      exact hσ (hpin hn) (holds_of_sole hg'.toSound hn hconns hs)
  · have hk := hg'.isNamed_of_mem hn
    obtain ⟨b, hb⟩ := h.exists_holds hg'.toSound hn
    rw [hσ hk hb]
    exact hg'.value_of_solves hes h.literals hsol'
      (fun hk hder ho _ => h.value_of_given hg' ha hk hder ho) hk hb
  · rintro p n ⟨hn, ⟨hs, b, hb, hshow⟩ | ⟨hout, -⟩⟩ hsink
    · rw [hσ (hpin hn) (.inl hshow)]
      exact hb
    · rw [not_isSink_of_isOutput hout] at hsink
      cases hsink

end Network

/-! ## The whole way -/

open Network

variable {d : Design} {g g1 g2 final : Network} {name : String} {limit : Option Nat}

/-- The network of a combinational design has no sequential cell. -/
theorem Design.Built.logic (h : d.Built g) (hd : d.isCombinational) (n : NodeId) :
    g.hasKind NodeKind.isSequential n = false := by
  cases hk : g.kindOf? n with
  | none => simp [hasKind, hk]
  | some k =>
    rw [hasKind, hk]
    rcases h.covers.cells hk with rfl | rfl | ⟨e, he, htype, -⟩
    · rfl
    · rfl
    · simp only [Design.isCombinational, all_eq_true, Bool.and_eq_true] at hd
      have hcomb := (hd e he).1
      rw [htype] at hcomb
      cases k <;> first | rfl | cases hcomb

theorem Design.Built.fresh_of_isCombinational (h : d.Built g) (hd : d.isCombinational)
    (hloops : g.checkLoops = .ok ()) : g.Fresh NodeKind.isCombinational := by
  refine h.fresh (fun e he k _ _ => .inr ?_) rfl hloops
  simp only [Design.isCombinational, all_eq_true, Bool.and_eq_true] at hd
  exact (hd e he).2

theorem Network.Unfolds.logic_cells {K : NodeKind → Bool} {origin : ConnId → ConnId}
    (h : Unfolds K origin g1 g2) (hlogic : ∀ n ∈ g1.cells, g1.hasKind NodeKind.isSequential n = false) :
    ∀ n ∈ g2.cells, g2.hasKind NodeKind.isSequential n = false := by
  intro n hn
  by_cases hs : (g1.node? n).isSome
  · rw [h.evolves.hasKind hs]
    cases hk : g1.hasKind NodeKind.isSequential n with
    | false => rfl
    | true => exact hk ▸ hlogic n ((h.sequential hk).mp hn)
  · exact h.logic (Option.not_isSome_iff_eq_none.mp hs)

/-- The passes lead from a combinational design to a network of gates, pins and pin nodes that stands
for the network of the design. -/
theorem Design.Built.exhibits (h : d.Built g) (hd : d.isCombinational) (h1 : g.branched = .ok g1)
    (h2 : g1.simplified = .ok g2) (h3 : g2.reduced limit = .ok final) :
    final.Combinational NodeKind.isCombinational ∧ ∀ literal ports, ∃ v,
      Exhibits NodeKind.isCombinational g final literal ports v := by
  obtain ⟨hloops, r1, hr1, rfl⟩ := branched_eq_ok.mp h1
  obtain ⟨r2, hr2, rfl⟩ := simplified_eq_ok.mp h2
  have hg := h.fresh_of_isCombinational hd hloops
  obtain ⟨hb, -⟩ := branch_spec hg h.pins h.pinNodes hr1
  obtain ⟨hs, htop⟩ := simplify_spec hb.fresh hr2
  -- there is nothing to take over, so the third pass changes nothing
  have hlogic : ∀ n ∈ r2.2.cells, r2.2.hasKind NodeKind.isSequential n = false := by
    intro n hn
    have hn1 := hs.cells n hn
    rw [hs.refines.evolves.hasKind (hb.fresh.cell_isSome hn1),
      hb.refines.evolves.hasKind (hg.cell_isSome (hb.cells n hn1))]
    exact h.logic hd n
  simp only [reduced, collapse_eq_self hlogic, bind_eq_ok] at h3
  obtain ⟨r3, hr3, r4, hr4, hclean⟩ := h3
  cases hr3
  obtain ⟨⟨origin, hu⟩, htop'⟩ := unfolds_expand (v := fun _ => false) hs.fresh.toTidy
    (fun _ hk => hk) (hs.fresh.settled _) hr4
  have hr := relabels_cleanNames hclean
  have hf := hu.fresh hs.fresh
  have hdesign : r2.2.connsOf designId = [] := hs.design.trans hb.design
  refine ⟨⟨hr.fresh hf, ?_, fun n hn => ?_, hr.collected (htop' htop)⟩, fun literal ports => ?_⟩
  · rw [hr.alike.connsOf, hu.connsOf (isSome_of_kindOf? hs.fresh.design_kind) (.inl rfl)]
    exact hdesign
  · rw [hr.hasKind]
    exact hu.logic_cells hlogic n (hr.alike.cells ▸ hn)
  · have hex := (hb.exhibits hg literal ports).simplified hb.fresh.toSound hb.design hs
    exact ⟨_, (hex.unfolds hs.fresh.toSound (hs.fresh.settled _) hu).relabels hf hr⟩

/-- For a design of gates, the equations of the listing have exactly one solution for each assignment
to the input ports, and at every port that can be driven it has the value that the network of the
design computes there. Signals are told apart by their nodes and not by their names, and the literals
may have any values. -/
theorem Design.exists_unique_solution {options : Options} {s : String}
    (hd : d.isCombinational = true) (hg : d.toNetwork name = .ok g) (hs : g.compile options = .ok s) :
    List.Forall₂ g.Labelled (d.ports.entries.flatMap Draft.portBits) (g.connsOf designId) ∧
      ∃ g1 g2 final es, g.branched = .ok g1 ∧ g1.simplified = .ok g2 ∧
        g2.reduced options.pinNodeLimit = .ok final ∧ final.equations = .ok es ∧
        final.listing options = .ok s ∧
        ∀ literal ports, ∃ σ, Determines g final literal ports es σ := by
  have hbuilt := built_toNetwork hg
  refine ⟨hbuilt.covers.ports, ?_⟩
  simp only [Network.compile, bind_eq_ok] at hs
  obtain ⟨g1, h1, g2, h2, final, h3, hlist⟩ := hs
  have hes := hlist
  simp only [listing, bind_eq_ok] at hes
  obtain ⟨-, -, -, -, -, -, es, hes, -⟩ := hes
  obtain ⟨hfinal, hall⟩ := hbuilt.exhibits hd h1 h2 h3
  refine ⟨g1, g2, final, es, h1, h2, h3, hes, hlist, fun literal ports => ?_⟩
  obtain ⟨v, hv⟩ := hall literal ports
  exact hv.determines hfinal hes

/-- A cell with inputs and one output `Y`. -/
def Cell.ofGate (type : String) (inputs : List (String × Bit)) (output : Int) : Cell where
  type := type
  portDirections := .ofList (inputs.map (fun p => (p.1, "input")) ++ [("Y", "output")])
  connections := .ofList (inputs.map (fun p => (p.1, [p.2])) ++ [("Y", [.wire output])])

/-- An adder whose carry is read twice, once beside a literal. -/
def Design.adder : Design where
  ports := .ofList [("a", ⟨"input", [.wire 2]⟩), ("b", ⟨"input", [.wire 3]⟩),
    ("high", ⟨"output", [.wire 6]⟩), ("sum", ⟨"output", [.wire 4, .wire 7]⟩)]
  cells := .ofList [("x", .ofGate "$_XOR_" [("A", .wire 2), ("B", .wire 3)] 4),
    ("c", .ofGate "$_AND_" [("A", .wire 2), ("B", .wire 3)] 5),
    ("n", .ofGate "$_NOT_" [("A", .wire 5)] 7),
    ("l", .ofGate "$_OR_" [("A", .wire 5), ("B", .literal "1")] 6)]
  nets := .empty

/-- The adder, with no pin node allowed. -/
theorem Design.exists_unique_solution_adder : ∃ g s, adder.isCombinational = true ∧
    adder.toNetwork "adder" = .ok g ∧ g.compile { pinNodeLimit := some 0 } = .ok s ∧
    List.Forall₂ g.Labelled (adder.ports.entries.flatMap Draft.portBits) (g.connsOf designId) ∧
      ∃ g1 g2 final es, g.branched = .ok g1 ∧ g1.simplified = .ok g2 ∧
        g2.reduced (some 0) = .ok final ∧ final.equations = .ok es ∧
        final.listing { pinNodeLimit := some 0 } = .ok s ∧
        ∀ literal ports, ∃ σ, Determines g final literal ports es σ := by
  have hd : adder.isCombinational = true := by decide +kernel
  have hrun : (adder.run? "adder" (·.compile { pinNodeLimit := some 0 })).isSome := by
    decide +kernel
  obtain ⟨s, h⟩ := Option.isSome_iff_exists.mp hrun
  obtain ⟨g, hg, hs⟩ := run?_eq_some.mp h
  exact ⟨g, s, hd, hg, hs, exists_unique_solution hd hg hs⟩

end PldSynth
