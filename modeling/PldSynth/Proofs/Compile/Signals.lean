import PldSynth.Proofs.Compile.Suffixes
import PldSynth.Proofs.Network.Isolation

/-!
# The signals in a listing

Every signal that is read in an equation is declared in the same listing as a pin or a pin node: when the
passes are done, nothing reads a register, a buffer or a port of the design any more. A left-hand side
belongs to a pin, to a pin node or to a register or buffer that was left in place because nothing reads it
(`Design.signals_declared`). Gates may have any number of outputs here, and buffers any number of
bidirectional ports.
-/

namespace PldSynth

open List

/-! ## Names in a term -/

mutual

/-- The names of the signals in a term, in order. -/
def Term.signals : Term → List String
  | .signal _ name => [name]
  | .constant _ _ => []
  | .invert _ arg => arg.signals
  | .combine _ _ args => Term.signalsOf args

/-- The names of the signals in several terms. -/
def Term.signalsOf : List Term → List String
  | [] => []
  | t :: ts => t.signals ++ Term.signalsOf ts

end

theorem Term.mem_signalsOf {s : String} {ts : List Term} :
    s ∈ Term.signalsOf ts ↔ ∃ t ∈ ts, s ∈ t.signals := by
  induction ts with
  | nil => simp [Term.signalsOf]
  | cons t ts ih => simp [Term.signalsOf, ih]

/-- The listing declares these pins and pin nodes and holds these equations. -/
def Listing.Holds (options : Options) (out : String) (pins pinNodes : List String)
    (es : List Equation) : Prop :=
  ∃ header, out = lines header ++ gap ++ banner ++ gap ++ lines (pins.map (pinLine options.pins)) ++
    gap ++ lines (pinNodes.map pinNodeLine) ++ gap ++ lines (es.map Equation.render)

/-- What ends an expression is a pin or pin node, unless it is a register, a buffer or the design. -/
theorem NodeKind.isNamed_of_isBoundary {k : NodeKind} (h : k.isBoundary) (hseq : k.isSequential = false)
    (hk : k ≠ .design) : k.isNamed := by
  cases k <;> first | rfl | exact absurd rfl hk | exact absurd hseq (by decide) | cases h

namespace Network

variable {K : NodeKind → Bool} {g g' : Network} {n : NodeId} {c d o : ConnId} {s name : String}
  {t : Term} {es : List Equation} {e : Equation} {options : Options} {out : String}

theorem holds_listing (h : g.listing options = .ok out) : ∃ pins pinNodes es,
    g.pins.map g.nodeNameOf? = pins.map some ∧ g.pinNodes.map g.nodeNameOf? = pinNodes.map some ∧
      g.equations = .ok es ∧ Listing.Holds options out pins pinNodes es := by
  have hnames : ∀ {ns : List NodeId} {l : List String}, ns.mapM g.nodeName = .ok l →
      ns.map g.nodeNameOf? = l.map some := by
    intro ns l hl
    refine map_eq_of_forall₂ ((Attempt.mapM_eq_ok.mp hl).imp fun n s hs => ?_)
    exact nodeName_eq_ok.mp hs
  simp only [listing, Attempt.bind_eq_ok, Attempt.pure_eq_ok] at h
  rcases h with ⟨m, -, pins, hpins, pinNodes, hpinNodes, es, hes, rfl⟩
  exact ⟨pins, pinNodes, es, hnames hpins, hnames hpinNodes, hes, _, rfl⟩

/-! ## Signals that are read -/

/-- A pin or pin node has this name. -/
def Declared (g : Network) (s : String) : Prop :=
  ∃ n ∈ g.pins ++ g.pinNodes, g.nodeNameOf? n = some s

/-- What ends an expression is a pin or pin node, by its name. -/
theorem Isolated.declared_signalName (hg : g.Isolated K) (hs : g.isSink c) (ho : o ∈ g.refsOf c)
    (hn : o ∈ g.connsOf n) (hk : g.hasKind NodeKind.isBoundary n) (hname : g.signalName? n o = some s) :
    g.Declared s := by
  have hsound := hg.tidy.toSound
  rcases hasKind_iff.mp hk with ⟨k, hkind, hbound⟩
  have hunread : k.isSequential = false := by
    by_contra hseq
    have hback := hsound.mirror ho
    rw [hg.unread (hasKind_of hkind (by simpa using hseq)) hn
      (hsound.output_of_sink ho hs)] at hback
    cases hback
  have hdesign : k ≠ .design := by
    rintro rfl
    rw [hsound.eq_designId (hsound.inUse hn) hkind, hg.design] at hn
    cases hn
  have hnamed := NodeKind.isNamed_of_isBoundary hbound hunread hdesign
  refine ⟨n, hsound.mem_of_isNamed hn (hasKind_of hkind hnamed), ?_⟩
  unfold signalName? at hname
  rw [hkind] at hname
  cases k <;> first | exact hname | cases hnamed

/-- The signals in the expression behind an output that is read. The induction is on the levels of the
expression. -/
theorem Isolated.declared_termOf {levels : Nat} {w w' : NodeSet} (hg : g.Isolated K)
    (hs : g.isSink c) (ho : o ∈ g.refsOf c) (h : g.termOf name levels w o = .ok (t, w')) :
    ∀ s ∈ t.signals, g.Declared s := by
  induction levels generalizing c o w w' t with
  | zero =>
    cases h
  | succ levels ih =>
    have hsound := hg.tidy.toSound
    rcases hsound.listed (hsound.mirror ho) with ⟨n, hn⟩
    -- the drivers of the node are read as well
    have hdrivers : ∀ {d t'}, d ∈ g.driversAt n →
        (∃ w w', g.termOf name levels w d = .ok (t', w')) → ∀ s ∈ t'.signals, g.Declared s := by
      intro d t' hd hterm
      rcases mem_driversAt.mp hd with ⟨x, -, hxs, hx⟩
      rcases hterm with ⟨_, _, hterm⟩
      exact ih hxs (mem_of_head? hx) hterm
    intro s hmem
    cases readsOff_termOf (hsound.owner hn) h with
    | signal hk hname =>
      rw [Term.signals, mem_singleton] at hmem
      exact hg.declared_signalName hs ho hn hk (hmem ▸ hname)
    | constant hk => cases hmem
    | invert hk hd ht => exact hdrivers (by simp [hd]) ht s hmem
    | combine hk hlen ht =>
      rw [Term.signals, Term.mem_signalsOf] at hmem
      rcases hmem with ⟨t', ht', hmem⟩
      rcases exists_left_of_forall₂ ht ht' with ⟨d, hd, hterm⟩
      exact hdrivers hd hterm s hmem

/-- An equation mentions pins and pin nodes, and its left-hand side belongs to one of them or to a
register or buffer. -/
theorem Isolated.declared_equation (hg : g.Isolated K) (hcheck : g.Checked)
    (hes : g.equations = .ok es) (he : e ∈ es) : (∀ s ∈ e.term.signals, g.Declared s) ∧
      ∃ n, e.input ∈ g.connsOf n ∧ (n ∈ g.pins ++ g.pinNodes ∨
        n ∈ g.cells ∧ g.hasKind NodeKind.isSequential n) := by
  rcases exists_left_of_forall₂ (equations_spec hes) he with ⟨c, hc, rfl, -, d, hd, w, w', hterm⟩
  rcases hcheck.mem_top.mp (mem_filter.mp hc).1 with ⟨n, hn, hcn, hs, -⟩
  refine ⟨hg.declared_termOf hs (mem_of_find?_eq_some hd) hterm, n, hcn, ?_⟩
  rcases mem_append.mp hn with hn | hn
  · exact .inl hn
  · exact .inr (mem_filter.mp hn)

/-- A register or buffer with a connection is among the cells. -/
theorem Owned.mem_cells_of_isSequential (hg : g.Owned) (hc : c ∈ g.connsOf n)
    (hk : g.hasKind NodeKind.isSequential n) : n ∈ g.cells := by
  rcases hasKind_iff.mp hk with ⟨k, hk, hseq⟩
  exact hg.mem_cells_of_isCell hc (isCell_of_isSequential (hasKind_of hk hseq))

theorem Isolated.relabels (hg : g.Isolated K) (h : Relabels g g') : g'.Isolated K where
  tidy := h.alike.tidy hg.tidy
  settled v := (h.alike.preserves h.absorbedOf hg.tidy.toSound (hg.settled v)).settled
  unread {n} hk o ho hout := by
    rw [hasKind, h.alike.kindOf?] at hk
    rw [h.alike.connsOf] at ho
    rw [h.alike.isOutput] at hout
    rw [h.alike.refsOf]
    exact hg.unread hk ho hout
  design := (h.alike.connsOf designId).trans hg.design

end Network

/-! ## The whole way -/

open Network

variable {d : Design} {g g1 g2 g' : Network} {name out : String} {options : Options}
  {r3 r4 : Bool × Network}

/-- Buffers have one output at most. -/
def Design.hasLoneBuffers (d : Design) : Bool :=
  d.cells.entries.all fun e => Library.kindOfType? e.2.type != some .triState ||
    e.2.connections.entries.countP (fun p => e.2.portDirections.get? p.1 == some "output") ≤ 1

theorem Design.Built.loneCells (h : d.Built g) (hd : d.hasLoneBuffers) : g.LoneCells := by
  intro n _ hseq
  rcases hasKind_iff.mp hseq with ⟨k, hk, hseq⟩
  rcases h.covers.cells hk with rfl | rfl | ⟨e, he, htype, hdrawn⟩
  · cases hseq
  · cases hseq
  rcases NodeKind.isRegister_or_eq hseq with hreg | rfl
  · exact (hdrawn.regularAt_register hreg).lone
  · simp only [Design.hasLoneBuffers, all_eq_true, Bool.or_eq_true, bne_iff_ne,
      decide_eq_true_eq] at hd
    exact hdrawn.loneAt rfl ((hd e he).resolve_left fun hne => hne htype)

/-- After registers and buffers were taken over, nothing reads the rest of them. -/
theorem Design.Built.isolated (h : d.Built g) (hd : d.hasLoneBuffers) (h1 : g.branched = .ok g1)
    (h2 : g1.simplified = .ok g2) (h3 : g2.collapse = .ok r3) : r3.2.Isolated fun _ => false := by
  rcases h.passes (fun hloops => h.fresh (K := fun _ => false) (fun _ _ _ _ hk => nomatch hk) rfl hloops)
    h1 h2 with ⟨hfresh, hb, hs⟩
  have hready2 := hs.ready h hfresh hb
  rcases collapse_invariant hready2 trivial
    (fun _ _ _ _ => trivial) (fun _ => trivial) (fun _ _ _ _ => trivial) h3 with ⟨hready, he, -⟩
  have hlone := ((h.loneCells hd).evolves hfresh.toOwned hb.refines.evolves hb.cells).evolves
    hb.fresh.toOwned hs.refines.evolves hs.cells
  have hunread := unread_collapse hready2.toPoised hlone h3
  refine ⟨hready.toTidy, hready.settled, fun {n} hk o ho => ?_, ?_⟩
  · exact hunread n (hready.mem_cells_of_isSequential ho hk) hk ho
  · rw [eq_nil_iff_forall_not_mem]
    intro c hc
    have hdesign := hs.fresh.design_kind
    have hold := he.shrinks (isSome_of_kindOf? hdesign)
      (by simp [hasKind, hdesign, NodeKind.isNamed]) hc
    rw [hs.design, hb.design] at hold
    cases hold

/-- If buffers have one output at most, every signal in an equation of a listing is declared in it as a
pin or pin node, and every left-hand side belongs to one of these or to a register or buffer that was not
taken over because nothing reads it. -/
theorem Design.signals_declared (hd : d.hasLoneBuffers = true) (hg : d.toNetwork name = .ok g)
    (h : g.compile options = .ok out) : ∃ g1 g2 r3 r4 g' pins pinNodes es,
      g.branched = .ok g1 ∧ g1.simplified = .ok g2 ∧ g2.collapse = .ok r3 ∧
      r3.2.expand options.pinNodeLimit = .ok r4 ∧ r4.2.cleanNames = .ok g' ∧
      g'.pins.map g'.nodeNameOf? = pins.map some ∧ g'.pinNodes.map g'.nodeNameOf? = pinNodes.map some ∧
      g'.equations = .ok es ∧ Listing.Holds options out pins pinNodes es ∧
      ∀ e ∈ es, (∀ s ∈ e.term.signals, s ∈ pins ++ pinNodes) ∧
        ∃ n, e.input ∈ g'.connsOf n ∧ (n ∈ g'.pins ++ g'.pinNodes ∨
          n ∈ r3.2.cells ∧ r3.2.hasKind NodeKind.isSequential n = true ∧ r3.2.UnreadAt n) := by
  simp only [Network.compile, reduced, Attempt.bind_eq_ok] at h
  rcases h with ⟨g1, h1, g2, h2, g', ⟨r3, h3, r4, h4, h5⟩, hlisting⟩
  rcases holds_listing hlisting with ⟨pins, pinNodes, es, hpins, hpinNodes, hes, hholds⟩
  refine ⟨g1, g2, r3, r4, g', pins, pinNodes, es, h1, h2, h3, h4, h5, hpins, hpinNodes, hes, hholds, ?_⟩
  have hbuilt := built_toNetwork hg
  have hiso3 := hbuilt.isolated hd h1 h2 h3
  have hiso := (hiso3.expand h4).relabels (relabels_cleanNames h5)
  have hcheck := (hbuilt.lettered h1 h2 h3 h4 h5).checked
  intro e he
  rcases hiso.declared_equation hcheck hes he with ⟨hsignals, n, hn, hcases⟩
  refine ⟨fun s hs => ?_, n, hn, ?_⟩
  · rcases hsignals s hs with ⟨m, hm, hname⟩
    have hmem := mem_map_of_mem (f := g'.nodeNameOf?) hm
    rw [map_append, hpins, hpinNodes, hname] at hmem
    simpa using hmem
  · rcases hcases with hnamed | ⟨hcell, hk⟩
    · exact .inl hnamed
    · -- a register or buffer at the end was one before logic was copied
      right
      have hr := relabels_cleanNames h5
      have hkeeps := KeepsNames.expand ⟨hiso3.tidy.pin_kind, hiso3.tidy.pinNode_kind⟩ h4
      rw [hasKind, hr.alike.kindOf?] at hk
      rw [hr.alike.connsOf] at hn
      have hk3 := isSequential_of_keepsNames hkeeps hk
      have hn3 := hkeeps.conns (isSome_of_hasKind hk3) hn
      exact ⟨hiso3.tidy.mem_cells_of_isSequential hn3 hk3, hk3, hiso3.unread hk3⟩

/-- A gate with two outputs, one of which is read twice, and a register that nothing reads. -/
def Design.twinOutputs : Design where
  ports := .ofList [("a", ⟨"input", [.wire 2]⟩), ("b", ⟨"input", [.wire 3]⟩),
    ("y", ⟨"output", [.wire 5]⟩), ("z", ⟨"output", [.wire 6]⟩)]
  cells := .ofList [("g", {
      type := "$_AND_"
      portDirections := .ofList [("A", "input"), ("B", "input"), ("Y", "output"), ("Z", "output")]
      connections := .ofList [("A", [.wire 2]), ("B", [.wire 3]), ("Y", [.wire 4]), ("Z", [.wire 7])] }),
    ("r", .ofRegister "FDCP" [("CK", .wire 2), ("D", .wire 7), ("Q", .wire 8)]),
    ("u", .ofGate "$_XOR_" [("A", .wire 4), ("B", .wire 2)] 5),
    ("v", .ofGate "$_OR_" [("A", .wire 4), ("B", .wire 3)] 6)]
  nets := .empty

/-- With no pin node allowed, the gate is copied for its readers and goes, although the register reads
its other output; the equation that is left of the register names a declared pin. -/
theorem Design.signals_declared_twinOutputs : ∃ g out, twinOutputs.hasLoneBuffers = true ∧
    twinOutputs.toNetwork "m" = .ok g ∧ g.compile { pinNodeLimit := some 0 } = .ok out ∧
    ∃ g1 g2 r3 r4 g' pins pinNodes es,
      g.branched = .ok g1 ∧ g1.simplified = .ok g2 ∧ g2.collapse = .ok r3 ∧
      r3.2.expand (some 0) = .ok r4 ∧ r4.2.cleanNames = .ok g' ∧
      g'.pins.map g'.nodeNameOf? = pins.map some ∧ g'.pinNodes.map g'.nodeNameOf? = pinNodes.map some ∧
      g'.equations = .ok es ∧ Listing.Holds { pinNodeLimit := some 0 } out pins pinNodes es ∧
      ∀ e ∈ es, (∀ s ∈ e.term.signals, s ∈ pins ++ pinNodes) ∧
        ∃ n, e.input ∈ g'.connsOf n ∧ (n ∈ g'.pins ++ g'.pinNodes ∨
          n ∈ r3.2.cells ∧ r3.2.hasKind NodeKind.isSequential n = true ∧ r3.2.UnreadAt n) := by
  have hd : twinOutputs.hasLoneBuffers = true := by decide +kernel
  have hrun : (twinOutputs.run? "m" (·.compile { pinNodeLimit := some 0 })).isSome := by
    decide +kernel
  rcases Option.isSome_iff_exists.mp hrun with ⟨out, h⟩
  rcases run?_eq_some.mp h with ⟨g, hg, hs⟩
  exact ⟨g, out, hd, hg, hs, signals_declared hd hg hs⟩

end PldSynth
