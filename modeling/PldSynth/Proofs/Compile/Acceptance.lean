import PldSynth.Proofs.Compile.Gates
import PldSynth.Proofs.Listing.Success
import PldSynth.Proofs.Network.Trails

/-!
# Which networks have a listing

What decides whether there is a listing for a network that was just drawn can be said in terms of its
gates, registers and ports alone (`Acceptable`): no gates drive each other in a circle, the controls of the
latches are idle, no register jams, and the live gates have enough inputs and are not stacked too high.
None of this mentions the order in which nodes were made or the names that they bear.
-/

namespace PldSynth

open Network Relation

namespace Network

variable {K : NodeKind → Bool} {g g' : Network}

/-- What a network that was just drawn must satisfy to have a listing. -/
structure Acceptable (g : Network) : Prop where
  acyclic : ∀ v, ¬ TransGen g.GateFeeds v v
  idle : g.ControlsIdle
  noJams : g.NoJams
  tractable : g.Tractable

/-- Buffers and registers do not interfere: no buffer reads another one, and if a bidirectional port
reads a register, no other register does. One output at most reads a constant. -/
structure Untangled (g : Network) : Prop where
  constants : g.ConstantsSole
  buffers : g.BuffersApart
  registers : g.RegistersApart

end Network

variable {d : Design} {g g1 g2 : Network} {name : String} {r : Bool × Network}

namespace Design.Built

variable (h : d.Built g) (hd : d.hasRegularCells) (hapart : g.Untangled)
include h hd hapart

/-- What the first pass leaves. -/
theorem tapped (hloops : g.checkLoops = .ok ()) (hrun : g.branch = .ok r) :
    Tapped (fun k => k.isCombinational || k.isSequential) g r.2 ∧
      r.2.Trimmable (fun k => k.isCombinational || k.isSequential) ∧ r.2.Collected ∧
      r.2.connsOf designId = [] ∧ (r.2.ControlsIdle ↔ g.ControlsIdle) := by
  have hfresh := h.fresh_of_hasRegularCells hd hloops
  have htapped := tapped_branch hfresh.toRaw h.pins h.pinNodes h.oneDataAt hapart.constants hrun
  rcases branch_spec hfresh h.pins h.pinNodes hrun with ⟨hb, htop⟩
  exact ⟨htapped, ⟨htapped.toRaw, htapped.anchored, htapped.read, hb.pinNodes⟩, htop, hb.design,
    hb.inputs.controlsIdle hb.refines.evolves, htapped.idle⟩

/-- What the second pass leaves. -/
theorem orderly {r r2 : Bool × Network} (hloops : g.checkLoops = .ok ()) (hrun : g.branch = .ok r)
    (hrun2 : r.2.simplify = .ok r2) :
    r2.2.Orderly (fun k => k.isCombinational || k.isSequential) ∧ (∀ t, r2.2.absorbedOf t = .nothing) ∧
      (r2.2.NoJams ↔ g.NoJams) := by
  rcases h.tapped hd hapart hloops hrun with ⟨htapped, -, -, hdesign, -⟩
  have hraw := (h.fresh_of_hasRegularCells hd hloops).toRaw
  have hlayered := layered_simplify htapped.toLayered hrun2
  have htaps := htapped.taps.trans (keepsTaps_simplify htapped.toLayered hrun2)
  refine ⟨⟨hlayered.poised, hlayered.read, ?_, htaps.buffersApart hraw.toOwned hapart.buffers,
    htaps.registersApart hraw hapart.registers⟩, hlayered.unmerged, htaps.noJams_iff hraw hlayered.toRaw⟩
  rw [List.eq_nil_iff_forall_not_mem]
  intro c hc
  have hkind := htapped.design_kind
  have hold := (keepsTaps_simplify htapped.toLayered hrun2).evolves.shrinks
    (isSome_of_kindOf? hkind) (by simp [hasKind, hkind, NodeKind.isNamed]) hc
  rw [hdesign] at hold
  cases hold

/-- The first three passes succeed if and only if no gates drive each other in a circle, the controls of
the latches are idle and no register jams. -/
theorem exists_collapse_iff : (∃ g1 g2 r, g.branched = .ok g1 ∧ g1.simplified = .ok g2 ∧
    g2.collapse = .ok r) ↔ (∀ v, ¬ TransGen g.GateFeeds v v) ∧ g.ControlsIdle ∧ g.NoJams := by
  have hseq : ∀ k : NodeKind, k.isSequential → (k.isCombinational || k.isSequential) :=
    fun k hk => by simp [hk]
  constructor
  · rintro ⟨g1, g2, r, h1, h2, h3⟩
    rcases branched_eq_ok.mp h1 with ⟨hloops, r1, hr1, rfl⟩
    rcases simplified_eq_ok.mp h2 with ⟨r2, hr2, rfl⟩
    rcases h.tapped hd hapart hloops hr1 with ⟨-, htrim, htop, -, hidle⟩
    rcases h.orderly hd hapart hloops hr1 hr2 with ⟨horderly, hnothing, hjams⟩
    exact ⟨(checkLoops_iff h.sound).mp hloops,
      hidle.mp ((exists_simplify_iff htrim htop).mp ⟨r2, hr2⟩),
      hjams.mp ((Network.exists_collapse_iff horderly hseq hnothing).mp ⟨r, h3⟩)⟩
  · rintro ⟨hcircle, hidle, hjams⟩
    have hloops := (checkLoops_iff h.sound).mpr hcircle
    rcases exists_branch (h.fresh_of_hasRegularCells hd hloops).toRaw h.pinNodes with ⟨r1, hr1⟩
    rcases h.tapped hd hapart hloops hr1 with ⟨-, htrim, htop, -, hidle1⟩
    rcases (exists_simplify_iff htrim htop).mpr (hidle1.mpr hidle) with ⟨r2, hr2⟩
    rcases h.orderly hd hapart hloops hr1 hr2 with ⟨horderly, hnothing, hjams2⟩
    rcases (Network.exists_collapse_iff horderly hseq hnothing).mpr (hjams2.mpr hjams) with ⟨r, hr⟩
    exact ⟨r1.2, r2.2, r, branched_eq_ok.mpr ⟨hloops, r1, hr1, rfl⟩,
      simplified_eq_ok.mpr ⟨r2, hr2, rfl⟩, hr⟩

/-- What the third pass leaves of the pin nodes: they are read and live, and those that took over nothing
can be removed. -/
theorem pinNodes_collapse (h1 : g.branched = .ok g1) (h2 : g1.simplified = .ok g2)
    (h3 : g2.collapse = .ok r) : r.2.PinNodesRead ∧ r.2.PinNodesLive ∧ r.2.PinNodesFree := by
  rcases branched_eq_ok.mp h1 with ⟨hloops, r1, hr1, rfl⟩
  rcases simplified_eq_ok.mp h2 with ⟨r2, hr2, rfl⟩
  have hseq : ∀ k : NodeKind, k.isSequential → (k.isCombinational || k.isSequential) :=
    fun k hk => by simp [hk]
  rcases h.tapped hd hapart hloops hr1 with ⟨-, htrim, -⟩
  have hlive := pinNodesLive_branch (h.fresh_of_hasRegularCells hd hloops) h.pins h.pinNodes hr1
  rcases pinNodesLive_simplify htrim hlive hr2 with ⟨htrim2, hlive2⟩
  have hpoised := (h.orderly hd hapart hloops hr1 hr2).1.toPoised
  rcases h.passes (h.fresh_of_hasRegularCells hd) h1 h2 with ⟨hfresh, hb, hs⟩
  refine ⟨?_, pinNodesLive_collapse hpoised hseq htrim2.read hlive2 h3,
    (pinNodesFree_collapse (hs.ready h hfresh hb) htrim2.pinNodesCombinational h3).2⟩
  exact (collapse_keeps_of_read hpoised hseq htrim2.read trivial
    (fun _ _ _ _ => trivial) h3).2.1

/-- The last passes succeed if and only if the live gates have enough inputs and are not stacked too high. -/
theorem exists_expand_iff (options : Options)
    (hfew : options.pinNodeLimit = none ∨ g.gates.length < Equation.maxDepth)
    (h1 : g.branched = .ok g1) (h2 : g1.simplified = .ok g2) (h3 : g2.collapse = .ok r) :
    (∃ e text, r.2.expand options.pinNodeLimit = .ok e ∧
      (e.2.cleanNames >>= fun g' => g'.listing options) = .ok text) ↔ g.Tractable := by
  have hK : ∀ k : NodeKind, k.isCombinational → (k.isCombinational || k.isSequential) :=
    fun k hk => by simp [hk]
  have hlegible := h.legible hd h1 h2 h3
  have hset := hlegible.settled fun _ => false
  rcases h.pinNodes_collapse hd hapart h1 h2 h3 with ⟨hread, hlive, hfree⟩
  rcases exists_expand options.pinNodeLimit hlegible.tidy hK hset hfree with ⟨e, he⟩
  rcases unfolds_expand hlegible.tidy hK hset he with ⟨⟨origin, hu⟩, htop⟩
  have hdesign : e.2.connsOf designId = [] := by
    rw [hu.connsOf (isSome_of_kindOf? hlegible.tidy.design_kind) (.inl rfl)]
    exact hlegible.design
  have hlisting := exists_listing_iff hu.tidy hK (hu.settled hset)
    (unshared_expand hlegible.tidy hK hset hlegible.unshared he) (htop hlegible.collected) hdesign options
  -- the removals keep what can be written, and the passes before them kept it too
  have hsame : e.2.Writable ↔ r.2.Writable := by
    rcases hfew with hnone | hfew
    · rw [hnone] at he
      cases he
      exact .rfl
    · refine writable_expand_iff hlegible.tidy hK hset hread hlive (fun {n c} hn hc => ?_) hfew he
      have hn0 := hlegible.keeps.isCombinational hn hc
      exact h.sound.toOwned.mem_gates (hlegible.keeps.gates hn0 ▸ hc) hn0
  have hstart : r.2.Writable ↔ g.Tractable := by
    have hraw := (h.fresh_of_hasRegularCells hd (branched_eq_ok.mp h1).1).toRaw
    exact hlegible.keeps.writable_iff hraw.toTidy hraw.gatesDriven hlegible.driven hlegible.tidy.toSound
      hlegible.unshared
  rw [← hstart, ← hsame, ← hlisting]
  constructor
  · rintro ⟨e', text, he', htext⟩
    cases he.symm.trans he'
    exact ⟨text, htext⟩
  · rintro ⟨text, htext⟩
    exact ⟨e, text, he, htext⟩

/-- There is a listing if and only if the network is acceptable. With a limit on the number of pin nodes
this takes that there are fewer gates than an expression may have levels. -/
theorem exists_compile_iff (options : Options)
    (hfew : options.pinNodeLimit = none ∨ g.gates.length < Equation.maxDepth) :
    (∃ text, g.compile options = .ok text) ↔ g.Acceptable := by
  simp only [Network.compile, Network.reduced, Attempt.bind_eq_ok]
  constructor
  · rintro ⟨text, g1, h1, g2, h2, g3, ⟨r, h3, e, he, hclean⟩, htext⟩
    rcases (h.exists_collapse_iff hd hapart).mp ⟨g1, g2, r, h1, h2, h3⟩ with ⟨hcircle, hidle, hjams⟩
    refine ⟨hcircle, hidle, hjams, (h.exists_expand_iff hd hapart options hfew h1 h2 h3).mp ⟨e, text, he, ?_⟩⟩
    exact Attempt.bind_eq_ok.mpr ⟨g3, hclean, htext⟩
  · intro hok
    rcases (h.exists_collapse_iff hd hapart).mpr ⟨hok.acyclic, hok.idle, hok.noJams⟩ with
      ⟨g1, g2, r, h1, h2, h3⟩
    rcases (h.exists_expand_iff hd hapart options hfew h1 h2 h3).mpr hok.tractable with ⟨e, text, he, htext⟩
    rcases Attempt.bind_eq_ok.mp htext with ⟨g3, hclean, htext⟩
    exact ⟨text, g1, h1, g2, h2, g3, ⟨r, h3, e, he, hclean⟩, htext⟩

end Design.Built

end PldSynth
