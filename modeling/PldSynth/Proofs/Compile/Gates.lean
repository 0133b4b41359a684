import PldSynth.Proofs.Compile.InOrder
import PldSynth.Proofs.Equation.Writing
import PldSynth.Proofs.Network.Coverage
import PldSynth.Proofs.Network.Duplication
import PldSynth.Proofs.Network.Rehosting

/-!
# The gates of a design in its listing

After the passes, writing the listing stops only at a gate with the wrong number of inputs or at an
expression that is nested too deeply. If no pin node was removed, the listing holds every gate of the
design that a port, a register or a buffer depends on, each of them once, and no other gate
(`Design.gates_written_once`).
-/

namespace PldSynth

open Attempt

namespace Network

variable {K : NodeKind → Bool} {g g' : Network}

/-- Besides its equations, a listing holds names only. -/
theorem ends_listing {E : NetworkError → Prop} {P : List Equation → Prop} (hg : g.Owned)
    (h : Attempt.Ends E P g.equations) (options : Options) :
    Attempt.Ends E (fun _ => ∃ es, g.equations = .ok es ∧ P es) (g.listing options) := by
  have hname : ∀ {n k}, g.kindOf? n = some k → ∃ s, g.nodeName n = .ok s := by
    intro n k hk
    rw [kindOf?_def, Option.map_eq_some_iff] at hk
    rcases hk with ⟨y, hy, -⟩
    exact ⟨y.name, nodeName_eq_ok.mpr (by simp [nodeNameOf?, hy])⟩
  rcases hname hg.design_kind with ⟨s, hs⟩
  rcases exists_mapM fun n hn => hname (hg.pin_kind hn) with ⟨pins, hpins⟩
  rcases exists_mapM fun n hn => hname (hg.pinNode_kind hn) with ⟨pinNodes, hpinNodes⟩
  simp only [listing, hs, hpins, hpinNodes, ok_bind]
  rcases h with ⟨es, hes, hP⟩ | ⟨e, he, hE⟩
  · rw [hes]
    exact .ok ⟨es, rfl, hP⟩
  · rw [he]
    exact .error hE

/-- `g'` can be written down: the logic is that of `g`, and no live gate is shared. -/
structure Legible (K : NodeKind → Bool) (g g' : Network) : Prop where
  tidy : g'.Tidy K
  settled : ∀ v, g'.Settled v
  collected : g'.Collected
  design : g'.connsOf designId = []
  keeps : KeepsLogic g g'
  driven : g'.GatesDriven
  unshared : g'.Unshared

/-- The gates that are written are the live gates of the network at the start. -/
theorem Legible.needed_iff (h : Legible K g g') (hg : g.Owned) {n : NodeId} :
    g'.Needed n ↔ g.hasKind NodeKind.isCombinational n ∧
      ∃ o ∈ g.connsOf n, g.isOutput o ∧ g.Live o := by
  rw [Network.needed_iff h.tidy h.collected h.design]
  constructor
  · rintro ⟨hn, o, ho, hout, hlive⟩
    have hgate := h.keeps.gateOutput_of hg ⟨n, hn, ho, hout⟩
    have hn0 := h.keeps.isCombinational hn ho
    rw [h.keeps.gates hn0] at ho
    rw [h.keeps.evolves.isOutput (hg.conn_isSome ho)] at hout
    exact ⟨hn0, o, ho, hout, (h.keeps.live_iff hg hgate).mp hlive⟩
  · rintro ⟨hn, o, ho, hout, hlive⟩
    refine ⟨h.keeps.evolves.keeps_kind hn, o, ?_, ?_, ?_⟩
    · rwa [h.keeps.gates hn]
    · exact (h.keeps.evolves.isOutput (hg.conn_isSome ho)).trans hout
    · exact (h.keeps.live_iff hg ⟨n, hn, ho, hout⟩).mpr hlive

end Network

open Network

variable {d : Design} {g g1 g2 : Network} {name : String}

/-- The first three passes leave something that can be written down. -/
theorem Design.Built.legible (h : d.Built g) (hd : d.hasRegularCells) (h1 : g.branched = .ok g1)
    (h2 : g1.simplified = .ok g2) {r : Bool × Network} (h3 : g2.collapse = .ok r) :
    Legible (fun k => k.isCombinational || k.isSequential) g r.2 := by
  rcases branched_eq_ok.mp h1 with ⟨hloops, r1, hr1, rfl⟩
  rcases simplified_eq_ok.mp h2 with ⟨r2, hr2, rfl⟩
  have hfresh := h.fresh_of_hasRegularCells hd hloops
  rcases branch_spec hfresh h.pins h.pinNodes hr1 with ⟨hb, -⟩
  rcases simplify_spec hb.fresh hr2 with ⟨hs, htop⟩
  have hlayered := layered_branch hfresh.toRaw h.pins h.pinNodes h.oneDataAt hr1
  have hlayered2 := layered_simplify hlayered hr2
  have hseq : ∀ k : NodeKind, k.isSequential → (k.isCombinational || k.isSequential) :=
    fun k hk => by simp [hk]
  rcases upToDate_collapse (hs.ready h hfresh hb) hseq ⟨hlayered2.read, htop⟩ h3 with ⟨hready, hup⟩
  -- liveness and sole readers, pass by pass
  rcases unshared_branch hfresh h.pins h.pinNodes hr1 with ⟨hkeeps1, hunshared⟩
  have hkeeps2 := keepsLogic_simplify hlayered hr2
  rcases keepsLogic_collapse hlayered2.poised hseq hlayered2.read h3 with ⟨hkeeps3, hdriven⟩
  have hrest := hkeeps2.trans hb.fresh.toOwned hkeeps3
  refine ⟨hready.toTidy, hready.settled, hup.top, ?_, hkeeps1.trans hfresh.toOwned hrest,
    hdriven hlayered2.toRaw.gatesDriven, hrest.unshared hb.fresh.toOwned hunshared⟩
  -- the design has no connections of its own once its ports are on pins
  rw [List.eq_nil_iff_forall_not_mem]
  intro c hc
  have hdesign := hb.fresh.design_kind
  have hold := hrest.evolves.shrinks (isSome_kindOf?.symm.trans (by simp [hdesign]))
    (by simp [hasKind, hdesign, NodeKind.isNamed]) hc
  rw [hb.design] at hold
  cases hold

/-- Writing the listing of a design whose gates and buffers are regular stops only at an inverter
without a single connected input, at another gate with fewer than two or at an expression with 4096
levels, where the gate or the expression is needed for an equation. If no pin node had to be removed,
the gates in the equations are the gates that an output port, a bidirectional port or an input of a
register or buffer of the design depends on, each of them once. -/
theorem Design.gates_written_once {r3 r4 : Bool × Network} {limit : Option Nat}
    (hd : d.hasRegularCells = true) (hg : d.toNetwork name = .ok g) (h1 : g.branched = .ok g1)
    (h2 : g1.simplified = .ok g2) (h3 : g2.collapse = .ok r3) (h4 : r3.2.expand limit = .ok r4)
    (options : Options) :
    ((∃ text, r4.2.listing options = .ok text) ∨
      ∃ e, r4.2.listing options = .error e ∧ r4.2.Stops e) ∧
    (limit = none → ∀ text, r4.2.listing options = .ok text → ∃ es, r4.2.equations = .ok es ∧
      (es.flatMap fun e => e.term.gates).Nodup ∧
      ∀ n, n ∈ es.flatMap (fun e => e.term.gates) ↔ g.hasKind NodeKind.isCombinational n = true ∧
        ∃ o ∈ g.connsOf n, g.isOutput o = true ∧ g.Live o) := by
  have hbuilt := built_toNetwork hg
  have hlegible := hbuilt.legible hd h1 h2 h3
  have hK : ∀ k : NodeKind, k.isCombinational = true → (k.isCombinational || k.isSequential) = true :=
    fun k hk => by simp [hk]
  -- which values are given does not matter here
  have hset := hlegible.settled fun _ => false
  rcases unfolds_expand hlegible.tidy hK hset h4 with ⟨⟨origin, hu⟩, htop⟩
  have hunshared := unshared_expand hlegible.tidy hK hset hlegible.unshared h4
  have hwf := (hu.settled hset).wellFounded hu.tidy.toSound
  have hends := ends_listing hu.tidy.toOwned
    (ends_equations hu.tidy hK hunshared hwf (htop hlegible.collected)) options
  constructor
  · rcases hends with ⟨text, htext, -⟩ | herror
    · exact .inl ⟨text, htext⟩
    · exact .inr herror
  · rintro rfl text htext
    rcases hends with ⟨-, -, es, hes, hnodup, hmem⟩ | ⟨e, he, -⟩
    · cases h4
      exact ⟨es, hes, hnodup, fun n => (hmem n).trans (hlegible.needed_iff hbuilt.sound.toOwned)⟩
    · rw [htext] at he
      cases he

/-- The transceiver, whose pin nodes all stay. -/
theorem Design.gates_written_once_transceiver : ∃ g g1 g2 r3 r4 text es,
    transceiver.hasRegularCells = true ∧ transceiver.toNetwork "bus" = .ok g ∧ g.branched = .ok g1 ∧
    g1.simplified = .ok g2 ∧ g2.collapse = .ok r3 ∧ r3.2.expand none = .ok r4 ∧
    r4.2.listing {} = .ok text ∧ r4.2.equations = .ok es ∧
    (es.flatMap fun e => e.term.gates).Nodup ∧
    ∀ n, n ∈ es.flatMap (fun e => e.term.gates) ↔ g.hasKind NodeKind.isCombinational n = true ∧
      ∃ o ∈ g.connsOf n, g.isOutput o = true ∧ g.Live o := by
  have hd : transceiver.hasRegularCells = true := by decide +kernel
  have hrun : (transceiver.run? "bus" fun g =>
      g.branched >>= fun g1 => g1.simplified >>= fun g2 => g2.collapse >>= fun r3 =>
        r3.2.expand none >>= fun r4 => r4.2.listing {}).isSome := by
    decide +kernel
  rcases Option.isSome_iff_exists.mp hrun with ⟨text, h⟩
  simp only [run?_eq_some, bind_eq_ok] at h
  rcases h with ⟨g, hg, g1, h1, g2, h2, r3, h3, r4, h4, htext⟩
  rcases (gates_written_once hd hg h1 h2 h3 h4 {}).2 rfl text htext with ⟨es, hes, hnodup, hmem⟩
  exact ⟨g, g1, g2, r3, r4, text, es, hd, hg, h1, h2, h3, h4, htext, hes, hnodup, hmem⟩

end PldSynth
