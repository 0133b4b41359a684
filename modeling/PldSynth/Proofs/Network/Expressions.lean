import Mathlib.Logic.Relation
import PldSynth.Proofs.Network.Budget
import PldSynth.Proofs.Network.Liveness

/-!
# Expressions without common gates

The expression behind an output goes back through gates until it meets something else. `Under` says
which gates stand in it and `Nested` how deep they are nested. If no live gate is read twice, each gate
leads to one place only, so expressions that are read at different places have no gate in common: the
inputs of one gate (`disjoint_at_gate`) as well as what is read outside of the logic
(`disjoint_at_boundary`).
-/

namespace PldSynth.Network

open PldSynth.NodeKind (isBoundary isCombinational)

open Relation

variable {K : NodeKind → Bool} {g : Network} {n m m' : NodeId} {c c' d d' o p : ConnId}

/-! ## Gates behind an output -/

/-- The output `o` of a gate depends directly on `d`. -/
def FeedsGate (g : Network) (d o : ConnId) : Prop :=
  ∃ n, g.hasKind isCombinational n = true ∧ o ∈ g.connsOf n ∧ g.isOutput o = true ∧
    d ∈ g.driversAt n

/-- The gate `n` stands in the expression behind the output `o`. -/
inductive Under (g : Network) : ConnId → NodeId → Prop
  | here {o : ConnId} {n : NodeId} (hn : g.hasKind isCombinational n = true)
    (ho : o ∈ g.connsOf n) (hout : g.isOutput o = true) : Under g o n
  | inner {o d : ConnId} {n : NodeId} (h : g.FeedsGate d o) (hd : Under g d n) : Under g o n

/-- The expression behind the output `o` has `k` gates nested in each other. -/
inductive Nested (g : Network) : Nat → ConnId → Prop
  | flat {o : ConnId} : Nested g 0 o
  | deeper {k : Nat} {o d : ConnId} (h : g.FeedsGate d o) (hd : Nested g k d) : Nested g (k + 1) o

theorem readAt_of_mem_driversAt (h : d ∈ g.driversAt n) : ∃ c, g.ReadAt d c n := by
  rcases mem_driversAt.mp h with ⟨c, hc, hs, hd⟩
  exact ⟨c, hc, hs, List.mem_of_head? hd⟩

theorem ReadAt.mem_driversAt (h : g.ReadAt d c n) (hg : g.Wired) : d ∈ g.driversAt n :=
  Network.mem_driversAt.mpr ⟨c, h.mem, h.sink, by simp [h.refsOf_eq hg]⟩

theorem FeedsGate.feeds (h : g.FeedsGate d o) : g.Feeds d o := by
  rcases h with ⟨n, hn, ho, -, hd⟩
  exact ⟨n, by simp [isDerived, hn], ho, hd⟩

theorem FeedsGate.gateOutput (h : g.FeedsGate d o) : g.GateOutput o := by
  rcases h with ⟨n, hn, ho, hout, -⟩
  exact ⟨n, hn, ho, hout⟩

theorem FeedsGate.live (h : g.FeedsGate d o) (hlive : g.Live o) : g.Live d := by
  rcases h with ⟨n, hn, ho, hout, hd⟩
  rcases readAt_of_mem_driversAt hd with ⟨c, hr⟩
  exact .gate hr hn ho hout hlive

theorem Under.gateOutput (h : g.Under o n) : g.GateOutput o := by
  cases h with
  | here hn ho hout => exact ⟨n, hn, ho, hout⟩
  | inner h => exact h.gateOutput

theorem Under.isCombinational (h : g.Under o n) : g.hasKind isCombinational n := by
  induction h with
  | here hn => exact hn
  | inner _ _ ih => exact ih

/-- Behind a live output all gates are live. -/
theorem Under.live (h : g.Under o n) (hlive : g.Live o) : ∃ p ∈ g.connsOf n, g.isOutput p ∧ g.Live p := by
  induction h with
  | here _ ho hout => exact ⟨_, ho, hout, hlive⟩
  | inner h _ ih => exact ih (h.live hlive)

/-- What stands behind an input of a gate stands behind everything that the gate stands behind. -/
theorem Under.trans (h : g.Under o m) (hd : d ∈ g.driversAt m) (hn : g.Under d n) : g.Under o n := by
  induction h with
  | here hm ho hout => exact .inner ⟨_, hm, ho, hout, hd⟩ hn
  | inner h _ ih => exact .inner h (ih hd)

/-- Behind an output of a gate stand the gate and what is behind its inputs. -/
theorem under_iff (hg : g.Owned) (hm : g.hasKind isCombinational m) (ho : o ∈ g.connsOf m)
    (hout : g.isOutput o) : g.Under o n ↔ n = m ∨ ∃ d ∈ g.driversAt m, g.Under d n := by
  constructor
  · intro h
    cases h with
    | here _ ho' => exact .inl (hg.eq_of_mem ho' ho)
    | inner h hd =>
      rcases h with ⟨m', -, ho', -, hmem⟩
      exact .inr ⟨_, hg.eq_of_mem ho' ho ▸ hmem, hd⟩
  · rintro (rfl | ⟨d, hd, hn⟩)
    · exact .here hm ho hout
    · exact .inner ⟨m, hm, ho, hout, hd⟩ hn

theorem not_under (hg : g.Owned) (hm : g.hasKind isCombinational m = false)
    (ho : o ∈ g.connsOf m) : ¬ g.Under o n :=
  fun h => h.gateOutput.not_mem hg hm ho

/-! ## One way out of each gate -/

/-- A live output of a gate is read by a gate with the output `o`. -/
def LiveFeeds (g : Network) (d o : ConnId) : Prop :=
  g.FeedsGate d o ∧ g.GateOutput d ∧ g.Live d

section Unshared

variable (hg : g.Tidy K) (hK : ∀ k, k.isCombinational → K k) (hu : g.Unshared)
include hg hK

theorem Tidy.gate_lone (hn : g.hasKind isCombinational n) : g.LoneAt n :=
  (hg.regularAt_of_isLogic hK (isLogic_of_isCombinational hn)).lone

include hu

theorem rightUnique_liveFeeds : Relator.RightUnique g.LiveFeeds := by
  rintro d o o' ⟨⟨n, hn, ho, hout, hd⟩, hgate, hlive⟩ ⟨⟨n', -, ho', hout', hd'⟩, -, -⟩
  rcases readAt_of_mem_driversAt hd with ⟨c, hr⟩
  rcases readAt_of_mem_driversAt hd' with ⟨c', hr'⟩
  obtain rfl := hu hgate hlive hr hr'
  obtain rfl := hg.eq_of_mem hr.mem hr'.mem
  exact hg.gate_lone hK hn ho ho' hout hout'

omit hg hK hu in
theorem Under.path (h : g.Under o n) (hlive : g.Live o) :
    ∃ p ∈ g.connsOf n, g.isOutput p ∧ ReflTransGen g.LiveFeeds p o := by
  induction h with
  | here _ ho hout => exact ⟨_, ho, hout, .refl⟩
  | inner h hd ih =>
    have hlive' := h.live hlive
    rcases ih hlive' with ⟨p, hp, hout, hpath⟩
    exact ⟨p, hp, hout, hpath.tail ⟨h, hd.gateOutput, hlive'⟩⟩

/-- Of two expressions with a gate in common, one is part of the other. -/
theorem Under.nested (h : g.Under d n) (h' : g.Under d' n) (hlive : g.Live d) (hlive' : g.Live d') :
    ReflTransGen g.LiveFeeds d d' ∨ ReflTransGen g.LiveFeeds d' d := by
  rcases h.path hlive with ⟨p, hp, hout, hpath⟩
  rcases h'.path hlive' with ⟨p', hp', hout', hpath'⟩
  obtain rfl := hg.gate_lone hK h.isCombinational hp hp' hout hout'
  exact ReflTransGen.total_of_right_unique (rightUnique_liveFeeds hg hK hu) hpath hpath'

omit hK in
/-- A larger expression contains what is read at `c` only through the gate that `c` belongs to. -/
theorem ReadAt.above (hr : g.ReadAt d c m) (h : TransGen g.LiveFeeds d d') : g.hasKind isCombinational m ∧
      ∃ p ∈ g.connsOf m, g.isOutput p ∧ ReflTransGen g.LiveFeeds p d' := by
  rcases TransGen.head'_iff.mp h with ⟨p, ⟨⟨n, hn, hp, hout, hd⟩, hgate, hlive⟩, hrest⟩
  rcases readAt_of_mem_driversAt hd with ⟨c1, hr1⟩
  obtain rfl := hu hgate hlive hr hr1
  obtain rfl := hg.eq_of_mem hr.mem hr1.mem
  exact ⟨hn, p, hp, hout, hrest⟩

/-- Expressions that are read at two places have no gate in common, if neither is part of the other. -/
theorem disjoint_of_readAt (hr : g.ReadAt d c m) (hr' : g.ReadAt d' c' m') (hne : c ≠ c')
    (hlive : g.Live d) (hlive' : g.Live d') (habove : ¬ TransGen g.LiveFeeds d d')
    (hbelow : ¬ TransGen g.LiveFeeds d' d) (h : g.Under d n) : ¬ g.Under d' n := by
  have hsame : d ≠ d' := by
    rintro rfl
    exact hne (hu h.gateOutput hlive hr hr')
  intro h'
  rcases h.nested hg hK hu h' hlive hlive' with hpath | hpath
  · rcases reflTransGen_iff_eq_or_transGen.mp hpath with heq | htrans
    · exact hsame heq.symm
    · exact habove htrans
  · rcases reflTransGen_iff_eq_or_transGen.mp hpath with heq | htrans
    · exact hsame heq
    · exact hbelow htrans

/-- Expressions that are read outside of the logic have no gate in common. -/
theorem disjoint_at_boundary (hm : g.hasKind isBoundary m) (hm' : g.hasKind isBoundary m')
    (hr : g.ReadAt d c m) (hr' : g.ReadAt d' c' m') (hne : c ≠ c') (h : g.Under d n) : ¬ g.Under d' n := by
  have htop : ∀ {d d' c m}, g.hasKind isBoundary m → g.ReadAt d c m →
      ¬ TransGen g.LiveFeeds d d' := by
    intro d d' c m hm hr htrans
    have hgate := (hr.above hg hu htrans).1
    rw [not_isCombinational_of_isBoundary hm] at hgate
    cases hgate
  exact disjoint_of_readAt hg hK hu hr hr' hne (.leaves ⟨c, m, hr, hm⟩) (.leaves ⟨c', m', hr', hm'⟩)
    (htop hm hr) (htop hm' hr') h

section Acyclic

variable (hwf : WellFounded g.Feeds) (hm : g.hasKind isCombinational m)
  (ho : o ∈ g.connsOf m) (hout : g.isOutput o) (hlive : g.Live o)
include hwf hm ho hout hlive

omit hu hlive in
/-- An output of a gate is no part of what drives the gate. -/
theorem not_path_driver (hd : d ∈ g.driversAt m) (hp : p ∈ g.connsOf m) (hpout : g.isOutput p) :
    ¬ ReflTransGen g.LiveFeeds p d := by
  intro hpath
  obtain rfl := hg.gate_lone hK hm hp ho hpout hout
  have hback : ReflTransGen g.Feeds p d := hpath.lift id fun _ _ h => h.1.feeds
  have hstep : g.Feeds d p := FeedsGate.feeds ⟨m, hm, hp, hpout, hd⟩
  exact not_transGen_feeds (hwf.apply p) (.tail' hback hstep)

/-- Expressions at the inputs of a gate have no gate in common. -/
theorem disjoint_at_gate (hr : g.ReadAt d c m) (hr' : g.ReadAt d' c' m) (hne : c ≠ c')
    (h : g.Under d n) : ¬ g.Under d' n := by
  have hin : ∀ {d d' c c'}, g.ReadAt d c m → g.ReadAt d' c' m → ¬ TransGen g.LiveFeeds d d' := by
    intro d d' c c' hr hr' htrans
    rcases hr.above hg hu htrans with ⟨-, p, hp, hpout, hpath⟩
    exact not_path_driver hg hK hwf hm ho hout (hr'.mem_driversAt hg.toWired) hp hpout hpath
  exact disjoint_of_readAt hg hK hu hr hr' hne (.gate hr hm ho hout hlive) (.gate hr' hm ho hout hlive)
    (hin hr hr') (hin hr' hr) h

omit hu in
/-- A gate does not stand behind its own inputs. -/
theorem not_under_driver (hd : d ∈ g.driversAt m) : ¬ g.Under d m := by
  intro h
  have hlive' : g.Live d := FeedsGate.live ⟨m, hm, ho, hout, hd⟩ hlive
  rcases h.path hlive' with ⟨p, hp, hpout, hpath⟩
  exact not_path_driver hg hK hwf hm ho hout hd hp hpout hpath

theorem pairwise_disjoint_driversAt :
    (g.driversAt m).Pairwise fun d d' => ∀ n, g.Under d n → ¬ g.Under d' n := by
  rw [driversAt, List.pairwise_filterMap]
  refine ((hg.nodup_conns m).filter _).imp_of_mem fun {c c'} hc hc' hne d hd d' hd' n h => ?_
  rw [List.mem_filter] at hc hc'
  exact disjoint_at_gate hg hK hu hwf hm ho hout hlive ⟨hc.1, hc.2, List.mem_of_head? hd⟩
    ⟨hc'.1, hc'.2, List.mem_of_head? hd'⟩ hne h

end Acyclic

end Unshared

end PldSynth.Network
