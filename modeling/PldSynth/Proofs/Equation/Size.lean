import PldSynth.Network.Budget
import PldSynth.Proofs.Equation.Solution
import PldSynth.Proofs.Network.Cycle
import PldSynth.Proofs.Network.Supply

/-!
# The size of an expression

The cost of a pin node is worked out on the network, by a walk that enters a node once and counts every
further visit as one. The expression of the pin node is written by a walk that stops at a node it meets
again. So wherever an expression is written, the first walk goes along with it, and what it counts are the
atoms and gates (`copyCost_eq`).
-/

namespace PldSynth

open Attempt List

/-! ## Atoms and gates -/

mutual

/-- The number of atoms of a term. -/
def Term.atoms : Term → Nat
  | .signal _ _ => 1
  | .constant _ _ => 1
  | .invert _ arg => arg.atoms
  | .combine _ _ args => Term.atomsOf args

/-- The number of atoms of several terms. -/
def Term.atomsOf : List Term → Nat
  | [] => 0
  | t :: ts => t.atoms + Term.atomsOf ts

end

mutual

theorem Term.size_eq (t : Term) : t.size = t.atoms + t.gates.length := by
  match t with
  | .signal _ _ | .constant _ _ => rfl
  | .invert _ arg => rw [size, atoms, gates, length_cons, Term.size_eq arg, Nat.add_assoc]
  | .combine _ _ args => rw [size, atoms, gates, length_cons, Term.sizes_eq args, Nat.add_assoc]

theorem Term.sizes_eq (ts : List Term) : Term.sizes ts = Term.atomsOf ts + (Term.gatesOf ts).length := by
  match ts with
  | [] => rfl
  | t :: ts =>
    rw [sizes, atomsOf, gatesOf, length_append, Term.size_eq t, Term.sizes_eq ts]
    omega

end

namespace Network

variable {g : Network} {n pn : NodeId} {c d o : ConnId} {name : String} {levels size size' k : Nat}
  {w w' s : NodeSet} {t : Term} {ts : List Term} {ds : List ConnId}
  {f : NodeSet → ConnId → Attempt (Term × NodeSet)}

/-! ## One step of the walk -/

theorem costStep_of_isTerminal (hn : g.ownerOf? o = some n) (hk : g.hasKind NodeKind.isTerminal n) :
    g.costStep (s, k) o = .ok ((s, k + 1), []) := by
  obtain ⟨kind, hkind, hterminal⟩ := hasKind_iff.mp hk
  rw [costStep, owner_eq_ok.mpr hn, ok_bind, nodeKind_eq_ok.mpr hkind, ok_bind, hterminal, Bool.or_true]
  rfl

theorem driversOf_sinks : g.driversOf ((g.connsOf n).filter g.isSink) = .ok (g.driversAt n) := by
  obtain ⟨ds, hds⟩ := exists_driversOf fun c hc =>
    isSome_of_isSink (mem_filter.mp hc).2
  rw [hds, driversOf_eq_ok hds]
  rfl

theorem costStep_of_isCombinational (hn : g.ownerOf? o = some n)
    (hk : g.hasKind NodeKind.isCombinational n) (hnew : s.isNew n) :
    g.costStep (s, k) o = .ok ((s.insert n, k + 1), g.driversAt n) := by
  obtain ⟨kind, hkind, hgate⟩ := hasKind_iff.mp hk
  have hterminal : kind.isTerminal = false := by cases kind <;> first | rfl | cases hgate
  rw [costStep, owner_eq_ok.mpr hn, ok_bind, nodeKind_eq_ok.mpr hkind, ok_bind]
  simp only [hnew, hterminal, Bool.not_true, Bool.or_false, Bool.false_eq_true, if_false]
  rw [sinks_eq_ok.mpr ⟨isSome_of_hasKind hk, rfl⟩, ok_bind, driversOf_sinks]
  rfl

/-! ## The walk along an expression -/

/-- The gates that can still be written, the walk has not entered yet. -/
def KeepsUp (g : Network) (w s : NodeSet) : Prop :=
  ∀ n, g.hasKind NodeKind.isCombinational n → w.isNew n → s.isNew n

/-- The connections of the nodes that the walk has not entered yet. -/
def connsLeft (g : Network) (s : NodeSet) : Nat :=
  s.supply fun n => (g.connsOf n).length

/-- The walk from `s` on counts `size` at the outputs `ds`, whatever waits behind them, and keeps up with
`w'` then. Apart from the outputs themselves, it comes by no more than the connections of the nodes that it
enters. -/
def Counts (g : Network) (ds : List ConnId) (size : Nat) (s w' : NodeSet) : Prop :=
  ∃ s', g.KeepsUp w' s' ∧ size + g.connsLeft s' ≤ ds.length + g.connsLeft s ∧
    ∀ k b rest, drain g.costStep (size + b) (s, k) (ds ++ rest) = drain g.costStep b (s', k + size) rest

theorem KeepsUp.insert (h : g.KeepsUp w s) : g.KeepsUp (w.insert n) (s.insert n) := by
  intro m hm hnew
  have hmn : m ≠ n := by
    rintro rfl
    rw [NodeSet.isNew_insert_self] at hnew
    cases hnew
  rw [NodeSet.isNew_insert_of_ne hmn] at hnew ⊢
  exact h m hm hnew

namespace Counts

theorem nil (h : g.KeepsUp w s) : g.Counts [] 0 s w :=
  ⟨s, h, Nat.le_refl _, fun k b rest => by rw [Nat.zero_add]; rfl⟩

theorem cons (h : g.Counts [d] size s w) (h' : ∀ s', g.KeepsUp w s' → g.Counts ds size' s' w') :
    g.Counts (d :: ds) (size + size') s w' := by
  obtain ⟨s1, hs1, hle, hrun⟩ := h
  obtain ⟨s2, hs2, hle', hrun'⟩ := h' s1 hs1
  refine ⟨s2, hs2, ?_, fun k b rest => ?_⟩
  · rw [length_singleton] at hle
    rw [length_cons]
    omega
  · have hfirst := hrun k (size' + b) (ds ++ rest)
    rw [singleton_append] at hfirst
    rw [Nat.add_assoc, cons_append, hfirst, hrun', Nat.add_assoc]

theorem atom (h : g.KeepsUp w s) (hn : g.ownerOf? o = some n) (hk : g.hasKind NodeKind.isTerminal n) :
    g.Counts [o] 1 s w := by
  refine ⟨s, h, Nat.le_refl _, fun k b rest => ?_⟩
  rw [Nat.add_comm, singleton_append, drain, costStep_of_isTerminal hn hk]
  rfl

/-- The walk enters a gate and goes on with the drivers of the gate. -/
theorem gate (hn : g.ownerOf? o = some n) (hk : g.hasKind NodeKind.isCombinational n) (hnew : s.isNew n)
    (h : g.Counts (g.driversAt n) size (s.insert n) w') : g.Counts [o] (size + 1) s w' := by
  obtain ⟨s', hs', hle, hrun⟩ := h
  have hlen : (g.driversAt n).length ≤ (g.connsOf n).length :=
    (length_filterMap_le _ _).trans (length_filter_le _ _)
  have hleft : g.connsLeft (s.insert n) + (g.connsOf n).length = g.connsLeft s := NodeSet.supply_insert hnew
  refine ⟨s', hs', ?_, fun k b rest => ?_⟩
  · rw [length_singleton]
    omega
  · rw [Nat.add_right_comm, singleton_append, drain, costStep_of_isCombinational hn hk hnew,
      Nat.add_comm size 1, ← Nat.add_assoc]
    exact hrun (k + 1) b rest

end Counts

theorem Chain.counts (hf : ∀ w d t w', f w d = .ok (t, w') → ∀ s, g.KeepsUp w s → g.Counts [d] t.size s w')
    (h : Chain f ds w ts w') (hs : g.KeepsUp w s) : g.Counts ds (Term.sizes ts) s w' := by
  induction h generalizing s with
  | nil => exact .nil hs
  | cons head _ ih => exact (hf _ _ _ _ head s hs).cons fun _ => ih

/-- The walk behind an output counts the atoms and gates of its term. -/
theorem counts_termOf (h : g.termOf name levels w o = .ok (t, w')) (hs : g.KeepsUp w s) :
    g.Counts [o] t.size s w' := by
  induction levels generalizing w w' o t s with
  | zero => cases h
  | succ levels ih =>
    obtain ⟨n, hn⟩ := exists_owner_of_termOf h
    cases writesOff_termOf hn h with
    | signal hk =>
      obtain ⟨kind, hkind, hbound⟩ := hasKind_iff.mp hk
      have hterminal : kind.isTerminal := by cases kind <;> first | rfl | cases hbound
      exact .atom hs hn (hasKind_of hkind hterminal)
    | constant hk => exact .atom hs hn (hasKind_of hk rfl)
    | invert hk hnew hd ht =>
      have hgate : g.hasKind NodeKind.isCombinational n := hasKind_of hk rfl
      exact .gate hn hgate (hs n hgate hnew) (hd ▸ ih ht hs.insert)
    | combine hk hnew _ ht =>
      have hgate : g.hasKind NodeKind.isCombinational n := hasKind_of hk rfl
      exact .gate hn hgate (hs n hgate hnew) (ht.counts (fun _ _ _ _ hrun _ => ih hrun) hs.insert)

/-! ## The cost of a pin node -/

/-- How many connections the first output of a node drives. -/
def fanOutOf (g : Network) (n : NodeId) : Nat :=
  ((g.connsOf n).find? g.isOutput).elim 0 fun o => (g.refsOf o).length

/-- The size of the expression behind a pin node is that of its term. -/
theorem expressionSize_eq (hpn : g.kindOf? pn = some .pinNode) (hc : (g.connsOf pn).filter g.isSink = [c])
    (hd : g.refsOf c = [d]) (h : g.termOf name levels w d = .ok (t, w')) :
    g.expressionSize pn = .ok t.size := by
  have hsome : (g.node? pn).isSome := isSome_of_kindOf? hpn
  have hdrivers : g.driversAt pn = [d] := by simp [driversAt, hc, hd]
  have hnew : (NodeSet.empty g.nodes.size).isNew pn := by
    rw [NodeSet.isNew_empty]
    exact decide_eq_true (node?_isSome.mp hsome)
  -- the pin node itself was entered, but it is not a gate
  have hkeeps : g.KeepsUp w ((NodeSet.empty g.nodes.size).insert pn) := by
    intro n hn _
    have hne : n ≠ pn := by
      rintro rfl
      rw [hasKind, hpn] at hn
      cases hn
    rw [NodeSet.isNew_insert_of_ne hne, NodeSet.isNew_empty]
    exact decide_eq_true (node?_isSome.mp (isSome_of_hasKind hn))
  obtain ⟨s', -, hle, hrun⟩ := counts_termOf h hkeeps
  have hleft : g.connsLeft ((NodeSet.empty g.nodes.size).insert pn) + (g.connsOf pn).length = g.listedConns :=
    (NodeSet.supply_insert hnew).trans supply_empty
  obtain ⟨b, hb⟩ : ∃ b, [d].length + g.listedConns = t.size + b := Nat.exists_eq_add_of_le (by omega)
  have hwalk := hrun 0 b []
  rw [append_nil, drain_nil, Nat.zero_add] at hwalk
  rw [expressionSize, sinks_eq_ok.mpr ⟨hsome, rfl⟩, ok_bind, driversOf_sinks, ok_bind, hdrivers, hb, hwalk]
  rfl

/-- A pin node costs as many atoms and gates as its expression has, once for every consumer. -/
theorem copyCost_eq (hpn : g.kindOf? pn = some .pinNode) (hc : (g.connsOf pn).filter g.isSink = [c])
    (hd : g.refsOf c = [d]) (h : g.termOf name levels w d = .ok (t, w')) :
    g.copyCost pn = .ok ((t.atoms + t.gates.length) * g.fanOutOf pn) := by
  have hsome : (g.node? pn).isSome := isSome_of_kindOf? hpn
  rw [copyCost, expressionSize_eq hpn hc hd h, output?_eq_ok.mpr ⟨hsome, rfl⟩, fanOutOf,
    ← Term.size_eq]
  cases hout : (g.connsOf pn).find? g.isOutput with
  | none => rfl
  | some o =>
    have ho : (g.conn? o).isSome := isSome_of_isOutput (find?_some hout)
    have hfan : g.fanOut o = .ok (g.refsOf o).length := fanOut_eq_ok.mpr ⟨ho, rfl⟩
    simp only [hfan, ok_bind]
    rfl

end Network

end PldSynth
