import Mathlib.Data.List.Lex
import Mathlib.Data.List.Nodup
import PldSynth.Proofs.Network.Calls
import PldSynth.Proofs.Network.Cycle

/-!
# What the search for circles answers

Gates and the wires between them form a directed graph, `GateFeeds`. On any network whose handles were
handed out, however it is wired, `findCycle` tells whether this graph has a circle, and its answer is
fixed: a gate that feeds itself comes before anything else, the first one in cell order; otherwise it is
the strongly connected component that holds the smallest handle on a circle (`findCycle_exact`). It is
what sorting any list of the components puts first (`findCycle_of_components`).
-/

namespace PldSynth.Network

open Relation

/-! ## The component with the smallest handle -/

section Component

variable {size : Nat} {feeds : NodeId → List NodeId} {u v w : NodeId}

theorem pairwise_index_range (size : Nat) :
    ((List.range size).map NodeId.mk).Pairwise (·.index < ·.index) :=
  List.pairwise_map.mpr List.pairwise_lt_range

/-- A component is in handle order. -/
theorem pairwise_componentFrom (size : Nat) (feeds : NodeId → List NodeId) (v : NodeId) :
    (componentFrom size feeds v).Pairwise (·.index < ·.index) := by
  unfold componentFrom
  simp only
  split
  · exact ((pairwise_index_range _).filter _).filter _
  · exact .nil

variable (hlt : ∀ {u v}, u ∈ feeds v → u.index < size)
  (hmin : ∀ {x}, TransGen (fun u v => u ∈ feeds v) x x → w.index ≤ x.index)
  (hw : TransGen (fun u v => u ∈ feeds v) w w)
include hlt hmin hw

/-- The component of the smallest handle on a circle holds what lies on a circle with it. -/
theorem mem_componentFrom : u ∈ componentFrom size feeds w ↔
    TransGen (fun u v => u ∈ feeds v) u w ∧ TransGen (fun u v => u ∈ feeds v) w u := by
  have hsize : (NodeSet.empty size).flags.size = size := by simp [NodeSet.empty]
  have hlt' : ∀ {x}, TransGen (fun u v => u ∈ feeds v) x w → x.index < (NodeSet.empty size).flags.size := by
    intro x hx
    rcases TransGen.head'_iff.mp hx with ⟨y, hxy, -⟩
    exact hsize.symm ▸ hlt hxy
  rw [componentFrom, if_pos (contains_behind hlt hmin hw hw), List.mem_filter, NodeSet.mem_toList]
  constructor
  · rintro ⟨hbehind, hahead⟩
    refine ⟨transGen_of_behind hbehind, ?_⟩
    rcases reachable_of_contains_reach hahead with hempty | ⟨m, hm, hpath⟩
    · rw [NodeSet.contains_empty] at hempty
      cases hempty
    · rw [List.mem_singleton] at hm
      subst hm
      have hforth : ReflTransGen (fun u w => u ∈ feeds w) m u := by
        refine ReflTransGen.mono (fun x y hxy => ?_) _ _ hpath
        exact List.contains_iff_mem.mp (List.mem_filter.mp hxy).2
      exact .trans_left hw hforth
  · rintro ⟨hback, hforth⟩
    refine ⟨contains_behind hlt hmin hback hforth, ?_⟩
    -- every gate on the way from `w` leads back to `w`, so it is behind `w`
    induction hforth with
    | @single y hy =>
      refine contains_reach_next (contains_reach_of_mem List.mem_cons_self (hlt' hw))
        (NodeSet.contains_empty _ _) ?_ (hlt' hback)
      refine List.mem_filter.mpr ⟨NodeSet.mem_toList.mpr ?_, List.contains_iff_mem.mpr hy⟩
      exact contains_behind hlt hmin hback (.single hy)
    | @tail x y hx hxy ih =>
      refine contains_reach_next (ih (.head hxy hback)) (NodeSet.contains_empty _ _) ?_ (hlt' hback)
      refine List.mem_filter.mpr ⟨NodeSet.mem_toList.mpr ?_, List.contains_iff_mem.mpr hxy⟩
      exact contains_behind hlt hmin hback (hx.tail hxy)

/-- Going through the handles in their order, the first component that shows up is that of the smallest
handle on a circle. -/
theorem findSome?_componentFrom : (((List.range size).map NodeId.mk).findSome? fun v =>
      match componentFrom size feeds v with
      | [] => none
      | component => some component) = some (componentFrom size feeds w) := by
  have hfound : ∀ {v}, (match componentFrom size feeds v with
      | [] => none
      | component => some component) = none ↔ componentFrom size feeds v = [] := by
    intro v
    split <;> simp_all
  have hmem : w ∈ (List.range size).map NodeId.mk := by
    rcases TransGen.head'_iff.mp hw with ⟨v, hwv, -⟩
    exact List.mem_map.mpr ⟨w.index, List.mem_range.mpr (hlt hwv), rfl⟩
  have hne := componentFrom_ne_nil hlt hmin hw
  rcases List.append_of_mem hmem with ⟨pre, post, hsplit⟩
  have hsorted := pairwise_index_range size
  rw [hsplit, List.pairwise_append] at hsorted
  rw [List.findSome?_eq_some_iff]
  refine ⟨pre, w, post, hsplit, ?_, fun x hx => hfound.mpr ?_⟩
  · split
    · rename_i hnil
      exact absurd hnil hne
    · rfl
  · -- smaller handles are on no circle
    by_contra hx'
    have hle := hmin (transGen_of_componentFrom hx')
    have hlt := hsorted.2.2 x hx w List.mem_cons_self
    omega

end Component

/-! ## The answer -/

variable {g : Network} {u v w : NodeId} {c d : ConnId}

namespace HandlesInRange

theorem ref_isSome (hg : g.HandlesInRange) (h : d ∈ g.refsOf c) : (g.conn? d).isSome := by
  rcases Option.isSome_iff_exists.mp (isSome_of_mem_refsOf h) with ⟨y, hy⟩
  rw [refsOf_of_conn? hy] at h
  refine conn?_isSome.mpr (hg.refs d (List.mem_flatMap.mpr ⟨y, ?_, h⟩))
  exact Array.mem_toList_iff.mpr (Array.mem_of_getElem? hy)

theorem driver_isSome (hg : g.HandlesInRange) {n : NodeId} (h : d ∈ g.driversAt n) :
    (g.conn? d).isSome := by
  rcases mem_driversAt.mp h with ⟨c, -, -, hd⟩
  exact hg.ref_isSome (List.mem_of_mem_head? hd)

end HandlesInRange

/-- Either node leads to the other one along wires between gates. -/
def StronglyConnected (g : Network) (u v : NodeId) : Prop :=
  ReflTransGen g.GateFeeds u v ∧ ReflTransGen g.GateFeeds v u

theorem StronglyConnected.transGen_self (h : g.StronglyConnected u v) (hne : u ≠ v) :
    TransGen g.GateFeeds u u := by
  rcases reflTransGen_iff_eq_or_transGen.mp h.1 with heq | hpath
  · exact absurd heq.symm hne
  · exact hpath.trans_left h.2

/-- What lies on a circle with a gate on a circle is strongly connected to it. -/
theorem stronglyConnected_iff (hw : TransGen g.GateFeeds w w) : g.StronglyConnected u w ↔
    TransGen g.GateFeeds u w ∧ TransGen g.GateFeeds w u := by
  constructor
  · rintro ⟨hback, hforth⟩
    exact ⟨.trans_right hback hw, hw.trans_left hforth⟩
  · rintro ⟨hback, hforth⟩
    exact ⟨hback.to_reflTransGen, hforth.to_reflTransGen⟩

/-- The first gate in cell order that feeds itself. -/
structure FirstSelfFed (g : Network) (v : NodeId) : Prop where
  feeds : g.GateFeeds v v
  first : ∃ pre post, g.cells = pre ++ v :: post ∧ ∀ u ∈ pre, ¬ g.GateFeeds u u

/-- The strongly connected component of at least two gates that holds the smallest handle of all such
components, in handle order. -/
structure FirstComponent (g : Network) (component : List NodeId) : Prop where
  ascending : component.Pairwise (·.index < ·.index)
  several : 2 ≤ component.length
  least : ∃ v ∈ component, (∀ u, u ∈ component ↔ g.StronglyConnected u v) ∧
    ∀ u w, u ≠ w → g.StronglyConnected u w → v.index ≤ u.index

section Table

variable {table : Array (List NodeId)} (htable : g.gateFeeders = .ok table)
include htable

/-- The rows of the table, as a relation, are the graph of the gates. -/
theorem rows_eq_gateFeeds : (fun u v : NodeId => u ∈ (table[v.index]?).getD []) = g.GateFeeds := by
  funext u v
  exact propext (mem_gateFeeders htable)

/-- The two stages of the search. -/
theorem findCycle_eq : g.findCycle =
    match g.gates.find? fun v => ((table[v.index]?).getD []).contains v with
    | some v => .ok (some [v])
    | none => .ok (((List.range g.nodes.size).map NodeId.mk).findSome? fun v =>
        match componentFrom g.nodes.size (fun n => (table[n.index]?).getD []) v with
        | [] => none
        | component => some component) := by
  rw [findCycle, htable]
  rfl

theorem firstSelfFed_of_find?
    (h : (g.gates.find? fun v => ((table[v.index]?).getD []).contains v) = some v) : g.FirstSelfFed v := by
  have hself : ∀ {u : NodeId}, ((table[u.index]?).getD []).contains u ↔ g.GateFeeds u u :=
    List.contains_iff_mem.trans (mem_gateFeeders htable)
  rw [gates, List.find?_filter, List.find?_eq_some_iff_append] at h
  rcases h with ⟨hv, pre, post, hcells, hpre⟩
  refine ⟨hself.mp (by simp_all), pre, post, hcells, fun u hu hfeeds => ?_⟩
  have hgate := (List.mem_filter.mp hfeeds.1).2
  have hnot := hpre u hu
  rw [hgate, hself.mpr hfeeds] at hnot
  cases hnot

/-- The component of the smallest handle on a circle comes first. -/
theorem firstComponent_componentFrom (hself : ∀ v, ¬ g.GateFeeds v v)
    (hmin : ∀ {x}, TransGen g.GateFeeds x x → w.index ≤ x.index) (hw : TransGen g.GateFeeds w w) :
    g.FirstComponent (componentFrom g.nodes.size (fun n => (table[n.index]?).getD []) w) := by
  have hmem : ∀ u, u ∈ componentFrom g.nodes.size (fun n => (table[n.index]?).getD []) w ↔
      g.StronglyConnected u w := by
    intro u
    have h := @mem_componentFrom _ (fun n => (table[n.index]?).getD []) u w (lt_of_mem_gateFeeders htable)
    rw [rows_eq_gateFeeds htable] at h
    rw [h hmin hw, stronglyConnected_iff hw]
  have hsorted := pairwise_componentFrom g.nodes.size (fun n => (table[n.index]?).getD []) w
  generalize componentFrom g.nodes.size (fun n => (table[n.index]?).getD []) w = component
    at hmem hsorted
  have hwmem : w ∈ component := (hmem w).mpr ⟨.refl, .refl⟩
  refine ⟨hsorted, ?_, w, hwmem, hmem, fun u x hne hux => hmin (hux.transGen_self hne)⟩
  -- the gate after `w` on the circle is another one, since none feeds itself
  rcases TransGen.head'_iff.mp hw with ⟨v, hwv, hvw⟩
  have hvmem : v ∈ component := (hmem v).mpr ⟨hvw, .single hwv⟩
  have hne : v ≠ w := by
    rintro rfl
    exact hself v hwv
  match component, hwmem, hvmem with
  | [x], hx, hy => exact absurd ((List.mem_singleton.mp hy).trans (List.mem_singleton.mp hx).symm) hne
  | _ :: _ :: _, _, _ => simp

end Table

/-- The search finds a gate that feeds itself, or else a component, or there is no circle. -/
theorem findCycle_cases (hg : g.HandlesInRange) :
    (∃ v, g.findCycle = .ok (some [v]) ∧ g.FirstSelfFed v) ∨ (∀ v, ¬ g.GateFeeds v v) ∧
      ((∃ v, TransGen g.GateFeeds v v) ∧
          (∃ component, g.findCycle = .ok (some component) ∧ g.FirstComponent component) ∨
        (∀ v, ¬ TransGen g.GateFeeds v v) ∧ g.findCycle = .ok none) := by
  rcases exists_gateFeeders fun n d hd => hg.driver_isSome hd with ⟨table, htable⟩
  rw [findCycle_eq htable]
  cases hfind : g.gates.find? fun v => ((table[v.index]?).getD []).contains v with
  | some v => exact .inl ⟨v, rfl, firstSelfFed_of_find? htable hfind⟩
  | none =>
    -- components are looked for only if no gate feeds itself
    have hself : ∀ v, ¬ g.GateFeeds v v := by
      intro v hv
      have hnot := List.find?_eq_none.mp hfind v hv.1
      exact hnot (List.contains_iff_mem.mpr ((mem_gateFeeders htable).mpr hv))
    refine .inr ⟨hself, ?_⟩
    by_cases hcircle : ∃ v, TransGen g.GateFeeds v v
    · -- the first component is that of the smallest handle on a circle
      rcases exists_least_circle hcircle with ⟨w, hw, hmin⟩
      have hfirst := @findSome?_componentFrom _ (fun n => (table[n.index]?).getD []) w
        (lt_of_mem_gateFeeders htable)
      rw [rows_eq_gateFeeds htable] at hfirst
      exact .inl ⟨hcircle, _, congrArg _ (hfirst hmin hw),
        firstComponent_componentFrom htable hself hmin hw⟩
    · have hnone : ∀ v, ¬ TransGen g.GateFeeds v v := fun v hv => hcircle ⟨v, hv⟩
      refine .inr ⟨hnone, congrArg _ (List.findSome?_eq_none_iff.mpr fun v _ => ?_)⟩
      split
      · rfl
      · rename_i hne
        have hv := transGen_of_componentFrom hne
        rw [rows_eq_gateFeeds htable] at hv
        exact absurd hv (hnone v)

/-- On any network whose handles were handed out the search has an answer. It is that there is no circle
if and only if there is none. If some gate feeds itself, it is the first such gate in cell order; if none
does, it is the strongly connected component of at least two gates with the smallest handle. -/
theorem findCycle_exact (g : Network) (hg : g.HandlesInRange) : ∃ answer, g.findCycle = .ok answer ∧
    (answer = none ↔ ∀ v, ¬ TransGen g.GateFeeds v v) ∧
    ((∃ v, g.GateFeeds v v) → ∃ v, answer = some [v] ∧ g.FirstSelfFed v) ∧
    ((∀ v, ¬ g.GateFeeds v v) → (∃ v, TransGen g.GateFeeds v v) →
      ∃ component, answer = some component ∧ g.FirstComponent component) := by
  rcases findCycle_cases hg with ⟨v, hrun, hv⟩ |
    ⟨hself, ⟨hcircle, component, hrun, hfirst⟩ | ⟨hnone, hrun⟩⟩
  · refine ⟨some [v], hrun, ?_, fun _ => ⟨v, rfl, hv⟩, fun hno => absurd hv.feeds (hno v)⟩
    simpa using ⟨v, TransGen.single hv.feeds⟩
  · refine ⟨some component, hrun, by simpa using hcircle, fun ⟨v, hv⟩ => absurd hv (hself v),
      fun _ _ => ⟨component, rfl, hfirst⟩⟩
  · exact ⟨none, hrun, by simpa using hnone, fun ⟨v, hv⟩ => absurd hv (hself v),
      fun _ ⟨v, hv⟩ => absurd hv (hnone v)⟩

/-- Gates on two components: 1 and 2 feed each other, so do 2 and 4, and apart from them 5 and 6. The
gate 3 lists itself, but behind its driver. No output knows of its wires, and the cells are listed from
the last one on. -/
def twoComponents : Network where
  nodes := ⟨#[{ name := "m", kind := .design },
    { name := "a", kind := .inverter, conns := [⟨0⟩, ⟨1⟩] },
    { name := "b", kind := .gate .conj, conns := [⟨2⟩, ⟨3⟩, ⟨4⟩] },
    { name := "c", kind := .inverter, conns := [⟨5⟩, ⟨6⟩] },
    { name := "d", kind := .inverter, conns := [⟨7⟩, ⟨8⟩] },
    { name := "e", kind := .inverter, conns := [⟨9⟩, ⟨10⟩] },
    { name := "f", kind := .inverter, conns := [⟨11⟩, ⟨12⟩] }]⟩
  conns := ⟨#[⟨⟨1⟩, .input, "A", [⟨4⟩]⟩, ⟨⟨1⟩, .output, "Y", []⟩,
    ⟨⟨2⟩, .input, "A", [⟨1⟩]⟩, ⟨⟨2⟩, .bidirectional, "B", [⟨8⟩]⟩, ⟨⟨2⟩, .output, "Y", []⟩,
    ⟨⟨3⟩, .input, "A", [⟨1⟩, ⟨6⟩]⟩, ⟨⟨3⟩, .output, "Y", []⟩,
    ⟨⟨4⟩, .input, "A", [⟨4⟩]⟩, ⟨⟨4⟩, .output, "Y", []⟩,
    ⟨⟨5⟩, .input, "A", [⟨12⟩]⟩, ⟨⟨5⟩, .output, "Y", []⟩,
    ⟨⟨6⟩, .input, "A", [⟨10⟩]⟩, ⟨⟨6⟩, .output, "Y", []⟩]⟩
  cells := [⟨6⟩, ⟨5⟩, ⟨4⟩, ⟨3⟩, ⟨2⟩, ⟨1⟩]

/-- The smallest handle decides, not the order of the cells. -/
theorem findCycle_exact_twoComponents : twoComponents.HandlesInRange ∧
    twoComponents.findCycle = .ok (some [⟨1⟩, ⟨2⟩, ⟨4⟩]) ∧
    twoComponents.FirstComponent [⟨1⟩, ⟨2⟩, ⟨4⟩] := by
  have hrange : twoComponents.HandlesInRange := by
    constructor <;> decide
  have hrun : twoComponents.findCycle.toOption = some (some [⟨1⟩, ⟨2⟩, ⟨4⟩]) := by decide +kernel
  have hself : ∀ v, ¬ twoComponents.GateFeeds v v := by
    have hall : ∀ v ∈ twoComponents.gates,
        ¬ ∃ d ∈ twoComponents.driversAt v, twoComponents.ownerOf? d = some v := by decide
    exact fun v hv => hall v hv.1 hv.2.2
  have hforth : twoComponents.GateFeeds ⟨1⟩ ⟨2⟩ := by
    refine ⟨?_, ?_, ?_⟩ <;> decide
  have hback : twoComponents.GateFeeds ⟨2⟩ ⟨1⟩ := by
    refine ⟨?_, ?_, ?_⟩ <;> decide
  rcases findCycle_exact twoComponents hrange with ⟨answer, hanswer, -, -, hcomponent⟩
  rcases hcomponent hself ⟨⟨1⟩, .head hforth (.single hback)⟩ with ⟨component, rfl, hfirst⟩
  rw [hanswer] at hrun
  cases hrun
  exact ⟨hrange, hanswer, hfirst⟩

/-! ## Any list of components -/

/-- The strongly connected components of the gates, in any order and each in any order. -/
structure Components (g : Network) (cs : List (List NodeId)) : Prop where
  cover : ∀ v ∈ g.gates, ∃ c ∈ cs, v ∈ c
  nodup : ∀ c ∈ cs, c.Nodup
  members : ∀ c ∈ cs, ∀ v ∈ c, ∀ u, u ∈ c ↔ g.StronglyConnected u v

/-- Of the components with several gates the first one, when each is sorted and then all of them are. -/
def firstSorted? (cs : List (List NodeId)) : Option (List NodeId) :=
  (((cs.filter (1 < ·.length)).map (·.mergeSort (·.index ≤ ·.index))).mergeSort
    (·.map NodeId.index ≤ ·.map NodeId.index)).head?

/-- What comes first is in front after sorting. -/
theorem head?_mergeSort_of_least {l : List (List NodeId)} {c : List NodeId} (hmem : c ∈ l)
    (hleast : ∀ d ∈ l, c.map NodeId.index ≤ d.map NodeId.index) :
    (l.mergeSort (·.map NodeId.index ≤ ·.map NodeId.index)).head? = some c := by
  have hsorted : (l.mergeSort (·.map NodeId.index ≤ ·.map NodeId.index)).Pairwise _ :=
    l.pairwise_mergeSort (fun a b c => by simpa using le_trans) fun a b => by
      simpa using le_total _ _
  rw [← List.mem_mergeSort] at hmem
  cases hl : l.mergeSort (·.map NodeId.index ≤ ·.map NodeId.index) with
  | nil =>
    rw [hl] at hmem
    cases hmem
  | cons d rest =>
    rw [hl] at hmem hsorted
    have hd : d ∈ l := List.mem_mergeSort.mp (hl ▸ List.mem_cons_self)
    rcases List.mem_cons.mp hmem with rfl | hrest
    · rfl
    · have hle := of_decide_eq_true (List.rel_of_pairwise_cons hsorted hrest)
      have hinj := List.map_injective_iff.mpr fun a b => NodeId.ext_index.mpr
      exact congrArg some (hinj (le_antisymm hle (hleast d hd)))

theorem nodup_of_ascending {l : List NodeId} (h : l.Pairwise (·.index < ·.index)) : l.Nodup :=
  h.imp fun hlt heq => Nat.ne_of_lt hlt (congrArg NodeId.index heq)

/-- A component, sorted. -/
theorem mergeSort_eq_of_mem_iff {c component : List NodeId} (hc : c.Nodup)
    (hasc : component.Pairwise (·.index < ·.index)) (hmem : ∀ u, u ∈ c ↔ u ∈ component) :
    c.mergeSort (·.index ≤ ·.index) = component := by
  have hperm := (c.mergeSort_perm (·.index ≤ ·.index)).trans
    ((List.perm_ext_iff_of_nodup hc (nodup_of_ascending hasc)).mpr hmem)
  have hsorted : (c.mergeSort (·.index ≤ ·.index)).Pairwise _ :=
    c.pairwise_mergeSort (fun a b c => by simpa using Nat.le_trans) fun a b => by
      simpa using Nat.le_total _ _
  refine hperm.eq_of_pairwise (fun a b _ _ hab hba => ?_) hsorted (hasc.imp fun h => ?_)
  · exact NodeId.ext_index.mpr (Nat.le_antisymm (of_decide_eq_true hab) (of_decide_eq_true hba))
  · exact decide_eq_true (Nat.le_of_lt h)

/-- A component of several gates has another gate beside each one. -/
theorem exists_ne_of_one_lt_length {c : List NodeId} (hc : c.Nodup) (hlen : 1 < c.length) (v : NodeId) :
    ∃ u ∈ c, u ≠ v := by
  have hne : c ≠ [v] := by
    rintro rfl
    simp at hlen
  rcases (hc.ne_singleton_iff v).mp hne with rfl | hu
  · simp at hlen
  · exact hu

/-- A list in handle order comes before another one if the other one has larger handles than one of its. -/
theorem map_index_le {l l' : List NodeId} (hasc : l.Pairwise (·.index < ·.index)) (hv : v ∈ l)
    (hne : l' ≠ []) (hlt : ∀ x ∈ l', v.index < x.index) : l.map NodeId.index ≤ l'.map NodeId.index := by
  cases l with
  | nil => cases hv
  | cons w rest =>
    cases l' with
    | nil => exact absurd rfl hne
    | cons x more =>
      have hvx := hlt x List.mem_cons_self
      refine le_of_lt (List.Lex.rel ?_)
      rcases List.mem_cons.mp hv with rfl | hrest
      · exact hvx
      · exact Nat.lt_trans (List.rel_of_pairwise_cons hasc hrest) hvx

/-- However the components are found, sorting them and taking the first one of several gates gives the
answer, where no gate feeds itself. -/
theorem findCycle_of_components {cs : List (List NodeId)} (hg : g.HandlesInRange)
    (hself : ∀ v, ¬ g.GateFeeds v v) (hcs : g.Components cs) : g.findCycle = .ok (firstSorted? cs) := by
  rcases findCycle_cases hg with ⟨v, -, hv⟩ | ⟨-, ⟨-, component, hrun, hfirst⟩ | ⟨hnone, hrun⟩⟩
  · exact absurd hv.feeds (hself v)
  · rcases hfirst.least with ⟨v, hv, hmem, hleast⟩
    -- `v` is on a circle, so it is a gate and has a component on the list
    have hnd := nodup_of_ascending hfirst.ascending
    rcases exists_ne_of_one_lt_length hnd hfirst.several v with ⟨u, hu, huv⟩
    have hcircle := StronglyConnected.transGen_self ((hmem u).mp hu).symm huv.symm
    rcases TransGen.head'_iff.mp hcircle with ⟨x, hvx, -⟩
    rcases hcs.cover v hvx.1 with ⟨c, hc, hvc⟩
    have hsort : ∀ {c}, c ∈ cs → v ∈ c → c.mergeSort (·.index ≤ ·.index) = component := fun hc hvc =>
      mergeSort_eq_of_mem_iff (hcs.nodup _ hc) hfirst.ascending fun u =>
        (hcs.members _ hc v hvc u).trans (hmem u).symm
    have hlen : 1 < c.length := by
      have hlen := hfirst.several
      rwa [← hsort hc hvc, List.length_mergeSort] at hlen
    rw [hrun, firstSorted?, head?_mergeSort_of_least
      (List.mem_map.mpr ⟨c, List.mem_filter.mpr ⟨hc, decide_eq_true hlen⟩, hsort hc hvc⟩)]
    intro d hd
    rcases List.mem_map.mp hd with ⟨c', hc', rfl⟩
    rcases List.mem_filter.mp hc' with ⟨hc', hlen'⟩
    by_cases hvc' : v ∈ c'
    · rw [hsort hc' hvc']
    · have hlen' := of_decide_eq_true hlen'
      refine map_index_le hfirst.ascending hv ?_ fun x hx => ?_
      · rw [← List.length_pos_iff, List.length_mergeSort]
        exact Nat.lt_of_succ_lt hlen'
      · rw [List.mem_mergeSort] at hx
        rcases exists_ne_of_one_lt_length (hcs.nodup c' hc') hlen' x with ⟨y, hy, hyx⟩
        refine Nat.lt_of_le_of_ne (hleast x y hyx.symm ((hcs.members c' hc' y hy x).mp hx)) fun h => hvc' ?_
        rwa [NodeId.ext_index.mpr h]
  · have hnil : cs.filter (1 < ·.length) = [] := by
      refine List.filter_eq_nil_iff.mpr fun c hc hlen => ?_
      have hlen := of_decide_eq_true hlen
      rcases List.exists_mem_of_length_pos (Nat.lt_of_succ_lt hlen) with ⟨v, hv⟩
      rcases exists_ne_of_one_lt_length (hcs.nodup c hc) hlen v with ⟨u, hu, huv⟩
      exact hnone u (((hcs.members c hc v hv u).mp hu).transGen_self huv)
    rw [hrun, firstSorted?, hnil, List.map_nil, List.mergeSort_nil]
    rfl

end PldSynth.Network
