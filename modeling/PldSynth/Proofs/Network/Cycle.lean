import Mathlib.Data.Fintype.EquivFin
import Mathlib.Data.List.TakeWhile
import PldSynth.Network.Cycle
import PldSynth.Proofs.Network.Meaning

/-!
# Gates without a circle

`checkLoops` passes exactly if no gates drive each other in a circle (`checkLoops_iff`). Of any circle
the search would meet the gate with the smallest handle and come back to it without going below that
handle, and what it comes back to is on a circle. So in a network that passes, whose pins are still to
come, nothing depends on itself (`wellFounded_feeds`).
-/

namespace PldSynth

open Attempt List

/-! ## What a walk reaches -/

namespace NodeSet

variable {s : NodeSet} {m n : NodeId}

theorem contains_insert (h : s.contains m) : (s.insert n).contains m := by
  by_cases hm : m = n
  · subst hm
    apply contains_insert_self
    by_contra hlt
    simp [contains, Array.getElem?_eq_none (Nat.le_of_not_lt hlt)] at h
  · rwa [contains_insert_of_ne s hm]

/-- A handle within the size that is not new is there. -/
theorem contains_of_not_isNew (hn : n.index < s.flags.size) (h : s.isNew n = false) : s.contains n := by
  rw [isNew] at h
  rw [contains]
  cases hv : s.flags[n.index] <;> simp_all

theorem contains_insertAll_of_contains (l : List NodeId) (h : s.contains n) :
    (s.insertAll l).contains n := by
  induction l generalizing s with
  | nil => exact h
  | cons a l ih => exact ih (contains_insert h)

theorem contains_insertAll {l : List NodeId} (h : n ∈ l) (hn : n.index < s.flags.size) :
    (s.insertAll l).contains n := by
  induction l generalizing s with
  | nil => cases h
  | cons a l ih =>
    rcases mem_cons.mp h with rfl | h
    · exact contains_insertAll_of_contains l (contains_insert_self s hn)
    · exact ih h ((size_insert s a).symm ▸ hn)

theorem lt_size_of_contains (h : s.contains n) : n.index < s.flags.size := by
  by_contra hlt
  simp [contains, Array.getElem?_eq_none (Nat.le_of_not_lt hlt)] at h

theorem mem_toList : n ∈ s.toList ↔ s.contains n := by
  rw [toList, mem_filter, mem_map]
  constructor
  · exact fun h => h.2
  · intro h
    exact ⟨⟨n.index, mem_range.mpr (lt_size_of_contains h), rfl⟩, h⟩

end NodeSet

variable {next : NodeId → List NodeId} {seen : NodeSet} {todo : List NodeId} {m n : NodeId}

theorem contains_reach_of_seen (h : seen.contains n) : (reach next seen todo).contains n := by
  fun_induction reach next seen todo with
  | case1 => exact h
  | case2 seen todo v rest _ ih => exact ih (NodeSet.contains_insert h)

/-- Everything that waits is reached. -/
theorem contains_reach_of_mem (h : n ∈ todo) (hn : n.index < seen.flags.size) :
    (reach next seen todo).contains n := by
  fun_induction reach next seen todo with
  | case1 seen todo hnil =>
    have hnew := dropWhile_eq_nil_iff.mp hnil n h
    exact NodeSet.contains_of_not_isNew hn (by simpa using hnew)
  | case2 seen todo v rest hdrop ih =>
    rw [← takeWhile_append_dropWhile (l := todo), hdrop,
      mem_append, mem_cons] at h
    rcases h with h | rfl | h
    · -- what the search skips was seen before
      have hnew := mem_takeWhile_imp h
      have hseen := NodeSet.contains_of_not_isNew hn (by simpa using hnew)
      exact contains_reach_of_seen (NodeSet.contains_insert hseen)
    · exact contains_reach_of_seen (NodeSet.contains_insert_self seen hn)
    · exact ih (mem_append_right _ h) ((NodeSet.size_insert seen v).symm ▸ hn)

/-- From what the walk added it goes on. -/
theorem contains_reach_next (hm : (reach next seen todo).contains m) (hnew : seen.contains m = false)
    (h : n ∈ next m) (hn : n.index < seen.flags.size) : (reach next seen todo).contains n := by
  fun_induction reach next seen todo with
  | case1 => simp [hnew] at hm
  | case2 seen todo v rest _ ih =>
    have hsize : n.index < (seen.insert v).flags.size := (NodeSet.size_insert seen v).symm ▸ hn
    by_cases hmv : m = v
    · subst hmv
      exact contains_reach_of_mem (mem_append_left _ h) hsize
    · exact ih hm ((NodeSet.contains_insert_of_ne seen hmv).trans hnew) hsize

theorem NodeSet.contains_empty (size : Nat) (n : NodeId) : (NodeSet.empty size).contains n = false := by
  by_cases h : n.index < size <;> simp [NodeSet.empty, NodeSet.contains, h]

theorem NodeSet.mem_of_contains_insertAll {s : NodeSet} {l : List NodeId}
    (h : (s.insertAll l).contains n) : s.contains n ∨ n ∈ l := by
  induction l generalizing s with
  | nil => exact .inl h
  | cons a l ih =>
    rcases ih h with hs | hl
    · by_cases hn : n = a
      · exact .inr (hn ▸ mem_cons_self)
      · rw [NodeSet.contains_insert_of_ne s hn] at hs
        exact .inl hs
    · exact .inr (mem_cons_of_mem a hl)

/-- What the walk reaches was there before, or `next` leads to it from what waited. -/
theorem reachable_of_contains_reach (h : (reach next seen todo).contains n) :
    seen.contains n ∨ ∃ m ∈ todo, Relation.ReflTransGen (fun u v => v ∈ next u) m n := by
  fun_induction reach next seen todo with
  | case1 => exact .inl h
  | case2 seen todo v rest hdrop ih =>
    have hsub : ∀ {x}, x ∈ v :: rest → x ∈ todo := by
      intro x hx
      rw [← hdrop] at hx
      exact (dropWhile_sublist _).subset hx
    have hv := hsub mem_cons_self
    rcases ih h with hseen | ⟨m, hm, hpath⟩
    · by_cases hn : n = v
      · exact .inr ⟨v, hv, hn ▸ .refl⟩
      · rw [NodeSet.contains_insert_of_ne seen hn] at hseen
        exact .inl hseen
    · rcases mem_append.mp hm with hm | hm
      · exact .inr ⟨v, hv, .head hm hpath⟩
      · exact .inr ⟨m, hsub (mem_cons_of_mem _ hm), hpath⟩

namespace Network

/-! ## Circles are found -/

section Circle

open Relation

variable {size : Nat} {feeds : NodeId → List NodeId} {u v w : NodeId}

section Least

variable (hlt : ∀ {u v}, u ∈ feeds v → u.index < size)
  (hmin : ∀ {x}, TransGen (fun u v => u ∈ feeds v) x x → w.index ≤ x.index)
include hlt hmin

/-- A gate on a circle through `w`, all of whose gates have handles from `w` on, is behind `w`. -/
theorem contains_behind (hx : TransGen (fun u v => u ∈ feeds v) u w)
    (hw : TransGen (fun u v => u ∈ feeds v) w u) :
    (reach (fun n => (feeds n).filter (w.index ≤ ·.index)) (NodeSet.empty size)
      ((feeds w).filter (w.index ≤ ·.index))).contains u := by
  have hsize : (NodeSet.empty size).flags.size = size := by simp [NodeSet.empty]
  have habove : ∀ {x y}, x ∈ feeds y → TransGen (fun u v => u ∈ feeds v) x x →
      x ∈ (feeds y).filter (w.index ≤ ·.index) := by
    intro x y hxy hxx
    exact mem_filter.mpr ⟨hxy, by simpa using hmin hxx⟩
  induction hx using TransGen.head_induction_on with
  | single h => exact contains_reach_of_mem (habove h (.head h hw)) (hsize.symm ▸ hlt h)
  | @head x y hxy hyw ih =>
    have hy := ih (hw.tail hxy)
    have hxx : TransGen (fun u v => u ∈ feeds v) x x := (TransGen.head hxy hyw).trans hw
    exact contains_reach_next hy (NodeSet.contains_empty _ _) (habove hxy hxx) (hsize.symm ▸ hlt hxy)

/-- The component of the smallest gate on a circle is not empty. -/
theorem componentFrom_ne_nil (hw : TransGen (fun u v => u ∈ feeds v) w w) :
    componentFrom size feeds w ≠ [] := by
  have hbehind := contains_behind hlt hmin hw hw
  have hsize : w.index < (NodeSet.empty size).flags.size := by
    obtain ⟨v, hwv, -⟩ := TransGen.head'_iff.mp hw
    simpa [NodeSet.empty] using hlt hwv
  rw [componentFrom, if_pos hbehind]
  apply ne_nil_of_mem
  rw [mem_filter]
  exact ⟨NodeSet.mem_toList.mpr hbehind, contains_reach_of_mem mem_cons_self hsize⟩

end Least

/-- If gates drive each other in a circle, one of them has the smallest handle. -/
theorem exists_least_circle {R : NodeId → NodeId → Prop} (h : ∃ v, TransGen R v v) :
    ∃ w, TransGen R w w ∧ ∀ {x}, TransGen R x x → w.index ≤ x.index := by
  classical
  have hidx : ∃ i, TransGen R ⟨i⟩ ⟨i⟩ := h.imp' NodeId.index fun _ h => h
  exact ⟨⟨Nat.find hidx⟩, Nat.find_spec hidx, fun {x} hx => Nat.find_min' hidx hx⟩

/-- Without components there is no circle. -/
theorem not_transGen_self (hlt : ∀ {u v}, u ∈ feeds v → u.index < size)
    (h : ∀ v : NodeId, v.index < size → componentFrom size feeds v = []) :
    ∀ v, ¬ TransGen (fun u v => u ∈ feeds v) v v := by
  by_contra hex
  push Not at hex
  rcases exists_least_circle hex with ⟨w, hw, hmin⟩
  apply componentFrom_ne_nil hlt hmin hw
  apply h
  obtain ⟨v, hwv, -⟩ := TransGen.head'_iff.mp hw
  exact hlt hwv

/-- A relation without a circle is well-founded if only finitely many things stand on its left. -/
theorem wellFounded_of_no_circle {α : Type} {R : α → α → Prop} (f : Fin size → α)
    (hf : ∀ {a b}, R a b → ∃ i, f i = a) (h : ∀ a, ¬ TransGen R a a) : WellFounded R := by
  let S : Fin size → Fin size → Prop := fun i j => TransGen R (f i) (f j)
  have : Std.Irrefl S := ⟨fun i => h (f i)⟩
  have hwf : WellFounded S := Finite.wellFounded_of_trans_of_irrefl S
  have hacc : ∀ i, Acc R (f i) := by
    intro i
    induction i using hwf.induction with
    | _ i ih =>
      constructor
      intro a ha
      rcases hf ha with ⟨j, rfl⟩
      exact ih j (.single ha)
  constructor
  intro b
  constructor
  intro a ha
  rcases hf ha with ⟨i, rfl⟩
  exact hacc i

theorem wellFounded_of_componentFrom (hlt : ∀ {u v}, u ∈ feeds v → u.index < size)
    (h : ∀ v : NodeId, v.index < size → componentFrom size feeds v = []) :
    WellFounded fun u v => u ∈ feeds v :=
  wellFounded_of_no_circle (fun i : Fin size => (⟨i⟩ : NodeId)) (fun {u _} hu => ⟨⟨u.index, hlt hu⟩, rfl⟩)
    (not_transGen_self hlt h)

/-- Whatever the search finds behind `w` leads to `w`. -/
theorem transGen_of_behind (h : (reach (fun n => (feeds n).filter (w.index ≤ ·.index)) (NodeSet.empty size)
      ((feeds w).filter (w.index ≤ ·.index))).contains u) : TransGen (fun u v => u ∈ feeds v) u w := by
  rcases reachable_of_contains_reach h with hempty | ⟨m, hm, hpath⟩
  · rw [NodeSet.contains_empty] at hempty
    cases hempty
  · -- the search goes against the wires
    have hback : ReflTransGen (fun u w => u ∈ feeds w) u m := by
      rw [← reflTransGen_swap]
      exact hpath.lift id fun x y hxy => (mem_filter.mp hxy).1
    exact .tail' hback (mem_filter.mp hm).1

/-- A component is found only on a circle. -/
theorem transGen_of_componentFrom (h : componentFrom size feeds v ≠ []) :
    TransGen (fun u w => u ∈ feeds w) v v := by
  unfold componentFrom at h
  simp only at h
  split at h
  · rename_i hv
    exact transGen_of_behind hv
  · exact absurd rfl h

end Circle

/-! ## Networks that pass -/

variable {g : Network} {c d o : ConnId}

theorem Owned.mem_gates (hg : g.Owned) (hc : c ∈ g.connsOf n)
    (hn : g.hasKind NodeKind.isCombinational n) : n ∈ g.gates := by
  refine mem_filter.mpr ⟨hg.mem_cells_of_isCell hc ?_, hn⟩
  rcases hasKind_iff.mp hn with ⟨k, hk, hp⟩
  exact hasKind_of hk (by simp [NodeKind.isCell, hp])

theorem driversOf_eq_ok {cs l : List ConnId} (h : g.driversOf cs = .ok l) :
    l = cs.filterMap fun c => (g.refsOf c).head? := by
  simp only [driversOf, bind_eq_ok, pure_eq_ok, mapM_eq_ok,
    driver?_eq_ok] at h
  obtain ⟨ds, hds, rfl⟩ := h
  induction hds with
  | nil => rfl
  | cons hd _ ih =>
    rw [filterMap_cons, filterMap_cons, hd.2, ih]
    rfl

theorem mem_feeders {ns : List NodeId} (h : g.feeders n = .ok ns) :
    m ∈ ns ↔ ∃ d ∈ g.driversAt n, g.ownerOf? d = some m := by
  simp only [feeders, bind_eq_ok, sinks_eq_ok] at h
  obtain ⟨cs, ⟨-, rfl⟩, ds, hds, hmap⟩ := h
  rw [driversOf_eq_ok hds, mapM_eq_ok] at hmap
  constructor
  · intro hm
    obtain ⟨d, hd, ho⟩ := exists_left_of_forall₂ hmap hm
    exact ⟨d, hd, owner_eq_ok.mp ho⟩
  · rintro ⟨d, hd, ho⟩
    obtain ⟨m', hm', ho'⟩ := exists_right_of_forall₂ hmap hd
    rw [owner_eq_ok, ho] at ho'
    exact Option.some.inj ho' ▸ hm'

/-- A gate drives an input of another gate, or of itself. -/
def GateFeeds (g : Network) (u v : NodeId) : Prop :=
  u ∈ g.gates ∧ v ∈ g.gates ∧ ∃ d ∈ g.driversAt v, g.ownerOf? d = some u

theorem lt_size_of_mem_gates (hm : m ∈ g.gates) : m.index < g.nodes.size :=
  node?_isSome.mp (isSome_of_hasKind (mem_filter.mp hm).2)

theorem contains_gates : ((NodeSet.empty g.nodes.size).insertAll g.gates).contains m ↔ m ∈ g.gates := by
  constructor
  · intro h
    rcases NodeSet.mem_of_contains_insertAll h with hempty | hmem
    · rw [NodeSet.contains_empty] at hempty
      cases hempty
    · exact hmem
  · exact fun h => NodeSet.contains_insertAll h (by simpa [NodeSet.empty] using lt_size_of_mem_gates h)

/-- A row of the table holds the gates that drive the gate it belongs to. -/
theorem mem_gateFeeders {table : Array (List NodeId)} (h : g.gateFeeders = .ok table) :
    m ∈ (table[n.index]?).getD [] ↔ g.GateFeeds m n := by
  simp only [gateFeeders, bind_eq_ok, pure_eq_ok] at h
  obtain ⟨lists, hlists, rfl⟩ := h
  rw [mapM_eq_ok, forall₂_iff_get] at hlists
  obtain ⟨hlen, hget⟩ := hlists
  by_cases hi : n.index < lists.length
  · have hrow := hget n.index (hlen ▸ hi) hi
    have hlook : (lists.toArray[n.index]?).getD [] = lists[n.index] := by simp [hi]
    simp only [get_eq_getElem, getElem_range] at hrow
    rw [hlook]
    by_cases hn : n ∈ g.gates
    · rw [if_pos (contains_gates.mpr hn), bind_eq_ok] at hrow
      obtain ⟨ns, hns, hrow⟩ := hrow
      rw [← pure_eq_ok.mp hrow, mem_filter, contains_gates, mem_feeders hns, GateFeeds]
      tauto
    · rw [if_neg (mt contains_gates.mp hn), pure_eq_ok] at hrow
      simp [← hrow, GateFeeds, hn]
  · have hn : n ∉ g.gates := fun hn => hi (by simpa [← hlen] using lt_size_of_mem_gates hn)
    simp [hi, GateFeeds, hn]

/-- Handles in the table were handed out. -/
theorem lt_of_mem_gateFeeders {table : Array (List NodeId)} (h : g.gateFeeders = .ok table)
    (hm : m ∈ (table[n.index]?).getD []) : m.index < g.nodes.size :=
  lt_size_of_mem_gates ((mem_gateFeeders h).mp hm).1

/-- If the check passes, the search found no component. -/
theorem componentFrom_of_checkLoops (h : g.checkLoops = .ok ()) : ∃ table,
    g.gateFeeders = .ok table ∧ ∀ v : NodeId, v.index < g.nodes.size →
      componentFrom g.nodes.size (fun n => (table[n.index]?).getD []) v = [] := by
  simp only [checkLoops, findCycle, bind_eq_ok] at h
  obtain ⟨found, ⟨table, htable, hfound⟩, h⟩ := h
  refine ⟨table, htable, fun v hv => ?_⟩
  split at hfound
  · rw [pure_eq_ok] at hfound
    subst hfound
    exact absurd h bind_throw_ne_ok
  · rw [pure_eq_ok] at hfound
    subst hfound
    split at h
    · rename_i hnone
      rw [findSome?_eq_none_iff] at hnone
      have := hnone v (mem_map.mpr ⟨v.index, mem_range.mpr hv, rfl⟩)
      split at this
      · assumption
      · cases this
    · exact absurd h bind_throw_ne_ok

/-- In a network that passes and that has no pins yet, nothing depends on itself. -/
theorem wellFounded_feeds (hg : g.Sound) (hpins : g.pins = []) (hpinNodes : g.pinNodes = [])
    (h : g.checkLoops = .ok ()) : WellFounded g.Feeds := by
  obtain ⟨table, htable, hcomp⟩ := componentFrom_of_checkLoops h
  have hwf := wellFounded_of_componentFrom (lt_of_mem_gateFeeders htable) hcomp
  -- without pins only gates are derived
  have hgate : ∀ {n o}, g.isDerived n → o ∈ g.connsOf n → n ∈ g.gates := by
    intro n o hn ho
    have huse := hg.inUse ho
    rw [InUse, hpins, hpinNodes] at huse
    simp only [not_mem_nil, or_false] at huse
    rcases huse with rfl | hcell
    · rw [isDerived_eq_false hg.design_kind ⟨rfl, rfl⟩] at hn
      cases hn
    · obtain ⟨k, hk, hkc⟩ := hg.cell_kind hcell
      refine mem_filter.mpr ⟨hcell, hasKind_iff.mpr ⟨k, hk, ?_⟩⟩
      by_contra hcomb
      have hnamed : k.isNamed = false := by cases k <;> first | rfl | cases hkc
      rw [isDerived_eq_false hk ⟨by simpa using hcomb, hnamed⟩] at hn
      cases hn
  have hacc : ∀ n o, o ∈ g.connsOf n → Acc g.Feeds o := by
    intro n
    induction n using hwf.induction with
    | _ n ih =>
      intro o ho
      constructor
      rintro d ⟨n', hn', ho', hd⟩
      obtain rfl := hg.eq_of_mem ho ho'
      obtain ⟨-, m, hm⟩ := hg.driver_spec hd
      cases hder : g.isDerived m with
      | false =>
        constructor
        rintro e ⟨m', hm', hd', -⟩
        rw [← hg.eq_of_mem hm hd', hder] at hm'
        cases hm'
      | true =>
        have hmem := (mem_gateFeeders htable).mpr
          ⟨hgate hder hm, hgate hn' ho, d, hd, hg.owner hm⟩
        exact ih m hmem d hm
  constructor
  intro o
  constructor
  rintro d ⟨n, hn, ho, hd⟩
  obtain ⟨-, m, hm⟩ := hg.driver_spec hd
  exact hacc m d hm

/-! ## The search is exact -/

theorem exists_driversOf {cs : List ConnId} (hcs : ∀ c ∈ cs, (g.conn? c).isSome) :
    ∃ ds, g.driversOf cs = .ok ds := by
  rcases exists_mapM fun c hc => ⟨_, driver?_eq_ok.mpr ⟨hcs c hc, rfl⟩⟩ with ⟨ds, hds⟩
  exact exists_bind hds ⟨_, rfl⟩

theorem exists_feeders (hdrivers : ∀ d ∈ g.driversAt n, (g.conn? d).isSome) (hn : (g.node? n).isSome) :
    ∃ ns, g.feeders n = .ok ns := by
  have hfound : ∃ ds, g.driversOf ((g.connsOf n).filter g.isSink) = .ok ds :=
    exists_driversOf fun c hc => isSome_of_isSink (mem_filter.mp hc).2
  rcases hfound with ⟨ds, hds⟩
  refine exists_bind (sinks_eq_ok.mpr ⟨hn, rfl⟩) (exists_bind hds ?_)
  refine exists_mapM fun d hd => ?_
  rw [driversOf_eq_ok hds] at hd
  rcases Option.isSome_iff_exists.mp (hdrivers d hd) with ⟨y, hy⟩
  exact ⟨y.owner, owner_eq_ok.mpr (by rw [ownerOf?_def, hy]; rfl)⟩

theorem exists_gateFeeders (hdrivers : ∀ n, ∀ d ∈ g.driversAt n, (g.conn? d).isSome) :
    ∃ table, g.gateFeeders = .ok table := by
  refine exists_bind (exists_mapM fun i hi => ?_).choose_spec ⟨_, rfl⟩
  split
  · rcases exists_feeders (hdrivers ⟨i⟩) (node?_isSome.mpr (mem_range.mp hi)) with ⟨ns, hns⟩
    exact exists_bind hns ⟨_, rfl⟩
  · exact ⟨_, rfl⟩

/-- The search passes exactly if no gates drive each other in a circle. -/
theorem checkLoops_iff (hg : g.Sound) : g.checkLoops = .ok () ↔ ∀ v, ¬ Relation.TransGen g.GateFeeds v v := by
  constructor
  · intro h v hv
    rcases componentFrom_of_checkLoops h with ⟨table, htable, hcomp⟩
    exact not_transGen_self (lt_of_mem_gateFeeders htable) hcomp v
      (hv.lift id fun _ _ => (mem_gateFeeders htable).mpr)
  · intro h
    rcases exists_gateFeeders fun n d hd => isSome_of_isOutput (hg.driver_spec hd).1 with
      ⟨table, htable⟩
    have hcircle : ∀ v, ¬ Relation.TransGen (fun u w : NodeId => u ∈ (table[w.index]?).getD []) v v :=
      fun v hv => h v (hv.lift id fun u w hu => (mem_gateFeeders htable).mp hu)
    have hself : (g.gates.find? fun v => ((table[v.index]?).getD []).contains v) = none := by
      rw [find?_eq_none]
      intro v _ hv
      exact hcircle v (.single (contains_iff_mem.mp hv))
    have hfind : g.findCycle = .ok none := by
      rw [findCycle, htable, ok_bind]
      simp only [hself]
      rw [pure_eq_ok, findSome?_eq_none_iff]
      intro v _
      split
      · rfl
      · rename_i hne
        exact absurd (transGen_of_componentFrom hne) (hcircle v)
    rw [checkLoops, hfind]
    rfl

end Network

end PldSynth
