import PldSynth.Proofs.Network.PinNode

/-!
# Moving the consumers of an output

`moveConsumers` hands every consumer of an output to the output of another node, which may get that
output only now. A consumer that belongs to this other node is cut off instead. `MovesConsumers`
gives the result in full, and the network stays in order.
-/

namespace PldSynth.Network

open Attempt List

variable {g g' : Network} {n m t : NodeId} {c d x o out : ConnId}

/-! ## The loop over the consumers -/

/-- Moving one consumer, by what it does to the wires. -/
theorem rewires_moveConsumer (hne : c ≠ out) (h : moveConsumer t o out g c = .ok g') : Rewires (fun x l =>
      if x = out then l ++ ([c].filter (g.ownerOf? · ≠ some t)).removeAll l
      else if x = c then if g.ownerOf? c = some t then l.filter (· ≠ o) else [out]
      else l) g g' := by
  simp only [moveConsumer, bind_eq_ok, conn_eq_ok] at h
  obtain ⟨y, hy, h⟩ := h
  have howner : g.ownerOf? c = some y.owner := by simp [ownerOf?_def, hy]
  split at h
  · rename_i ht
    rw [pure_eq_ok] at h
    subst h
    apply rewires_forget.congr
    intro x z _
    by_cases hx : x = out
    · simp [hx, hne.symm, howner, ht, List.removeAll]
    · simp [hx, howner, ht]
  · rename_i ht
    have hset := rewires_setRefs (g := g) (c := c) [out]
    have hrefs : (g.setRefs c [out]).refsOf out = g.refsOf out := by
      rw [hset.refsOf (.inr (by simp [hne.symm])), if_neg hne.symm]
    rw [hrefs] at h
    -- the output may list the consumer already
    split at h
    · rename_i hc
      rw [pure_eq_ok] at h
      subst h
      apply hset.congr
      intro x z hz
      by_cases hx : x = out
      · rw [hx] at hz
        rw [refsOf_of_conn? hz, contains_iff_mem] at hc
        simp [hx, hne.symm, howner, ht, List.removeAll, hc]
      · simp [hx, howner, ht]
    · rename_i hc
      rw [pure_eq_ok] at h
      subst h
      apply (hset.trans rewires_note).congr
      intro x z hz
      by_cases hx : x = out
      · rw [hx] at hz
        rw [refsOf_of_conn? hz, contains_iff_mem] at hc
        simp [hx, hne.symm, howner, ht, List.removeAll, hc]
      · simp [hx, howner, ht]

/-- Adding what a list does not have yet, first one item and then several, is adding all of it. -/
theorem append_removeAll_cons (p : ConnId → Bool) (c : ConnId) (l l' : List ConnId) :
    l' ++ ([c].filter p).removeAll l' ++
        ((l.filter p).removeAll (l' ++ ([c].filter p).removeAll l')).eraseDups =
      l' ++ (((c :: l).filter p).removeAll l').eraseDups := by
  have hdrop : (l.filter p).removeAll (l' ++ [c]) = ((l.filter p).removeAll l').filter (!· == c) := by
    simp only [List.removeAll, filter_filter]
    refine filter_congr fun e _ => ?_
    cases hc : e == c <;> simp_all
  cases hp : p c
  · simp [hp, List.removeAll]
  · by_cases hc : c ∈ l'
    · simp [hp, hc, List.removeAll]
    · have hone : ([c].filter p).removeAll l' = [c] := by simp [hp, hc, List.removeAll]
      have hall : ((c :: l).filter p).removeAll l' = c :: (l.filter p).removeAll l' := by
        simp [hp, hc, List.removeAll]
      rw [hone, hall, hdrop, eraseDups_cons, append_assoc, singleton_append]

/-- Moving several consumers, one after the other. -/
theorem rewires_foldlM_moveConsumer {l : List ConnId} (hne : out ∉ l)
    (h : l.foldlM (moveConsumer t o out) g = .ok g') : Rewires (fun x l' =>
      if x = out then l' ++ ((l.filter (g.ownerOf? · ≠ some t)).removeAll l').eraseDups
      else if x ∈ l then if g.ownerOf? x = some t then l'.filter (· ≠ o) else [out]
      else l') g g' := by
  induction l generalizing g with
  | nil =>
    rw [foldlM_nil_eq_ok] at h
    subst h
    simpa [List.removeAll] using Edit.Applies.refl g
  | cons c l ih =>
    obtain ⟨g1, h1, hrest⟩ := foldlM_cons_eq_ok.mp h
    rw [mem_cons, not_or] at hne
    have hr := rewires_moveConsumer (Ne.symm hne.1) h1
    have hown : ∀ e, g1.ownerOf? e = g.ownerOf? e := fun e => hr.ownerOf?
    have hl := ih hne.2 hrest
    simp only [hown] at hl
    apply (hr.trans hl).congr
    intro x y _
    by_cases hx : x = out
    · simp only [if_pos hx]
      exact append_removeAll_cons _ c l y.refs
    · by_cases hc : x = c
      · subst hc
        by_cases hl : x ∈ l
        · by_cases ht : g.ownerOf? x = some t <;> simp [hx, hl, ht, filter_filter]
        · simp [hx, hl]
      · simp [hx, hc]

/-- `out` is the output through which `t` is read in `g'`: the first one that it had, or a new one. -/
inductive Supplies (t : NodeId) (out : ConnId) (g : Network) : Network → Prop
  | had (h : (g.connsOf t).find? g.isOutput = some out) : Supplies t out g g
  | made (h : (g.connsOf t).find? g.isOutput = none) (ht : (g.node? t).isSome)
      (hout : out = g.nextConn) : Supplies t out g (g.attach t pinNodeOutput .output).2

theorem supplies_ensureOutput {r : ConnId × Network} (h : g.ensureOutput t = .ok r) :
    Supplies t r.1 g r.2 := by
  simp only [ensureOutput, bind_eq_ok, output?_eq_ok] at h
  obtain ⟨_, ⟨ht, rfl⟩, h⟩ := h
  split at h
  · rename_i out hout
    rw [pure_eq_ok] at h
    subst h
    exact .had hout
  · rename_i hnone
    rw [pure_eq_ok] at h
    subst h
    exact .made hnone ht rfl

/-- Every consumer of `o` reads `out` instead, except for those of `t` itself, which read nothing. -/
def moved (g : Network) (t : NodeId) (o out : ConnId) (x : ConnId) (l : List ConnId) :
    List ConnId :=
  if x = o then []
  else if x = out then l ++ (g.refsOf o).filter (g.ownerOf? · ≠ some t)
  else if x ∈ g.refsOf o then if g.ownerOf? x = some t then [] else [out]
  else l

/-- As `moved`, for an output that may list a consumer more than once. -/
def movedOnce (g : Network) (t : NodeId) (o out : ConnId) (x : ConnId) (l : List ConnId) :
    List ConnId :=
  if x = o then []
  else if x = out then l ++ ((g.refsOf o).filter (g.ownerOf? · ≠ some t)).eraseDups
  else if x ∈ g.refsOf o then if g.ownerOf? x = some t then [] else [out]
  else l

theorem eraseDups_of_nodup {l : List ConnId} (h : l.Nodup) : l.eraseDups = l := by
  induction l with
  | nil => rfl
  | cons c l ih =>
    obtain ⟨hc, hl⟩ := nodup_cons.mp h
    have hkeep : l.filter (!· == c) = l := by
      refine filter_eq_self.mpr fun e he => ?_
      have hec : e ≠ c := fun hec => hc (hec ▸ he)
      simpa using hec
    rw [eraseDups_cons, hkeep, ih hl]

theorem movedOnce_eq (hnd : (g.refsOf o).Nodup) : g.movedOnce t o out = g.moved t o out := by
  funext x l
  rw [movedOnce, moved, eraseDups_of_nodup (hnd.filter _)]

/-- `g'` is `g` after the consumers of `o` were moved to the output of `t`. -/
inductive MovesConsumers (t : NodeId) (o : ConnId) (g g' : Network) : Prop
  /-- There was no consumer. -/
  | idle (h : g.refsOf o = []) (hr : Rewires (fun _ l => l) g g')
  /-- The consumers read `out`, an output of `t`. -/
  | moves (out : ConnId) (g1 : Network) (hs : Supplies t out g g1)
      (hr : Rewires (g.moved t o out) g1 g')

namespace Supplies

variable {g1 : Network}

theorem refsOf (h : Supplies t out g g1) : g1.refsOf x = g.refsOf x := by
  cases h with
  | had => rfl
  | made => exact refsOf_attach _ _

theorem ownerOf?_of_isSome (h : Supplies t out g g1) (hx : (g.conn? x).isSome) :
    g1.ownerOf? x = g.ownerOf? x := by
  cases h with
  | had => rfl
  | made => rw [ownerOf?_attach, if_neg (ne_nextConn hx)]

theorem isOutput_out (h : Supplies t out g g1) : g1.isOutput out := by
  cases h with
  | had h => exact find?_some h
  | made _ _ hout => simp [hout, isOutput, directionOf?_attach]

/-- Cutting wires of a connection on one end and supplying an output can be done in either order. -/
theorem swap (h : Supplies t out (g.setRefs o []) g1) (ho : (g.conn? o).isSome) :
    ∃ g2, Supplies t out g g2 ∧ Rewires (fun x l => if x = o then [] else l) g2 g1 ∧
      g1 = { g2 with conns := g1.conns } := by
  have hr := rewires_setRefs (g := g) (c := o) []
  have hout : (g.setRefs o []).isOutput = g.isOutput := funext fun x => isOutput_congr hr.directionOf?
  have hnext : (g.setRefs o []).nextConn = g.nextConn := by
    simp [nextConn, setRefs, modifyConn]
  cases h with
  | had h =>
    rw [hout] at h
    exact ⟨g, .had h, hr, rfl⟩
  | made h ht hnew =>
    rw [hout] at h
    refine ⟨_, .made h (hr.node?_isSome ▸ ht) (hnew.trans hnext), ?_, ?_⟩
    swap
    · simp [attach, modifyNode, setRefs, modifyConn]
    refine ⟨fun m => ?_, fun x => ?_, by simpa [attach] using hr.cells,
      by simpa [attach] using hr.pins, by simpa [attach] using hr.pinNodes, rfl⟩
    · rw [node?_attach, hr.node?, hnext]
      simp
    · rw [conn?_attach, hr.conn?, hnext]
      by_cases hx : x = g.nextConn
      · simp [hx, (ne_nextConn ho).symm]
      · simp [hx]

theorem out_ne_of_find? (h : Supplies t out g g1) (ho : (g.conn? o).isSome)
    (ht : (g.connsOf t).find? g.isOutput ≠ some o) : out ≠ o := by
  rintro rfl
  cases h with
  | had h => exact ht h
  | made _ _ hout => exact ne_nextConn ho hout

theorem out_ne (h : Supplies t out g g1) (ho : (g.conn? o).isSome) (ht : o ∉ g.connsOf t) : out ≠ o :=
  h.out_ne_of_find? ho fun hfind => ht (mem_of_find?_eq_some hfind)

theorem conn_isSome (h : Supplies t out g g1) (hc : (g.conn? c).isSome) : (g1.conn? c).isSome := by
  cases h with
  | had => exact hc
  | made =>
    rw [conn?_attach]
    split
    · rfl
    · exact hc

theorem isSink_of_isSome (h : Supplies t out g g1) (hx : (g.conn? x).isSome) :
    g1.isSink x = g.isSink x := by
  cases h with
  | had => rfl
  | made => exact isSink_attach _ _ hx

theorem isOutput_of_isSome (h : Supplies t out g g1) (hx : (g.conn? x).isSome) :
    g1.isOutput x = g.isOutput x := by
  cases h with
  | had => rfl
  | made => exact isOutput_attach _ _ hx

/-- The whole loop over the consumers, once the output is there. -/
theorem rewires_movedOnce {g2 : Network} (h : Supplies t out g g2) (hg : g.Mirrored) (ho : g.isOutput o)
    (hcons : ∀ c ∈ g.refsOf o, g.isSink c ∧ g.refsOf c = [o]) (hne : out ≠ o)
    (hr : Rewires (fun x l => if x = o then [] else l) g2 g1)
    (hrun : (g.refsOf o).foldlM (moveConsumer t o out) g1 = .ok g') :
    Rewires (g.movedOnce t o out) g2 g' := by
  have hnot : out ∉ g.refsOf o := by
    intro hm
    have hsink := (hcons out hm).1
    rw [← h.isSink_of_isSome (isSome_of_isSink hsink), not_isSink_of_isOutput h.isOutput_out]
      at hsink
    cases hsink
  have hmem : ∀ c ∈ g.refsOf o, c ∉ g.refsOf out := by
    intro c hc hm
    have hout := hg hm
    rw [(hcons c hc).2, mem_singleton] at hout
    exact hne hout
  have hown : ∀ c ∈ g.refsOf o, g1.ownerOf? c = g.ownerOf? c := by
    intro c hc
    rw [hr.ownerOf?, h.ownerOf?_of_isSome (isSome_of_isSink (hcons c hc).1)]
  apply (hr.trans (rewires_foldlM_moveConsumer hnot hrun)).congr
  intro x z hz
  unfold movedOnce
  by_cases hx : x = o
  · have hself : o ∉ g.refsOf o := fun hm => ne_of_isSink (hcons o hm).1 ho rfl
    simp [hx, hne.symm, hself]
  by_cases hxout : x = out
  · have hfilter : (g.refsOf o).filter (fun e => decide (g1.ownerOf? e ≠ some t)) =
        (g.refsOf o).filter (fun e => decide (g.ownerOf? e ≠ some t)) :=
      filter_congr fun e he => by rw [hown e he]
    -- the output did not list any of the consumers before
    have hnew : ((g.refsOf o).filter (fun e => decide (g.ownerOf? e ≠ some t))).removeAll z.refs =
        (g.refsOf o).filter (fun e => decide (g.ownerOf? e ≠ some t)) := by
      refine filter_eq_self.mpr fun e he => ?_
      have hez : e ∉ z.refs := by
        rw [← refsOf_of_conn? hz, h.refsOf, hxout]
        exact hmem e (mem_filter.mp he).1
      simpa using hez
    simp only [if_neg hx, if_pos hxout, hfilter, hnew]
  by_cases hm : x ∈ g.refsOf o
  · -- a consumer listed nothing but `o`
    have hz' : z.refs = [o] := by
      rw [← refsOf_of_conn? hz, h.refsOf, (hcons x hm).2]
    simp [hx, hxout, hm, hown x hm, hz']
  · simp [hx, hxout, hm]

end Supplies

/-- Setting the wires of a connection to what they are changes nothing. -/
theorem setRefs_refsOf : g.setRefs c (g.refsOf c) = g := by
  have hsame : g.conns.modify c.index (fun x => { x with refs := g.refsOf c }) = g.conns := by
    refine congrArg Arena.mk (Array.ext_getElem? fun i => ?_)
    rw [Array.getElem?_modify]
    split
    · rename_i hi
      cases hy : g.conn? c with
      | none =>
        have hnone : g.conns.items[i]? = none := hi ▸ hy
        rw [hnone]
        rfl
      | some y =>
        have hsome : g.conns.items[i]? = some y := hi ▸ hy
        rw [hsome, refsOf_of_conn? hy]
        rfl
    · rfl
  rw [setRefs, modifyConn, hsame]

/-- How the consumers of an output are moved. -/
theorem moveConsumers_eq_ok (ho : g.isOutput o) : g.moveConsumers t o = .ok g' ↔
    g.refsOf o = [] ∧ g' = g ∨ g.refsOf o ≠ [] ∧ ∃ out g1, (g.setRefs o []).ensureOutput t = .ok (out, g1) ∧
      (g.refsOf o).foldlM (moveConsumer t o out) g1 = .ok g' := by
  rcases Option.isSome_iff_exists.mp (isSome_of_isOutput ho) with ⟨y, hy⟩
  have hdir : y.direction.isOutput := by
    simp only [isOutput, directionOf?_def, hy, Option.map_some, beq_iff_eq, Option.some.injEq] at ho
    rw [ho]
    rfl
  have hconn : g.conn o = .ok y := conn_eq_ok.mpr hy
  rw [refsOf_of_conn? hy, moveConsumers, hconn, ok_bind, if_pos hdir]
  by_cases hnil : y.refs = []
  · have hself : g.setRefs o [] = g := by rw [← hnil, ← refsOf_of_conn? hy, setRefs_refsOf]
    simp [hnil, hself, pure_eq_ok, @eq_comm _ g']
  · have hempty : y.refs.isEmpty = false := by simpa using hnil
    simp [hnil, hempty, bind_eq_ok]

theorem moves_moveConsumers (hg : g.Sound) (ho : g.isOutput o) (ht : o ∉ g.connsOf t)
    (h : g.moveConsumers t o = .ok g') : MovesConsumers t o g g' := by
  obtain ⟨hnil, rfl⟩ | ⟨-, out, g1, h1, hrun⟩ := (moveConsumers_eq_ok ho).mp h
  · exact .idle hnil (Edit.Applies.refl _)
  · obtain ⟨g2, hs, hr, -⟩ := (supplies_ensureOutput h1).swap (isSome_of_isOutput ho)
    have hcons : ∀ c ∈ g.refsOf o, g.isSink c ∧ g.refsOf c = [o] := fun c hc =>
      ⟨hg.sink_of_output hc ho, hg.refsOf_consumer ho hc⟩
    have hmoved := hs.rewires_movedOnce hg.mirror ho hcons
      (hs.out_ne (isSome_of_isOutput ho) ht) hr hrun
    exact .moves out g2 hs (movedOnce_eq (hg.nodup_refs o) ▸ hmoved)

namespace Supplies

variable {g1 : Network}

theorem sound (h : Supplies t out g g1) (hg : g.Sound) (hu : g.InUse t) : g1.Sound := by
  cases h with
  | had => exact hg
  | made _ ht _ => exact hg.attach _ _ ht hu

theorem mem_connsOf (h : Supplies t out g g1) : out ∈ g1.connsOf t := by
  cases h with
  | had h => exact mem_of_find?_eq_some h
  | made _ ht hout => simp [connsOf_attach _ _ ht, hout]

theorem refsOf_movedOnce (h : Supplies t out g g1) (hcons : ∀ c ∈ g.refsOf o, (g.conn? c).isSome)
    (hr : Rewires (g.movedOnce t o out) g1 g') : g'.refsOf x = g.movedOnce t o out x (g.refsOf x) := by
  rw [← h.refsOf]
  apply hr.refsOf
  by_cases hx : (g1.conn? x).isSome
  · exact .inl hx
  · have hxout : x ≠ out := by
      rintro rfl
      exact hx (isSome_of_isOutput h.isOutput_out)
    have hxo : x ∉ g.refsOf o := fun hm => hx (h.conn_isSome (hcons x hm))
    simp [movedOnce, hxout, hxo]

theorem refsOf_moved (h : Supplies t out g g1) (hg : g.Sound)
    (hr : Rewires (g.moved t o out) g1 g') : g'.refsOf x = g.moved t o out x (g.refsOf x) := by
  rw [← movedOnce_eq (hg.nodup_refs o)] at hr ⊢
  exact h.refsOf_movedOnce (fun c hc => hg.ref_isSome hc) hr

end Supplies

section Moved

variable {P : ConnId → Prop} [DecidablePred P] (hg : g.Wired) (ho : g.isOutput o)
  (hout : g.isOutput out) (hne : out ≠ o) (hdir : ∀ x, g'.directionOf? x = g.directionOf? x)
  (hrefs : ∀ x, g'.refsOf x =
    if x = o then []
    else if x = out then g.refsOf x ++ (g.refsOf o).filter (¬ P ·)
    else if x ∈ g.refsOf o then if P x then [] else [out]
    else g.refsOf x)
include ho hout hrefs

/-- What a driven connection reads. -/
theorem refsOf_sink_of_moved (hc : g.isSink c) :
    g'.refsOf c = if c ∈ g.refsOf o then if P c then [] else [out] else g.refsOf c := by
  rw [hrefs, if_neg (ne_of_isSink hc ho), if_neg (ne_of_isSink hc hout)]

include hg hne hdir

/-- Whatever drives a connection is an output and names it. -/
theorem driver_of_moved (hc : g'.isSink c) (hd : d ∈ g'.refsOf c) :
    g'.isOutput d ∧ c ∈ g'.refsOf d ∧ g'.refsOf c = [d] := by
  rw [isSink_congr (hdir c)] at hc
  rw [isOutput_congr (hdir d)]
  rw [refsOf_sink_of_moved ho hout hrefs hc] at hd ⊢
  by_cases hm : c ∈ g.refsOf o
  · by_cases hp : P c
    · simp [hm, hp] at hd
    · simp only [hm, hp, if_true, if_false, mem_singleton] at hd ⊢
      subst hd
      simp [hrefs, hne, hout, hm, hp]
  · rw [if_neg hm] at hd ⊢
    have hdo : d ≠ o := by
      rintro rfl
      exact hm (hg.mirror hd)
    have hdout := hg.output_of_sink hd hc
    refine ⟨hdout, ?_, hg.refsOf_eq_singleton hc hd⟩
    have hcd := hg.mirror hd
    rw [hrefs, if_neg hdo, if_neg (hg.not_mem_refsOf ho hdout)]
    split
    · exact mem_append_left _ hcd
    · exact hcd

omit hne in
/-- A consumer of another output stays. -/
theorem consumer_of_moved (hx : g.isOutput x) (hxo : x ≠ o) (hc : c ∈ g.refsOf x) :
    g'.isSink c ∧ g'.refsOf c = [x] := by
  have hcs := hg.sink_of_output hc hx
  have hcm : c ∉ g.refsOf o := fun hm => hxo (hg.eq_of_consumer ho hx hm hc)
  rw [isSink_congr (hdir c), refsOf_sink_of_moved ho hout hrefs hcs, if_neg hcm]
  exact ⟨hcs, hg.refsOf_consumer hx hc⟩

/-- The output that takes over has its own consumers and those that were moved. -/
theorem consumers_out_of_moved :
    (g'.refsOf out).Nodup ∧ ∀ c ∈ g'.refsOf out, g'.isSink c ∧ g'.refsOf c = [out] := by
  rw [hrefs, if_neg hne, if_pos rfl]
  constructor
  · apply nodup_append.mpr ⟨hg.nodup_refs out, (hg.nodup_refs o).filter _, ?_⟩
    rintro a ha b hb rfl
    exact hne (hg.eq_of_consumer ho hout (mem_filter.mp hb).1 ha)
  · intro c hc
    rcases mem_append.mp hc with hc | hc
    · exact consumer_of_moved hg ho hout hdir hrefs hout hne hc
    · obtain ⟨hm, hp⟩ := mem_filter.mp hc
      have hcs := hg.sink_of_output hm ho
      have hp : ¬ P c := by simpa using hp
      rw [isSink_congr (hdir c), refsOf_sink_of_moved ho hout hrefs hcs, if_pos hm, if_neg hp]
      exact ⟨hcs, rfl⟩

/-- Wires stay in order if all consumers of an output but some, which are cut off, go over to another
output. -/
theorem Wired.moved (hl : ∃ n, out ∈ g.connsOf n) (hconns : ∀ n, g'.connsOf n = g.connsOf n) :
    g'.Wired := by
  apply Wired.of_drivers (driver_of_moved hg ho hout hne hdir hrefs)
  · intro x hx
    rw [isOutput_congr (hdir x)] at hx
    by_cases hxo : x = o
    · simp [hrefs, hxo]
    by_cases hxout : x = out
    · rw [hxout]
      exact consumers_out_of_moved hg ho hout hne hdir hrefs
    · have hxr : g'.refsOf x = g.refsOf x := by
        rw [hrefs, if_neg hxo, if_neg hxout, if_neg (hg.not_mem_refsOf ho hx)]
      rw [hxr]
      exact ⟨hg.nodup_refs x, fun c hc => consumer_of_moved hg ho hout hdir hrefs hx hxo hc⟩
  · intro c d hd
    simp only [hconns]
    rw [hrefs] at hd
    split at hd
    · cases hd
    · split at hd
      · rename_i hc
        exact hc ▸ hl
      · split at hd
        · rename_i hm
          exact hg.listed (hg.mirror hm)
        · exact hg.listed hd

end Moved

namespace MovesConsumers

variable (h : MovesConsumers t o g g')
include h

/-- Moving consumers leaves the network in order. -/
theorem sound (hg : g.Sound) (ho : g.isOutput o) (hu : g.InUse t) (ht : o ∉ g.connsOf t) : g'.Sound := by
  cases h with
  | idle h hr =>
    refine ⟨hg.toOwned.of_rewires hr, hg.toWired.shrink (fun x => hr.directionOf?) ?_ ?_ ?_⟩
    · intro x
      rw [hr.refsOf (.inr rfl)]
    · intro a b hb
      rw [hr.refsOf (.inr rfl)] at hb ⊢
      exact hg.mirror hb
    · intro a b hb
      rw [hr.refsOf (.inr rfl)] at hb
      simpa only [hr.connsOf] using hg.listed hb
  | moves out g1 hs hr =>
    have hg1 := hs.sound hg hu
    refine ⟨hg1.toOwned.of_rewires hr, ?_⟩
    have ho1 : g1.isOutput o := hs.isOutput_of_isSome (isSome_of_isOutput ho) ▸ ho
    refine Wired.moved (P := fun c => g.ownerOf? c = some t) hg1.toWired ho1 hs.isOutput_out
      (hs.out_ne (isSome_of_isOutput ho) ht) (fun x => hr.directionOf?) ?_ ⟨t, hs.mem_connsOf⟩
      (fun n => hr.connsOf)
    intro x
    rw [hs.refsOf_moved hg hr, hs.refsOf, hs.refsOf]
    rfl

/-- What a driven connection reads afterwards. -/
theorem exists_out (hg : g.Sound) (ho : g.isOutput o) :
    ∃ out, (g.refsOf o ≠ [] → out ∈ g'.connsOf t ∧ g'.isOutput out) ∧
      ∀ {c}, g.isSink c → g'.refsOf c =
        if c ∈ g.refsOf o then if g.ownerOf? c = some t then [] else [out] else g.refsOf c := by
  cases h with
  | idle h hr =>
    refine ⟨o, fun hne => absurd h hne, fun {c} _ => ?_⟩
    rw [hr.refsOf (.inr rfl), h]
    simp
  | moves out g1 hs hr =>
    refine ⟨out, fun _ => ⟨?_, ?_⟩, fun {c} hc => ?_⟩
    · rw [hr.connsOf]
      exact hs.mem_connsOf
    · rw [isOutput_congr hr.directionOf?]
      exact hs.isOutput_out
    · have hc1 : g1.isSink c := (hs.isSink_of_isSome (isSome_of_isSink hc)).trans hc
      rw [hs.refsOf_moved hg hr, moved, if_neg (ne_of_isSink hc ho),
        if_neg (ne_of_isSink hc1 hs.isOutput_out)]

/-- Only `t` may get a connection, which is then its only output. -/
theorem connsOf : ∃ new : List ConnId, (∀ m, g'.connsOf m = g.connsOf m ++ if m = t then new else []) ∧
      (new = [] ∨ new = [g.nextConn] ∧ g'.isOutput g.nextConn ∧
        ∀ e ∈ g.connsOf t, g.isOutput e = false) := by
  cases h with
  | idle _ hr => exact ⟨[], fun m => by simp [hr.connsOf], .inl rfl⟩
  | moves out g1 hs hr =>
    cases hs with
    | had => exact ⟨[], fun m => by simp [hr.connsOf], .inl rfl⟩
    | made hnone ht hout =>
      refine ⟨[g.nextConn], fun m => ?_, .inr ⟨rfl, ?_, ?_⟩⟩
      · rw [hr.connsOf, connsOf_attach _ _ ht]
      · rw [isOutput_congr hr.directionOf?]
        simp [isOutput, directionOf?_attach]
      · intro e he
        simpa using find?_eq_none.mp hnone e he

theorem kindOf? : g'.kindOf? m = g.kindOf? m := by
  cases h with
  | idle _ hr => exact hr.kindOf?
  | moves out g1 hs hr =>
    cases hs with
    | had => exact hr.kindOf?
    | made => exact hr.kindOf?.trans (kindOf?_attach _ _)

theorem ownerOf? (hx : (g.conn? x).isSome) : g'.ownerOf? x = g.ownerOf? x := by
  cases h with
  | idle _ hr => exact hr.ownerOf?
  | moves out g1 hs hr => exact hr.ownerOf?.trans (hs.ownerOf?_of_isSome hx)

theorem connNameOf? (hx : (g.conn? x).isSome) : g'.connNameOf? x = g.connNameOf? x := by
  cases h with
  | idle _ hr => exact hr.connNameOf?
  | moves out g1 hs hr =>
    cases hs with
    | had => exact hr.connNameOf?
    | made =>
      rw [hr.connNameOf?, Network.connNameOf?, conn?_attach, if_neg (ne_nextConn hx),
        Network.connNameOf?]

theorem absorbedOf : g'.absorbedOf m = g.absorbedOf m := by
  cases h with
  | idle _ hr => exact hr.absorbedOf
  | moves out g1 hs hr =>
    cases hs with
    | had => exact hr.absorbedOf
    | made => exact hr.absorbedOf.trans (absorbedOf_attach _ _)

theorem lists : g'.cells = g.cells ∧ g'.pins = g.pins ∧ g'.pinNodes = g.pinNodes := by
  cases h with
  | idle _ hr => exact ⟨hr.cells, hr.pins, hr.pinNodes⟩
  | moves out g1 hs hr =>
    cases hs with
    | had => exact ⟨hr.cells, hr.pins, hr.pinNodes⟩
    | made => exact ⟨hr.cells, hr.pins, hr.pinNodes⟩

end MovesConsumers

end PldSynth.Network
