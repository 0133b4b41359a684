import PldSynth.Proofs.Network.Retirement

/-!
# Merging a cell into a pin or pin node

The two edits that end every takeover, whatever kind of cell is taken over. First inputs of the cell are
given to the node that takes it over (`Gathers`). Then the consumers of the cell move to that node and
the cell goes out of use (`Closes`). In a network in order neither of them fails.
-/

namespace PldSynth.Network

open Attempt List
open PldSynth.NodeKind (isCell isNamed)

variable {g g' g1 : Network} {n m t cell : NodeId} {c d x o out : ConnId} {a : Absorbed}
  {moved cs : List ConnId}

/-! ## Edits that do not fail -/

theorem demand_eq_ok (h : ∀ c ∈ cs, (g.conn? c).isSome) : g.demand cs = .ok () := by
  apply forM_eq_ok.mpr
  intro c hc
  rcases Option.isSome_iff_exists.mp (h c hc) with ⟨y, hy⟩
  exact bind_eq_ok.mpr ⟨y, conn_eq_ok.mpr hy, rfl⟩

theorem exists_clearRefs (hg : g.Mirrored) (hc : (g.conn? c).isSome) : ∃ g', g.clearRefs c = .ok g' := by
  rcases Option.isSome_iff_exists.mp hc with ⟨y, hy⟩
  refine exists_bind (conn_eq_ok.mpr hy) (exists_bind (demand_eq_ok ?_) ⟨_, rfl⟩)
  intro d hd
  rw [← refsOf_of_conn? hy] at hd
  exact isSome_of_mem_refsOf (hg hd)

theorem exists_detach (hg : g.Mirrored) (ho : g.ownerOf? c = some n) (hn : (g.node? n).isSome) :
    ∃ g', g.detach c = .ok g' := by
  rcases exists_clearRefs hg (isSome_of_ownerOf? ho) with ⟨g1, h1⟩
  have hr := rewires_clearRefs hg h1
  have howner : g1.ownerOf? c = some n := hr.ownerOf?.trans ho
  have hn1 : (g1.node? n).isSome := hr.node?_isSome.trans hn
  rcases Option.isSome_iff_exists.mp hn1 with ⟨z, hz⟩
  exact exists_bind h1 (exists_bind (owner_eq_ok.mpr howner)
    (exists_bind (node_eq_ok.mpr hz) ⟨_, rfl⟩))

theorem exists_reparent (ho : g.ownerOf? c = some n) (hn : (g.node? n).isSome)
    (ht : (g.node? t).isSome) : ∃ g', g.reparent c t = .ok g' := by
  rcases Option.isSome_iff_exists.mp hn with ⟨y, hy⟩
  rcases Option.isSome_iff_exists.mp ht with ⟨z, hz⟩
  exact exists_bind (owner_eq_ok.mpr ho) (exists_bind (node_eq_ok.mpr hy)
    (exists_bind (node_eq_ok.mpr hz) ⟨_, rfl⟩))

/-- A node can be retired where wires are written down on both ends. -/
theorem exists_retire (hg : g.Mirrored) (hcs : ∀ c ∈ g.connsOf n, (g.conn? c).isSome)
    (hn : (g.node? n).isSome) : ∃ g', g.retire n = .ok g' := by
  rcases Option.isSome_iff_exists.mp hn with ⟨y, hy⟩
  refine exists_bind (node_eq_ok.mpr hy) ?_
  -- both ends of every wire that is left are still there
  have hrun := Ends.foldlM_invariant (E := fun _ => False) (l := y.conns) (f := clearRefs)
    (I := fun s : Network => s.Mirrored ∧ ∀ c, (s.conn? c).isSome = (g.conn? c).isSome)
    (s := g.modifyNode n fun x => { x with conns := [] }) (fun s c hc hs => ?_) ⟨hg, fun _ => rfl⟩
  · rcases hrun.exists_ok with ⟨g1, h1⟩
    exact exists_bind h1 ⟨_, rfl⟩
  have hc : (s.conn? c).isSome := by
    rw [hs.2]
    exact hcs c (by rwa [connsOf_of_node? hy])
  rcases exists_clearRefs hs.1 hc with ⟨s', h'⟩
  refine .inl ⟨s', h', mirrored_clearRefs hs.1 h', fun x => ?_⟩
  rw [(rewires_clearRefs hs.1 h').conn?_isSome, hs.2]

theorem exists_ensureOutput (hn : (g.node? n).isSome) : ∃ r, g.ensureOutput n = .ok r := by
  refine exists_bind (output?_eq_ok.mpr ⟨hn, rfl⟩) ?_
  cases (g.connsOf n).find? g.isOutput with
  | none => exact ⟨_, rfl⟩
  | some out => exact ⟨_, rfl⟩

/-- No connection is forgotten when a consumer moves. -/
theorem exists_moveConsumer (hc : (g.conn? c).isSome) : ∃ g', moveConsumer t o out g c = .ok g' ∧
    ∀ x, (g'.conn? x).isSome = (g.conn? x).isSome := by
  rcases Option.isSome_iff_exists.mp hc with ⟨y, hy⟩
  simp only [moveConsumer, conn_eq_ok.mpr hy, ok_bind]
  split
  · exact ⟨_, rfl, fun _ => rewires_forget.conn?_isSome⟩
  · split
    · exact ⟨_, rfl, fun _ => (rewires_setRefs [out]).conn?_isSome⟩
    · refine ⟨_, rfl, fun x => ?_⟩
      rw [rewires_note.conn?_isSome, (rewires_setRefs [out]).conn?_isSome]

/-- Consumers can be moved there, too. -/
theorem exists_moveConsumers_of_mirrored (hg : g.Mirrored) (ho : g.isOutput o) (ht : (g.node? t).isSome) :
    ∃ g', g.moveConsumers t o = .ok g' := by
  by_cases hnil : g.refsOf o = []
  · exact ⟨g, (moveConsumers_eq_ok ho).mpr (.inl ⟨hnil, rfl⟩)⟩
  have hr := rewires_setRefs (g := g) (c := o) []
  rcases exists_ensureOutput (g := g.setRefs o []) ht with
    ⟨⟨out, g1⟩, h1⟩
  have hrun : ∃ g', (g.refsOf o).foldlM (moveConsumer t o out) g1 = .ok g' := by
    refine (Ends.foldlM_invariant (I := fun s : Network => ∀ x, (s.conn? x).isSome = (g1.conn? x).isSome)
      (fun s c hc hs => ?_) fun _ => rfl).exists_ok
    have hc0 : ((g.setRefs o []).conn? c).isSome := by
      rw [hr.conn?_isSome]
      exact isSome_of_mem_refsOf (hg hc)
    rcases exists_moveConsumer ((hs c).trans ((supplies_ensureOutput h1).conn_isSome hc0)) with ⟨s', h', hsome⟩
    exact .inl ⟨s', h', fun x => (hsome x).trans (hs x)⟩
  rcases hrun with ⟨g', hrun⟩
  exact ⟨g', (moveConsumers_eq_ok ho).mpr (.inr ⟨hnil, out, g1, h1, hrun⟩)⟩

theorem exists_moveConsumers (hg : g.Sound) (ho : g.isOutput o) (ht : (g.node? t).isSome) :
    ∃ g', g.moveConsumers t o = .ok g' :=
  exists_moveConsumers_of_mirrored hg.mirror ho ht

/-! ## Giving connections to another node -/

/-- What an edit of wires and owners leaves as it is. -/
structure KeepsRecords (g g' : Network) : Prop where
  kindOf? : ∀ m, g'.kindOf? m = g.kindOf? m
  absorbedOf : ∀ m, g'.absorbedOf m = g.absorbedOf m
  connNameOf? : ∀ x, g'.connNameOf? x = g.connNameOf? x
  cells : g'.cells = g.cells
  pins : g'.pins = g.pins
  pinNodes : g'.pinNodes = g.pinNodes

namespace KeepsRecords

theorem refl (g : Network) : KeepsRecords g g :=
  ⟨fun _ => rfl, fun _ => rfl, fun _ => rfl, rfl, rfl, rfl⟩

theorem of_applies {e : Edit} (h : e.Applies g g') (hkeep : e.keep = fun _ => true) : KeepsRecords g g' where
  kindOf? _ := h.kindOf?
  absorbedOf _ := h.absorbedOf
  connNameOf? _ := h.connNameOf?
  cells := by simp [h.cells, hkeep]
  pins := by simp [h.pins, hkeep]
  pinNodes := by simp [h.pinNodes, hkeep]

variable (h : KeepsRecords g g1)
include h

theorem trans (h' : KeepsRecords g1 g') : KeepsRecords g g' where
  kindOf? m := (h'.kindOf? m).trans (h.kindOf? m)
  absorbedOf m := (h'.absorbedOf m).trans (h.absorbedOf m)
  connNameOf? x := (h'.connNameOf? x).trans (h.connNameOf? x)
  cells := h'.cells.trans h.cells
  pins := h'.pins.trans h.pins
  pinNodes := h'.pinNodes.trans h.pinNodes

theorem hasKind {p : NodeKind → Bool} (hn : g.hasKind p n) : g1.hasKind p n :=
  (hasKind_congr (h.kindOf? n)).trans hn

theorem inUse : g1.InUse n ↔ g.InUse n := by
  rw [InUse, InUse, h.cells, h.pins, h.pinNodes]

end KeepsRecords

/-- `g'` is `g` with the connections `moved` at the node `t`. -/
structure Gathers (t : NodeId) (moved : List ConnId) (g g' : Network) : Prop extends KeepsRecords g g' where
  sound : g'.Sound
  evolves : Evolves g g'
  connsOf : ∀ m, g'.connsOf m = (g.connsOf m).filter (· ∉ moved) ++ if m = t then moved else []
  refsOf : ∀ x, g'.refsOf x = g.refsOf x

theorem Gathers.refl (hg : g.Sound) : Gathers t [] g g :=
  ⟨.refl g, hg, .refl g, fun _ => by simp, fun _ => rfl⟩

/-- One more connection goes over. -/
theorem Gathers.step (h : Gathers t moved g g1) (hc : ∃ n, c ∈ g.connsOf n)
    (hnot : c ∉ moved) (ht : g.hasKind isNamed t) (hu : g.InUse t) (hstep : g1.reparent c t = .ok g') :
    Gathers t (moved ++ [c]) g g' := by
  obtain ⟨hr, hcs, hts⟩ := applies_reparent h.sound.owner hstep
  have hl : ∃ n, c ∈ g1.connsOf n := by
    obtain ⟨n, hn⟩ := hc
    refine ⟨n, ?_⟩
    rw [h.connsOf]
    simp [hn, hnot]
  refine ⟨h.toKeepsRecords.trans (.of_applies hr rfl), h.sound.reparented hr hcs hts (h.inUse.mpr hu),
    h.evolves.trans (evolves_reparented hr (h.hasKind ht) hl), fun m => ?_, fun x => ?_⟩
  · rw [connsOf_reparented hr hts, h.connsOf, filter_append, filter_filter]
    have hkeep : moved.filter (· ≠ c) = moved := filter_ne_eq_self hnot
    have hboth : (fun x => decide (x ≠ c) && decide (x ∉ moved)) = fun x => decide (x ∉ moved ++ [c]) := by
      simp [not_or, Bool.and_comm]
    rw [hboth]
    split
    · rw [hkeep, append_assoc]
    · rw [filter_nil, append_nil]
  · rw [refsOf_reparented hr, h.refsOf]

/-- Several connections can go over, one after the other. -/
theorem exists_gathers {l : List ConnId} (hg : g.Sound) (hl : ∀ c ∈ l, ∃ n, c ∈ g.connsOf n)
    (hnd : l.Nodup) (ht : g.hasKind isNamed t) (hu : g.InUse t) :
    ∃ g', l.foldlM (fun g c => g.reparent c t) g = .ok g' ∧ Gathers t l g g' := by
  refine (Ends.foldlM_inits (P := fun l s => Gathers t l g s) ?_ (.refl hg)).exists_result
  intro pre c post s heq hs
  rw [heq] at hnd
  have hnot : c ∉ pre := fun hm => (nodup_append.mp hnd).2.2 _ hm _ mem_cons_self rfl
  rcases hl c (by simp [heq]) with ⟨n, hn⟩
  have hc : c ∈ s.connsOf n := by
    rw [hs.connsOf]
    simp [hn, hnot]
  rcases exists_reparent (hs.sound.owner hc) (isSome_of_mem_connsOf hc)
    (isSome_of_hasKind (hs.hasKind ht)) with ⟨s', h'⟩
  exact .inl ⟨s', h', hs.step ⟨n, hn⟩ hnot ht hu h'⟩

/-! ## Moving the consumers and retiring the cell -/

/-- `g'` is `g` without the node `cell`: what read its output `o` reads an output of `t`, and what belongs
to `t` itself is cut off from `o`. `t` has taken over `a`. -/
structure Closes (cell t : NodeId) (o : ConnId) (a : Absorbed) (g g' : Network) : Prop where
  sound : g'.Sound
  evolves : Evolves g g'
  connsOf : ∃ new, (∀ m, g'.connsOf m = if m = cell then [] else
      g.connsOf m ++ if m = t then new else []) ∧
    (new = [] ∨ ∃ e, new = [e] ∧ g.conn? e = none ∧ g'.isOutput e = true ∧
      ∀ x ∈ g.connsOf t, g.isOutput x = false)
  refsOf : ∃ out, (g.refsOf o ≠ [] → out ∈ g'.connsOf t ∧ g'.isOutput out = true) ∧
    ∀ {c m}, g.isSink c = true → c ∈ g'.connsOf m → g'.refsOf c =
      if c ∈ g.refsOf o then if c ∈ g.connsOf t then [] else [out]
      else (g.refsOf c).filter (· ∉ g.connsOf cell)
  ownerOf? : ∀ {x}, (g.conn? x).isSome → g'.ownerOf? x = g.ownerOf? x
  kindOf? : ∀ m, g'.kindOf? m = g.kindOf? m
  absorbedOf : ∀ m, g'.absorbedOf m = if m = t then (g.absorbedOf m).union a else g.absorbedOf m
  connNameOf? : ∀ {x}, (g.conn? x).isSome → g'.connNameOf? x = g.connNameOf? x
  cells : g'.cells = g.cells.filter (· ≠ cell)
  pins : g'.pins = g.pins.filter (· ≠ cell)
  pinNodes : g'.pinNodes = g.pinNodes.filter (· ≠ cell)

/-- A cell is neither a pin nor a pin node. -/
theorem ne_of_isCell (hc : g.hasKind isCell n) (ht : g.hasKind isNamed m) : n ≠ m := by
  rintro rfl
  obtain ⟨k, hk, hp⟩ := hasKind_iff.mp hc
  rw [hasKind, hk, Option.any_some, NodeKind.isNamed_of_isCell hp] at ht
  cases ht

/-- What was there and is still there belongs to the same node, and not to the cell. -/
theorem Closes.mem_connsOf (h : Closes cell t o a g g') (hx : (g.conn? x).isSome)
    (hm : x ∈ g'.connsOf m) : x ∈ g.connsOf m ∧ m ≠ cell := by
  obtain ⟨new, hconns, hcase⟩ := h.connsOf
  rw [hconns] at hm
  split at hm
  · cases hm
  rename_i hmc
  refine ⟨?_, hmc⟩
  rcases mem_append.mp hm with hm | hm
  · exact hm
  · split at hm
    · rcases hcase with rfl | ⟨e, rfl, hnone, -⟩
      · cases hm
      · rw [mem_singleton.mp hm, hnone] at hx
        cases hx
    · cases hm

/-- What a connection that is still there reads, once the consumers of the cell have moved to `t` and
the cell is out of use. -/
theorem refsOf_closed (hg : g.Sound) (hs1 : g1.Sound) (hne : cell ≠ t) (hout : g.isOutput o)
    (hm : MovesConsumers t o g g1) (hr : (retired cell (g1.connsOf cell)).Applies (g1.absorb t a) g') :
    ∃ out, (g.refsOf o ≠ [] → out ∈ g'.connsOf t ∧ g'.isOutput out) ∧
      ∀ {c m}, g.isSink c → c ∈ g'.connsOf m → g'.refsOf c =
        if c ∈ g.refsOf o then if c ∈ g.connsOf t then [] else [out]
        else (g.refsOf c).filter (· ∉ g.connsOf cell) := by
  have hal := alike_absorb (g := g1) (n := t) a
  obtain ⟨new, hnew, -⟩ := hm.connsOf
  obtain ⟨out, hex, hrefs⟩ := hm.exists_out hg hout
  have hcell : g1.connsOf cell = g.connsOf cell := by simp [hnew, hne]
  refine ⟨out, fun hsome => ?_, fun {c m} hs hc => ?_⟩
  · rw [connsOf_retired hr, if_neg hne.symm, hal.connsOf, isOutput_congr hr.directionOf?]
    exact hex hsome
  -- a connection that is still there is not one of the cell
  have hcm : c ∈ g1.connsOf m ∧ m ≠ cell := by
    rw [connsOf_retired hr, hal.connsOf] at hc
    split at hc
    · cases hc
    · rename_i hmc
      exact ⟨hc, hmc⟩
  have hcc : c ∉ g1.connsOf cell := fun hcc => hcm.2 (hs1.eq_of_mem hcm.1 hcc)
  rw [refsOf_retired hr, if_neg hcc, hal.refsOf, hrefs hs, hcell]
  by_cases hco : c ∈ g.refsOf o
  · obtain ⟨k, hk⟩ := hg.listed (hg.mirror hco)
    have hiff : g.ownerOf? c = some t ↔ c ∈ g.connsOf t := by
      refine ⟨fun how => ?_, hg.owner⟩
      rwa [← Option.mem_unique (hg.owner hk) how]
    have hoc : out ∉ g.connsOf cell := fun hoc =>
      hne (hs1.eq_of_mem (hcell ▸ hoc) (hex (ne_nil_of_mem hco)).1)
    by_cases hct : c ∈ g.connsOf t
    · simp [hco, hct, hiff]
    · simp [hco, hct, hiff, hoc]
  · simp [hco]

/-- Moving the consumers and retiring the cell closes the gap. -/
theorem closes_retire (hg : g.Sound) (ho : o ∈ g.connsOf cell) (hout : g.isOutput o)
    (hne : cell ≠ t) (ht : g.hasKind isNamed t) (hu : g.InUse t) (hm : g.moveConsumers t o = .ok g1) (hr : (g1.absorb t a).retire cell = .ok g') :
    Closes cell t o a g g' := by
  have hot : o ∉ g.connsOf t := fun hot => hne (hg.eq_of_mem ho hot)
  -- the consumers move, the mark is set, the cell goes
  have hmoves := moves_moveConsumers hg hout hot hm
  have hs1 := hmoves.sound hg hout hu hot
  have hal := alike_absorb (g := g1) (n := t) a
  have hret := applies_retire (hal.sound hs1).mirror hr
  obtain ⟨new, hnew, hcase⟩ := hmoves.connsOf
  obtain ⟨hcells, hpins, hpinNodes⟩ := hmoves.lists
  have hts : (g1.node? t).isSome := by
    obtain ⟨k, hk, -⟩ := hasKind_iff.mp ht
    exact isSome_of_kindOf? (hmoves.kindOf?.trans hk)
  refine ⟨(hal.sound hs1).retired hret, ?_, ⟨new, fun m => ?_, ?_⟩,
    refsOf_closed hg hs1 hne hout hmoves (hal.connsOf cell ▸ hret), fun hx => ?_, fun m => ?_,
    fun m => ?_, fun hx => ?_, ?_, ?_, ?_⟩
  · exact ((hmoves.evolves ht).trans (hal.evolves (fun _ => nodeNameOf?_absorb _) fun _ _ => rfl)).trans
      (evolves_retired hret)
  · rw [connsOf_retired hret, hal.connsOf, hnew]
  · rcases hcase with hnil | ⟨hone, ho', hall⟩
    · exact .inl hnil
    · refine .inr ⟨_, hone, conn?_nextConn, ?_, hall⟩
      rw [isOutput_congr hret.directionOf?]
      exact ho'
  · simp [hret.ownerOf?, hal.ownerOf?, hmoves.ownerOf? hx, retired]
  · rw [hret.kindOf?, hal.kindOf?, hmoves.kindOf?]
  · rw [hret.absorbedOf, absorbedOf_absorb a hts, hmoves.absorbedOf]
  · rw [hret.connNameOf?, ← hmoves.connNameOf? hx]
    rfl
  · rw [hret.cells, hal.cells, hcells]
    rfl
  · rw [hret.pins, hal.pins, hpins]
    rfl
  · rw [hret.pinNodes, hal.pinNodes, hpinNodes]
    rfl

/-- The consumers follow, and the node goes out of use. -/
theorem exists_close (hg : g.Sound) (ho : o ∈ g.connsOf n) (hout : g.isOutput o) (hne : n ≠ t)
    (hu : g.InUse t) (ht : (g.node? t).isSome) : ∃ g1, g.moveConsumers t o = .ok g1 ∧
      (g1.node? n).isSome ∧ ∀ a, ∃ g', (g1.absorb t a).retire n = .ok g' := by
  have hot : o ∉ g.connsOf t := fun hot => hne (hg.eq_of_mem ho hot)
  rcases exists_moveConsumers hg hout ht with ⟨g1, h1⟩
  have hmoves := moves_moveConsumers hg hout hot h1
  have hn : (g1.node? n).isSome := by
    rw [← isSome_kindOf?, hmoves.kindOf?, isSome_kindOf?]
    exact isSome_of_mem_connsOf ho
  refine ⟨g1, h1, hn, fun a => ?_⟩
  have hal := alike_absorb (g := g1) (n := t) a
  have hsound := hal.sound (hmoves.sound hg hout hu hot)
  refine exists_retire hsound.mirror (fun c hc => hsound.conn_isSome hc) ?_
  rw [← isSome_kindOf?, hal.kindOf?, isSome_kindOf?]
  exact hn

end PldSynth.Network
