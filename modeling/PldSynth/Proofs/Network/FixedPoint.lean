import PldSynth.Proofs.Network.Branching

/-!
# Removing forwarding pin nodes and latch controls, to the end

Every pin node that a sweep removes shortens the list of pin nodes, so the sweeps come to one that removes
nothing before their bound is used up. Then no pin node forwards a signal to a pin or pin node
(`Unforwarded`), and dropping latch controls does not change that. So a second run finds nothing to remove
(`Trimmed.simplify`).
-/

namespace PldSynth.Network

open Attempt

variable {K : NodeKind → Bool} {g g' : Network} {n m a b : NodeId} {c d input output kept : ConnId}
  {s t : Nat × Network} {l : List ConnId} {r : Bool × Network}

/-! ## Networks in which nothing is forwarded -/

/-- No pin or pin node reads another pin node. -/
def Unforwarded (g : Network) : Prop :=
  ∀ input output a b, ¬ Forwarded g input output a b

/-- What is forwarded after an edit that takes connections and wires away was forwarded before. -/
theorem Forwarded.before (hf : Forwarded g' input output a b) (hg : g.Wired)
    (hkind : ∀ n, g'.kindOf? n = g.kindOf? n) (hdir : ∀ c, g'.directionOf? c = g.directionOf? c)
    (hconns : ∀ {n c}, c ∈ g'.connsOf n → c ∈ g.connsOf n)
    (hrefs : ∀ {c d}, d ∈ g'.refsOf c → d ∈ g.refsOf c) : Forwarded g input output a b := by
  have hin : g.isInput input := (isInput_congr (hdir input)).symm.trans hf.isInput
  exact {
    mem := hconns hf.mem
    isInput := hin
    named := (hasKind_congr (hkind a)).symm.trans hf.named
    refs := hg.refsOf_eq_singleton (isSink_of_isInput hin) (hrefs (by simp [hf.refs]))
    mem_output := hconns hf.mem_output
    ne := hf.ne
    kind := (hkind b).symm.trans hf.kind }

/-- An edit of the pass makes no pin node forward a signal. -/
theorem Trims.unforwarded (ht : Trims g g') (hg : g.Trimmable K) (hun : g.Unforwarded) :
    g'.Unforwarded := by
  intro input output a b hf
  cases ht with
  | fuse hf0 _ => exact hun _ _ _ _ hf0
  | drop _ _ _ hd =>
    refine hun _ _ _ _ (hf.before hg.toWired (fun _ => hd.kindOf?) (fun _ => hd.directionOf?)
      (fun {n c} hc => ?_) fun {c d} hmem => ?_)
    · rw [connsOf_detached hd] at hc
      exact (List.mem_filter.mp hc).1
    · rw [refsOf_detached hd] at hmem
      split at hmem
      · cases hmem
      · exact (List.mem_filter.mp hmem).1
  | retire _ _ hr =>
    refine hun _ _ _ _ (hf.before hg.toWired (fun _ => hr.kindOf?) (fun _ => hr.directionOf?)
      (fun {n c} hc => ?_) fun {c d} hmem => ?_)
    · rw [connsOf_retired hr] at hc
      split at hc
      · cases hc
      · exact hc
    · rw [refsOf_retired hr] at hmem
      split at hmem
      · cases hmem
      · exact (List.mem_filter.mp hmem).1
  | rebuild hr =>
    rw [hg.read.rebuildTop hg.toTidy] at hr
    cases hr
    exact hun _ _ _ _ (hf.before hg.toWired (fun _ => rfl) (fun _ => rfl) id id)

/-! ## A sweep that removes nothing -/

/-- If the count does not go up, the loop over the inputs found nothing and changed nothing. -/
theorem foldlM_fuseIfForwarded (h : l.foldlM fuseIfForwarded s = .ok t) :
    s.1 ≤ t.1 ∧ (t.1 = s.1 → t = s ∧ ∀ c ∈ l, s.2.isForwarded c = .ok false) := by
  induction l generalizing s with
  | nil =>
    rw [foldlM_nil_eq_ok] at h
    subst h
    exact ⟨Nat.le_refl _, fun _ => ⟨rfl, nofun⟩⟩
  | cons x l ih =>
    rcases foldlM_cons_eq_ok.mp h with ⟨u, hx, hrest⟩
    rcases ih hrest with ⟨hle, hsame⟩
    rcases fuseIfForwarded_cases hx with ⟨hfalse, rfl⟩ | ⟨-, -, hcount⟩
    · refine ⟨hle, fun heq => ⟨(hsame heq).1, fun c hc => ?_⟩⟩
      rcases List.mem_cons.mp hc with rfl | hc
      · exact hfalse
      · exact (hsame heq).2 c hc
    · constructor <;> omega

/-- A pin or pin node that reads another pin node is on the list of equations. -/
theorem Forwarded.mem_top (hf : Forwarded g input output a b) (hg : g.Owned) (htop : g.Collected) :
    input ∈ g.top := by
  rw [htop, List.mem_flatMap]
  refine ⟨a, List.mem_append_left _ (hg.mem_of_isNamed hf.mem hf.named), List.mem_filter.mpr ⟨hf.mem, ?_⟩⟩
  simp [hf.isSink, hf.refs]

/-- The search recognises a pin node that only forwards. -/
theorem Forwarded.isForwarded (hf : Forwarded g input output a b) (hg : g.Raw K) :
    g.isForwarded input = .ok true := by
  rcases Option.isSome_iff_exists.mp (hg.conn_isSome hf.mem) with ⟨y, hy⟩
  obtain rfl : y.owner = a := by simpa [ownerOf?_def, hy] using hg.owner hf.mem
  rcases Option.isSome_iff_exists.mp (isSome_of_mem_connsOf hf.mem) with ⟨z, hz⟩
  have hdir : y.direction = .input := by
    have hin := hf.isInput
    rw [Network.isInput, directionOf?_def, hy] at hin
    simpa using hin
  have hatt : g.isAttached input = .ok true := by
    have hmem := hf.mem
    rw [connsOf_of_node? hz] at hmem
    rw [isAttached, conn_eq_ok.mpr hy, ok_bind, node_eq_ok.mpr hz, ok_bind,
      pure_eq_ok]
    simpa using hmem
  rcases hasKind_iff.mp hf.named with ⟨k, hk, hnamed⟩
  have hsinks : g.sinks y.owner = .ok [input] := by
    refine sinks_eq_ok.mpr ⟨isSome_of_mem_connsOf hf.mem, ?_⟩
    exact filter_of_sole (hg.nodup_conns _) hf.mem hf.isSink fun x hx hs =>
      hg.single hf.named hx hf.mem hs hf.isSink
  have hhead : y.refs.head? = some output := by
    rw [← refsOf_of_conn? hy, hf.refs]
    rfl
  unfold Network.isForwarded
  simp only [hatt, conn_eq_ok.mpr hy, hdir, nodeKind_eq_ok.mpr hk, hnamed, hsinks, hhead,
    owner_eq_ok.mpr (hg.owner hf.mem_output), nodeKind_eq_ok.mpr hf.kind, ok_bind]
  simp [hf.ne, pure_eq_ok]

/-! ## The sweeps come to an end -/

theorem length_filter_ne {l : List NodeId} (hl : l.Nodup) (hb : b ∈ l) :
    (l.filter (· ≠ b)).length + 1 = l.length := by
  have hpos := List.length_pos_of_mem hb
  have herase : l.filter (· ≠ b) = l.erase b := by
    rw [hl.erase_eq_filter]
    apply List.filter_congr
    intro x _
    by_cases hx : x = b <;> simp [hx]
  rw [herase, List.length_erase_of_mem hb]
  omega

/-- Every pin node that a sweep counts is gone from the list. -/
theorem count_foldlM_fuseIfForwarded (hg : s.2.Trimmable K) (h : l.foldlM fuseIfForwarded s = .ok t) :
    t.2.Trimmable K ∧ t.1 + t.2.pinNodes.length = s.1 + s.2.pinNodes.length := by
  refine foldlM_invariant (P := fun t : Nat × Network =>
    t.2.Trimmable K ∧ t.1 + t.2.pinNodes.length = s.1 + s.2.pinNodes.length) ?_ ⟨hg, rfl⟩ h
  rintro u x u' - ⟨hu, hcount⟩ hstep
  rcases fuseIfForwarded_cases hstep with ⟨-, rfl⟩ | ⟨htrue, hfuse, hone⟩
  · exact ⟨hu, hcount⟩
  · rcases forwarded_isForwarded hu.toSound htrue with ⟨output, a, b, hf⟩
    rcases fuses_fuse hu.toRaw hu.anchored.selfless hf hfuse with ⟨kept, hfuses⟩
    have hlen := length_filter_ne hu.nodup_pinNodes (hu.mem_pinNodes_of_kind hf.mem_output hf.kind)
    refine ⟨(Trims.fuse hf hfuses).trimmable hu, ?_⟩
    rw [hfuses.pinNodes]
    omega

/-- A sweep, which changes nothing exactly if no pin node forwards a signal. -/
theorem sweep_spec {r : Nat × Network} (hg : g.Trimmable K) (htop : g.Collected) (h : g.sweep = .ok r) :
    r.2.Trimmable K ∧ r.2.Collected ∧ r.1 + r.2.pinNodes.length = g.pinNodes.length ∧
      (r.1 = 0 → r.2 = g ∧ g.Unforwarded) := by
  simp only [sweep, bind_eq_ok, pure_eq_ok] at h
  rcases h with ⟨t, ht, g', hg', rfl⟩
  rcases count_foldlM_fuseIfForwarded hg ht with ⟨hgt, hcount⟩
  refine ⟨(Trims.rebuild hg').trimmable hgt, collected_rebuildTop hg', ?_, ?_⟩
  · -- something reads every pin node, so none is retired
    rw [hgt.read.rebuildTop hgt.toTidy] at hg'
    cases hg'
    simpa using hcount
  · intro hzero
    rcases (foldlM_fuseIfForwarded ht).2 hzero with ⟨rfl, hnone⟩
    constructor
    · rw [hg.read.rebuildTop hg.toTidy, ← htop] at hg'
      exact (Except.ok.inj hg').symm
    · intro input output a b hf
      have hfalse := hnone input (hf.mem_top hg.toOwned htop)
      rw [hf.isForwarded hg.toRaw] at hfalse
      cases hfalse

/-- With more sweeps than there are pin nodes the last one removes nothing. -/
theorem sweepAll_spec {bound : Nat} (hg : g.Trimmable K) (htop : g.Collected)
    (hbound : g.pinNodes.length < bound) (h : sweepAll bound g = .ok r) :
    r.2.Trimmable K ∧ r.2.Collected ∧ r.2.Unforwarded := by
  induction bound generalizing g r with
  | zero => omega
  | succ bound ih =>
    simp only [sweepAll, bind_eq_ok] at h
    rcases h with ⟨⟨count, g1⟩, hsweep, h⟩
    rcases sweep_spec hg htop hsweep with ⟨hg1, htop1, hcount, hzero⟩
    split at h
    · rename_i hnone
      rw [pure_eq_ok] at h
      subst h
      rcases hzero hnone with ⟨heq, hun⟩
      exact ⟨hg1, htop1, heq ▸ hun⟩
    · simp only [bind_eq_ok, pure_eq_ok] at h
      rcases h with ⟨r', hr', rfl⟩
      have hfewer : g1.pinNodes.length < bound := by
        dsimp only at hcount
        omega
      have hrest := ih hg1 htop1 hfewer hr'
      exact hrest

theorem countP_range_getElem? {α : Type} (p : α → Bool) (l : List α) :
    (List.range l.length).countP (fun i => (l[i]?).any p) = l.countP p := by
  induction l with
  | nil => rfl
  | cons x l ih =>
    rw [List.length_cons, List.range_succ_eq_map, List.countP_cons, List.countP_cons, ← ih]
    simp [Function.comp_def]

/-- The bound that the pass sets allows for all pin nodes on the list. -/
theorem Trimmable.length_pinNodes (hg : g.Trimmable K) : g.pinNodes.length ≤ g.livePinNodes := by
  have hnodup : (g.pinNodes.map NodeId.index).Nodup :=
    hg.nodup_pinNodes.map fun a b hab => NodeId.ext_index.mpr hab
  have hsub : g.pinNodes.map NodeId.index ⊆ (List.range g.nodes.items.toList.length).filter fun i =>
      (g.nodes.items.toList[i]?).any fun x => x.kind = .pinNode && !x.conns.isEmpty := by
    intro i hi
    rcases List.mem_map.mp hi with ⟨n, hn, rfl⟩
    rcases hg.fed n hn with ⟨c, hc, -⟩
    rcases Option.isSome_iff_exists.mp (isSome_of_mem_connsOf hc) with ⟨z, hz⟩
    have hkind : z.kind = .pinNode := by simpa [kindOf?_def, hz] using hg.pinNode_kind hn
    have hconns : z.conns ≠ [] := by
      rw [connsOf_of_node? hz] at hc
      exact List.ne_nil_of_mem hc
    have hget : g.nodes.items.toList[n.index]? = some z := by
      rw [← hz]
      simp [node?, Arena.get?]
    rw [List.mem_filter, List.mem_range, hget]
    refine ⟨?_, by simp [hkind, hconns]⟩
    exact (List.getElem?_eq_some_iff.mp hget).1
  have hle := (List.subperm_of_subset hnodup hsub).length_le
  rw [List.length_map, ← List.countP_eq_length_filter, countP_range_getElem?] at hle
  exact hle

/-! ## A second run -/

/-- No pin node forwards a signal, no latch has an asynchronous control, and the list of equations is up
to date. -/
structure Trimmed (K : NodeKind → Bool) (g : Network) : Prop extends Trimmable K g where
  collected : g.Collected
  unforwarded : g.Unforwarded
  uncontrolled : ∀ {n}, g.kindOf? n = some .latch → g.Uncontrolled n

/-- What the pass leaves. -/
theorem trimmed_simplify (hg : g.Trimmable K) (htop : g.Collected)
    (h : g.simplify = .ok r) : r.2.Trimmed K := by
  simp only [simplify, trimLatches, bind_eq_ok, pure_eq_ok] at h
  rcases h with ⟨s1, h1, s2, h2, g3, h3, -, -, rfl⟩
  have hbound := Nat.lt_succ_of_le hg.length_pinNodes
  rcases sweepAll_spec hg htop hbound h1 with ⟨hg1, -, hun1⟩
  -- what is forwarded nowhere stays so while controls are dropped
  have hself : ∀ {s : Network}, (s.Trimmable K ∧ s.Unforwarded ∧ ∀ n, s.kindOf? n = s1.2.kindOf? n) →
      s.Raw K ∧ s.Selfless := fun hs => ⟨hs.1.toRaw, hs.1.anchored.selfless⟩
  have hkeeps : ∀ {s s' : Network}, (s.Trimmable K ∧ s.Unforwarded ∧ ∀ n, s.kindOf? n = s1.2.kindOf? n) →
      Trims s s' → s'.Trimmable K ∧ s'.Unforwarded ∧ ∀ n, s'.kindOf? n = s1.2.kindOf? n := by
    rintro s s' ⟨hs, hun, hkind⟩ ht
    exact ⟨ht.trimmable hs, ht.unforwarded hs hun, fun n => (ht.kindOf? hs.toTidy).trans (hkind n)⟩
  rcases dropLatchControls_keeps hself hkeeps ⟨hg1, hun1, fun _ => rfl⟩ h2 with ⟨hP2, he2, hnone⟩
  have he3 := (Trims.rebuild h3).evolves hP2.1.toTidy
  rcases hkeeps hP2 (.rebuild h3) with ⟨hg3, hun3, hkind3⟩
  refine ⟨hg3, collected_rebuildTop h3, hun3, fun {n} hk c hc => ?_⟩
  have hk1 : s1.2.kindOf? n = some .latch := (hkind3 n).symm.trans hk
  have hk2 : s2.2.kindOf? n = some .latch := (hP2.2.2 n).trans hk1
  have hnamed : ∀ {s : Network}, s.kindOf? n = some .latch → s.hasKind NodeKind.isNamed n = false := by
    intro s hs
    simp [hasKind, hs, NodeKind.isNamed]
  have hc1 := he2.shrinks (isSome_of_kindOf? hk1) (hnamed hk1)
    (he3.shrinks (isSome_of_kindOf? hk2) (hnamed hk2) hc)
  have hcell : n ∈ s1.2.cells := hg1.mem_cells_of_isCell hc1 (hasKind_of hk1 rfl)
  exact (hnone n hcell hk1).evolves hP2.1.toOwned he3 hk2 hc

/-- A connection that is no asynchronous control stays. -/
theorem dropControl_of_uncontrolled {s : Bool × Network} (hc : (s.2.conn? c).isSome)
    (hname : ∀ control : LatchControl, s.2.connNameOf? c ≠ some control.port) :
    dropControl n s c = .ok s := by
  rcases Option.isSome_iff_exists.mp hc with ⟨y, hy⟩
  have hport : LatchControl.ofPort? y.name = none := by
    cases hcontrol : LatchControl.ofPort? y.name with
    | none => rfl
    | some control =>
      refine absurd ?_ (hname control)
      rw [← LatchControl.ofPort?_eq_some hcontrol]
      simp [connNameOf?, hy]
  simp only [dropControl, conn_eq_ok.mpr hy, hport, ok_bind]
  rfl

namespace Trimmed

variable (hg : g.Trimmed K)
include hg

theorem rebuildTop : g.rebuildTop = .ok g := by
  rw [hg.read.rebuildTop hg.toTidy, ← hg.collected]

/-- A sweep over what the pass leaves. -/
theorem sweep : g.sweep = .ok (0, g) := by
  rcases exists_sweep hg.toTrimmable hg.collected with ⟨r, hr⟩
  have hloop : ∀ {t}, g.top.foldlM fuseIfForwarded (0, g) = .ok t → t = (0, g) := by
    intro t ht
    refine foldlM_invariant (P := fun t => t = (0, g)) ?_ rfl ht
    rintro _ c s' - rfl hstep
    rcases fuseIfForwarded_cases hstep with ⟨-, rfl⟩ | ⟨htrue, -⟩
    · rfl
    · rcases forwarded_isForwarded hg.toSound htrue with ⟨output, a, b, hf⟩
      exact absurd hf (hg.unforwarded _ _ _ _)
  have hrun := hr
  simp only [Network.sweep, bind_eq_ok, pure_eq_ok] at hrun
  rcases hrun with ⟨t, ht, g', hg', rfl⟩
  obtain rfl := hloop ht
  rw [hg.rebuildTop] at hg'
  cases hg'
  exact hr

theorem dropLatchControls : g.dropLatchControls = .ok (false, g) := by
  refine foldlM_of_fixed fun n hn => ?_
  have hk : g.kindOf? n = some .latch := by
    rcases hasKind_iff.mp (List.mem_filter.mp hn).2 with ⟨k, hk, hp⟩
    rw [hk, of_decide_eq_true hp]
  rw [dropControls, inputs_eq_ok.mpr ⟨isSome_of_kindOf? hk, rfl⟩]
  refine foldlM_of_fixed fun c hc => ?_
  rcases List.mem_filter.mp hc with ⟨hc, hin⟩
  exact dropControl_of_uncontrolled (hg.conn_isSome hc) (hg.uncontrolled hk hc hin)

/-- Nothing is left to remove. -/
theorem simplify : g.simplify = .ok (false, g) := by
  have hsweeps : sweepAll (g.livePinNodes + 1) g = .ok (false, g) := by
    rw [sweepAll, hg.sweep]
    rfl
  simp only [Network.simplify, trimLatches, hsweeps, hg.dropLatchControls, hg.rebuildTop,
    hg.toSound.checkAll, ok_bind]
  rfl

end Trimmed

end PldSynth.Network
