import PldSynth.Proofs.Network.Budget
import PldSynth.Proofs.Network.Consistency

/-!
# What the budget of pin nodes leaves untouched

Here the cells need no particular shape, so nothing is known about the copies of logic that stand in for
a pin node. But the copies are new cells, and what was there keeps its name and kind and gets no
connections (`KeepsNames`). Each round ends with a list of equations that is up to date and with a check
of the whole network (`Checked`).
-/

namespace PldSynth.Network

open Attempt
open PldSynth.NodeKind (isBoundary)

variable {g g' : Network} {n : NodeId} {c d : ConnId} {pn : NodeId} {cone : Cone} {limit : Option Nat}
  {q : Bool × Network} {consumer root : ConnId}

/-- The connection keeps all but its wires. -/
structure KeepsLabel (g g' : Network) (c : ConnId) : Prop where
  owner : g'.ownerOf? c = g.ownerOf? c
  direction : g'.directionOf? c = g.directionOf? c
  name : g'.connNameOf? c = g.connNameOf? c

/-- The nodes and connections of `g` are labelled the same in `g'`, and the nodes have no further
connections. Pins stay, and no pin, pin node, register or buffer is new. -/
structure KeepsNames (g g' : Network) : Prop where
  name : ∀ {n}, (g.node? n).isSome → g'.nodeNameOf? n = g.nodeNameOf? n
  kind : ∀ {n}, (g.node? n).isSome → g'.kindOf? n = g.kindOf? n
  conns : ∀ {n c}, (g.node? n).isSome → c ∈ g'.connsOf n → c ∈ g.connsOf n
  label : ∀ {c}, (g.conn? c).isSome → KeepsLabel g g' c
  new : ∀ {n}, g.node? n = none → g'.hasKind isBoundary n = false
  pins : g'.pins = g.pins
  pinNodes : g'.pinNodes.Sublist g.pinNodes

/-- What stands on the lists of pins and pin nodes is of that kind. -/
structure Listed (g : Network) : Prop where
  pin : ∀ {n}, n ∈ g.pins → g.kindOf? n = some .pin
  pinNode : ∀ {n}, n ∈ g.pinNodes → g.kindOf? n = some .pinNode

theorem not_pin_of_not_isBoundary (h : g.hasKind isBoundary n = false) :
    g.hasKind (· = .pin) n = false := by
  rw [Bool.eq_false_iff] at h ⊢
  intro hpin
  obtain ⟨k, hk, hp⟩ := hasKind_iff.mp hpin
  obtain rfl := of_decide_eq_true hp
  exact h (hasKind_of hk rfl)

theorem KeepsLabel.refl (g : Network) (c : ConnId) : KeepsLabel g g c :=
  ⟨rfl, rfl, rfl⟩

namespace KeepsNames

theorem refl (g : Network) : KeepsNames g g where
  name _ := rfl
  kind _ := rfl
  conns _ hc := hc
  label _ := .refl g _
  new hn := by simp [Network.hasKind, kindOf?_def, hn]
  pins := rfl
  pinNodes := .refl _

theorem node_isSome (h : KeepsNames g g') (hn : (g.node? n).isSome) : (g'.node? n).isSome := by
  rw [← isSome_kindOf?, h.kind hn, isSome_kindOf?]
  exact hn

theorem conn_isSome (h : KeepsNames g g') (hc : (g.conn? c).isSome) : (g'.conn? c).isSome := by
  rw [← isSome_directionOf?, (h.label hc).direction, isSome_directionOf?]
  exact hc

theorem trans {g'' : Network} (h : KeepsNames g g') (h' : KeepsNames g' g'') : KeepsNames g g'' where
  name hn := (h'.name (h.node_isSome hn)).trans (h.name hn)
  kind hn := (h'.kind (h.node_isSome hn)).trans (h.kind hn)
  conns hn hc := h.conns hn (h'.conns (h.node_isSome hn) hc)
  label hc := by
    have hl := h.label hc
    have hl' := h'.label (h.conn_isSome hc)
    exact ⟨hl'.owner.trans hl.owner, hl'.direction.trans hl.direction, hl'.name.trans hl.name⟩
  new {n} hn := by
    cases hn' : g'.node? n with
    | none => exact h'.new hn'
    | some x => rw [Network.hasKind, h'.kind (by simp [hn']), ← Network.hasKind, h.new hn]
  pins := h'.pins.trans h.pins
  pinNodes := h'.pinNodes.trans h.pinNodes

theorem listed (h : KeepsNames g g') (hg : g.Listed) : g'.Listed where
  pin hn := by
    have hk := hg.pin (h.pins ▸ hn)
    rw [h.kind (isSome_of_kindOf? hk), hk]
  pinNode hn := by
    have hk := hg.pinNode (h.pinNodes.subset hn)
    rw [h.kind (isSome_of_kindOf? hk), hk]

/-- Whatever is done to the wires and to the list of equations. -/
theorem modifyConn (f : Conn → Conn)
    (hf : ∀ y, (f y).owner = y.owner ∧ (f y).direction = y.direction ∧ (f y).name = y.name) :
    KeepsNames g (g.modifyConn c f) := by
  have hr := refl g
  refine ⟨hr.name, hr.kind, hr.conns, fun {x} _ => ?_, hr.new, rfl, .refl _⟩
  have hconn := conn?_modifyConn (g := g) (c := c) (d := x) f
  constructor
  · rw [ownerOf?_def, hconn, ownerOf?_def]
    split
    · cases g.conn? x <;> simp [hf]
    · rfl
  · rw [directionOf?_def, hconn, directionOf?_def]
    split
    · cases g.conn? x <;> simp [hf]
    · rfl
  · rw [connNameOf?, hconn, connNameOf?]
    split
    · cases g.conn? x <;> simp [hf]
    · rfl

theorem setTop (l : List ConnId) : KeepsNames g { g with top := l } := by
  have hr := refl g
  exact ⟨hr.name, hr.kind, hr.conns, fun _ => ⟨rfl, rfl, rfl⟩, hr.new, rfl, .refl _⟩

theorem wire (c d : ConnId) : KeepsNames g (g.wire c d) :=
  (modifyConn (fun x => x.note d) fun _ => ⟨rfl, rfl, rfl⟩).trans
    (modifyConn _ fun _ => ⟨rfl, rfl, rfl⟩)

theorem cut (c d : ConnId) : KeepsNames g (g.cut c d) :=
  (modifyConn (fun x => x.forget d) fun _ => ⟨rfl, rfl, rfl⟩).trans
    (modifyConn _ fun _ => ⟨rfl, rfl, rfl⟩)

/-- A change of a node that keeps its name and kind and adds no connection. -/
theorem modifyNode (f : Node → Node) (hname : ∀ x, (f x).name = x.name)
    (hkind : ∀ x, (f x).kind = x.kind) (hconns : ∀ x, (f x).conns ⊆ x.conns) :
    KeepsNames g (g.modifyNode n f) where
  name {m} _ := by
    rw [nodeNameOf?, node?_modifyNode]
    split
    · rw [Option.map_map]
      exact congrArg (Option.map · _) (funext hname)
    · rfl
  kind {m} _ := by
    rw [kindOf?_def, node?_modifyNode]
    split
    · rw [Option.map_map]
      exact congrArg (Option.map · _) (funext hkind)
    · rfl
  conns {m c} hm hc := by
    obtain ⟨x, hx⟩ := Option.isSome_iff_exists.mp hm
    rw [connsOf_def, node?_modifyNode, hx] at hc
    rw [connsOf_def, hx]
    split at hc
    · exact hconns x hc
    · exact hc
  label _ := ⟨rfl, rfl, rfl⟩
  new {m} hm := by
    rw [Network.hasKind, kindOf?_def, node?_modifyNode, hm]
    split <;> rfl
  pins := rfl
  pinNodes := .refl _

theorem addCell (s : String) {k : NodeKind} (hk : k.isBoundary = false) :
    KeepsNames g (g.addCell s k).2 where
  name hn := by rw [nodeNameOf?, node?_addCell, if_neg (ne_nextNode hn), nodeNameOf?]
  kind hn := by rw [kindOf?_def, node?_addCell, if_neg (ne_nextNode hn), kindOf?_def]
  conns hn hc := by rwa [connsOf_def, node?_addCell, if_neg (ne_nextNode hn)] at hc
  label _ := ⟨rfl, rfl, rfl⟩
  new {n} hn := by
    rw [Network.hasKind, kindOf?_def, node?_addCell]
    split
    · exact hk
    · rw [hn]
      rfl
  pins := rfl
  pinNodes := .refl _

/-- A node that was not there may get connections. -/
theorem attach {s : Network} (h : KeepsNames g s) (hn : g.node? n = none) (name : String)
    (dir : Direction) : KeepsNames g (s.attach n name dir).2 where
  name hm := (nodeNameOf?_attach name dir).trans (h.name hm)
  kind hm := (kindOf?_attach name dir).trans (h.kind hm)
  conns {m c} hm hc := by
    have hmn : m ≠ n := by
      rintro rfl
      simp [hn] at hm
    rw [connsOf_def, node?_attach, if_neg hmn] at hc
    exact h.conns hm hc
  label {c} hc := by
    have hne := ne_nextConn (h.conn_isSome hc)
    have hl := h.label hc
    refine ⟨?_, ?_, ?_⟩
    · rw [ownerOf?_def, conn?_attach, if_neg hne, ← ownerOf?_def, hl.owner]
    · rw [directionOf?_def, conn?_attach, if_neg hne, ← directionOf?_def, hl.direction]
    · rw [connNameOf?, conn?_attach, if_neg hne, ← connNameOf?, hl.name]
  new {m} hm := by
    rw [Network.hasKind, kindOf?_attach]
    exact h.new hm
  pins := h.pins
  pinNodes := h.pinNodes

/-- Taking anything but a pin off the lists. -/
theorem removeNode (hg : g.Listed) (hn : g.hasKind (· = .pin) n = false) :
    KeepsNames g (g.removeNode n) where
  name _ := rfl
  kind _ := rfl
  conns _ hc := hc
  label _ := ⟨rfl, rfl, rfl⟩
  new := (refl g).new
  pins := by
    refine List.filter_eq_self.mpr fun m hm => ?_
    rw [decide_eq_true_eq]
    rintro rfl
    simp [Network.hasKind, hg.pin hm] at hn
  pinNodes := List.filter_sublist

theorem clearRefs (h : g.clearRefs c = .ok g') : KeepsNames g g' := by
  simp only [Network.clearRefs, bind_eq_ok, pure_eq_ok] at h
  obtain ⟨x, -, -, -, rfl⟩ := h
  refine List.foldlRecOn x.refs _ (modifyConn _ fun _ => ⟨rfl, rfl, rfl⟩) ?_
  exact fun s hs r _ => hs.trans (modifyConn _ fun _ => ⟨rfl, rfl, rfl⟩)

theorem retire (hg : g.Listed) (hn : g.hasKind (· = .pin) n = false) (h : g.retire n = .ok g') :
    KeepsNames g g' := by
  simp only [Network.retire, bind_eq_ok, pure_eq_ok, node_eq_ok] at h
  obtain ⟨x, hx, g1, h1, rfl⟩ := h
  have hrun : KeepsNames g g1 := by
    refine foldlM_invariant ?_ ?_ h1
    · exact fun s c s' _ hs hstep => hs.trans (clearRefs hstep)
    · exact modifyNode _ (fun _ => rfl) (fun _ => rfl) fun _ => List.nil_subset _
  refine hrun.trans (removeNode (hrun.listed hg) ?_)
  rw [Network.hasKind, hrun.kind (by simp [hx])]
  exact hn

theorem rebuildTop (hg : g.Listed) (h : g.rebuildTop = .ok g') : KeepsNames g g' := by
  simp only [Network.rebuildTop, bind_eq_ok, pure_eq_ok] at h
  obtain ⟨g1, h1, rfl⟩ := h
  have hrun : KeepsNames g g1 := by
    refine foldlM_invariant ?_ (.refl g) h1
    intro s n s' hn hs hstep
    have hk := hg.pinNode (List.mem_filter.mp hn).1
    refine hs.trans (retire (hs.listed hg) ?_ hstep)
    rw [Network.hasKind, hs.kind (isSome_of_kindOf? hk), hk]
    rfl
  exact hrun.trans (setTop _)

theorem copyNode {q : NodeId × Network} (hn : g.hasKind isBoundary n = false)
    (h : g.copyNode n = .ok q) : KeepsNames g q.2 := by
  simp only [Network.copyNode, bind_eq_ok, pure_eq_ok, node_eq_ok] at h
  obtain ⟨x, hx, g1, h1, rfl⟩ := h
  have hk : x.kind.isBoundary = false := by simpa [Network.hasKind, kindOf?_def, hx] using hn
  refine foldlM_invariant ?_ ?_ h1
  · intro s c s' _ hs hstep
    simp only [copyConn, bind_eq_ok, pure_eq_ok] at hstep
    obtain ⟨y, -, rfl⟩ := hstep
    exact hs.attach node?_nextNode _ _
  · exact (addCell x.name hk).trans
      (modifyNode _ (fun _ => rfl) (fun _ => rfl) fun _ => List.Subset.refl _)

theorem copyNodes {ns : List NodeId} {q : List (NodeId × NodeId) × Network}
    (hns : ∀ n ∈ ns, (g.node? n).isSome ∧ g.hasKind isBoundary n = false)
    (h : g.copyNodes ns = .ok q) : KeepsNames g q.2 := by
  refine foldlM_invariant (P := fun q : List (NodeId × NodeId) × Network => KeepsNames g q.2) ?_
    (.refl g) h
  intro s n s' hn hs hstep
  simp only [bind_eq_ok, pure_eq_ok] at hstep
  obtain ⟨q, hq, rfl⟩ := hstep
  obtain ⟨hsome, hk⟩ := hns n hn
  exact hs.trans (copyNode (by rwa [Network.hasKind, hs.kind hsome]) hq)

theorem wireCopiedConn {copies : List (NodeId × NodeId)} {pair : ConnId × ConnId}
    (h : wireCopiedConn copies pn consumer g pair = .ok g') : KeepsNames g g' := by
  simp only [Network.wireCopiedConn, bind_eq_ok] at h
  obtain ⟨x, -, h⟩ := h
  split at h
  · split at h
    · exact pure_eq_ok.mp h ▸ .refl g
    · simp only [bind_eq_ok] at h
      obtain ⟨target, -, h⟩ := h
      split at h
      · exact pure_eq_ok.mp h ▸ wire _ _
      · exact absurd h bind_throw_ne_ok
  · exact pure_eq_ok.mp h ▸ .refl g

/-- Copying logic. -/
theorem copyCone {q : ConnId × Network}
    (hcone : ∀ n ∈ cone.inner, (g.node? n).isSome ∧ g.hasKind isBoundary n = false)
    (h : g.copyCone cone root pn consumer = .ok q) : KeepsNames g q.2 := by
  simp only [Network.copyCone, bind_eq_ok] at h
  obtain ⟨copies, hcopies, g1, h1, n, -, h⟩ := h
  have hrun : KeepsNames g g1 := by
    refine foldlM_invariant ?_ (copyNodes hcone hcopies) h1
    intro s pair s' _ hs hstep
    simp only [wireCopy, bind_eq_ok] at hstep
    obtain ⟨x, -, y, -, hstep⟩ := hstep
    exact foldlM_invariant
      (fun s c s' _ hs hstep => hs.trans (wireCopiedConn hstep)) hs hstep
  split at h
  · exact pure_eq_ok.mp h ▸ hrun
  · simp only [bind_eq_ok] at h
    obtain ⟨out, -, h⟩ := h
    split at h
    · exact pure_eq_ok.mp h ▸ hrun
    · exact absurd h bind_throw_ne_ok

/-- Only logic belongs to the logic behind an output. -/
theorem coneOf_inner (h : g.coneOf root = .ok cone) :
    ∀ n ∈ cone.inner, (g.node? n).isSome ∧ g.hasKind isBoundary n = false := by
  refine Attempt.drain_invariant (P := fun cone : Cone => ∀ n ∈ cone.inner,
    (g.node? n).isSome ∧ g.hasKind isBoundary n = false)
    (I := fun _ _ => True) ?_ (by simp) (fun _ _ => trivial) h
  intro cone o cone' more hcone _ hstep
  refine ⟨?_, fun _ _ => trivial, fun _ _ => trivial⟩
  simp only [coneStep, bind_eq_ok, nodeKind_eq_ok] at hstep
  obtain ⟨n, -, k, hk, hstep⟩ := hstep
  split at hstep
  · cases pure_eq_ok.mp hstep
    exact hcone
  rename_i hb
  split at hstep
  · cases pure_eq_ok.mp hstep
    exact hcone
  · simp only [bind_eq_ok, pure_eq_ok] at hstep
    obtain ⟨_, -, _, -, hstep⟩ := hstep
    cases hstep
    intro m hm
    rcases List.mem_append.mp hm with hm | hm
    · exact hcone m hm
    · rw [List.mem_singleton.mp hm, Network.hasKind, hk]
      exact ⟨isSome_of_kindOf? hk, by simpa using hb⟩

theorem inlineInto {out : ConnId}
    (hcone : ∀ n ∈ cone.inner, (g.node? n).isSome ∧ g.hasKind isBoundary n = false)
    (h : inlineInto cone root pn out g consumer = .ok g') : KeepsNames g g' := by
  simp only [Network.inlineInto, bind_eq_ok] at h
  obtain ⟨n, -, h⟩ := h
  split at h
  · exact pure_eq_ok.mp h ▸ .refl g
  · simp only [bind_eq_ok, pure_eq_ok] at h
    obtain ⟨q, hq, rfl⟩ := h
    exact (copyCone hcone hq).trans ((cut _ _).trans (wire _ _))

theorem retireIfUnread (hg : g.Listed) (hn : g.hasKind (· = .pin) n = false)
    (h : g.retireIfUnread n = .ok g') : KeepsNames g g' := by
  simp only [Network.retireIfUnread, bind_eq_ok] at h
  obtain ⟨out, -, h⟩ := h
  split at h
  · exact retire hg hn h
  · simp only [bind_eq_ok] at h
    obtain ⟨k, -, h⟩ := h
    split at h
    · exact retire hg hn h
    · exact pure_eq_ok.mp h ▸ .refl g

/-- Removing a pin node. -/
theorem inlinePinNode (hg : g.Listed) (hpn : pn ∈ g.pinNodes) (h : g.inlinePinNode pn = .ok g') :
    KeepsNames g g' := by
  obtain ⟨-, root, out, cone, g1, g2, -, -, -, hcone, h1, h2, h3⟩ := inlinePinNode_cases h
  have hkept : ∀ {s n} {p : NodeKind → Bool}, KeepsNames g s → (g.node? n).isSome →
      g.hasKind p n = false → s.hasKind p n = false := by
    intro s n p hs hn hk
    rw [Network.hasKind, hs.kind hn]
    exact hk
  have hinner := coneOf_inner hcone
  have hrun1 : KeepsNames g g1 := foldlM_invariant
    (fun s c s' _ hs hstep => hs.trans (inlineInto (fun n hn =>
      ⟨hs.node_isSome (hinner n hn).1, hkept hs (hinner n hn).1 (hinner n hn).2⟩) hstep)) (.refl g) h1
  have hk := hg.pinNode hpn
  have hrun2 : KeepsNames g g2 := hrun1.trans (retire (hrun1.listed hg)
    (hkept hrun1 (isSome_of_kindOf? hk) (by rw [Network.hasKind, hk]; rfl)) h2)
  refine foldlM_invariant (fun s n s' hn hs hstep => ?_) hrun2 h3
  obtain ⟨hsome, hkn⟩ := hinner n hn
  exact hs.trans (retireIfUnread (hs.listed hg)
    (hkept hs hsome (not_pin_of_not_isBoundary hkn)) hstep)

end KeepsNames

/-! ## All rounds -/

theorem KeepsNames.expand (hg : g.Listed) (h : g.expand limit = .ok q) : KeepsNames g q.2 := by
  refine expand_invariant ?_ (.refl g) h
  intro pn s s1 s' hs hpn _ h1 h2 _
  have hrun1 := hs.trans (inlinePinNode (hs.listed hg) hpn h1)
  exact hrun1.trans (rebuildTop (hrun1.listed hg) h2)

/-- The list of equations is up to date, and what an input of a pin or pin node reads can drive. -/
structure Checked (g : Network) : Prop where
  top : g.Collected
  source : ∀ {n c d}, n ∈ g.pins ++ g.pinNodes → c ∈ g.connsOf n → g.isInput c = true →
    d ∈ g.refsOf c → g.isSource d = true

theorem Sound.checked (hg : g.Sound) (htop : g.Collected) : g.Checked where
  top := htop
  source _ _ hi hd := by
    have hout := hg.output_of_sink hd (isSink_of_isInput hi)
    rw [isOutput, beq_iff_eq] at hout
    rw [isSource, hout]
    rfl

theorem Checked.expand (hg : g.Checked) (h : g.expand limit = .ok q) : q.2.Checked := by
  refine expand_invariant ?_ hg h
  intro pn s s1 s' _ _ _ _ htop hcheck
  exact ⟨collected_rebuildTop htop, fun hn hc =>
    isSource_of_checkAll hcheck (List.mem_append_left _ hn) hc⟩

end PldSynth.Network
