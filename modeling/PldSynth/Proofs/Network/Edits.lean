import PldSynth.Proofs.Network.Views

/-!
# The records after each edit

For every small edit of a network: the record of each node and of each connection afterwards, and
the three lists. Nothing else is said about an edit anywhere, so that later modules never unfold one.
-/

namespace PldSynth.Network

variable {g g' : Network} {n m : NodeId} {c d x : ConnId}

/-! ## Changing one record -/

section Modify

variable (f : Node → Node) (f' : Conn → Conn)

@[simp] theorem node?_modifyNode :
    (g.modifyNode n f).node? m = if m = n then (g.node? m).map f else g.node? m := by
  unfold modifyNode node?
  by_cases h : m = n
  · subst h; simp
  · have h' : m.index ≠ n.index := fun e => h (NodeId.ext_index.mpr e)
    simp [h, Arena.get?_modify_of_ne _ f h']

@[simp] theorem conn?_modifyNode : (g.modifyNode n f).conn? c = g.conn? c := rfl

@[simp] theorem node?_modifyConn : (g.modifyConn c f').node? n = g.node? n := rfl

@[simp] theorem conn?_modifyConn :
    (g.modifyConn c f').conn? d = if d = c then (g.conn? d).map f' else g.conn? d := by
  unfold modifyConn conn?
  by_cases h : d = c
  · subst h; simp
  · have h' : d.index ≠ c.index := fun e => h (ConnId.ext_index.mpr e)
    simp [h, Arena.get?_modify_of_ne _ f' h']

@[simp] theorem cells_modifyNode : (g.modifyNode n f).cells = g.cells := rfl
@[simp] theorem pins_modifyNode : (g.modifyNode n f).pins = g.pins := rfl
@[simp] theorem pinNodes_modifyNode : (g.modifyNode n f).pinNodes = g.pinNodes := rfl
@[simp] theorem cells_modifyConn : (g.modifyConn c f').cells = g.cells := rfl
@[simp] theorem pins_modifyConn : (g.modifyConn c f').pins = g.pins := rfl
@[simp] theorem pinNodes_modifyConn : (g.modifyConn c f').pinNodes = g.pinNodes := rfl

end Modify

/-! ## Handing out new handles -/

/-- The next connection handle. -/
def nextConn (g : Network) : ConnId := ⟨g.conns.size⟩

/-- The next node handle. -/
def nextNode (g : Network) : NodeId := ⟨g.nodes.size⟩

@[simp] theorem conn?_nextConn : g.conn? g.nextConn = none := conn?_eq_none (Nat.le_refl _)

@[simp] theorem node?_nextNode : g.node? g.nextNode = none := node?_eq_none (Nat.le_refl _)

section New

variable (s : String) (dir : Direction) (k : NodeKind)

@[simp] theorem fst_attach : (g.attach n s dir).1 = g.nextConn := rfl

@[simp] theorem conn?_attach : (g.attach n s dir).2.conn? c =
      if c = g.nextConn then some { owner := n, direction := dir, name := s } else g.conn? c := by
  by_cases h : c = g.nextConn
  · subst h
    simp only [if_pos, attach, conn?_modifyNode]
    exact Arena.get?_alloc_size _ _
  · have h' : c.index ≠ g.conns.size := fun e => h (ConnId.ext_index.mpr e)
    simp only [if_neg h, attach, conn?_modifyNode]
    exact Arena.get?_alloc_of_ne _ _ h'

@[simp] theorem node?_attach : (g.attach n s dir).2.node? m =
      if m = n then (g.node? m).map fun y => { y with conns := y.conns ++ [g.nextConn] }
      else g.node? m := by
  simp only [attach, node?_modifyNode]
  rfl

@[simp] theorem node?_addNode : (g.addNode s k).2.node? m =
      if m = g.nextNode then some { name := s, kind := k } else g.node? m := by
  by_cases h : m = g.nextNode
  · subst h
    simp only [if_pos, addNode]
    exact Arena.get?_alloc_size _ _
  · have h' : m.index ≠ g.nodes.size := fun e => h (NodeId.ext_index.mpr e)
    simp only [if_neg h, addNode]
    exact Arena.get?_alloc_of_ne _ _ h'

@[simp] theorem fst_addPin : (g.addPin s).1 = g.nextNode := rfl
@[simp] theorem node?_addPin :
    (g.addPin s).2.node? m = if m = g.nextNode then some { name := s, kind := .pin } else g.node? m :=
  node?_addNode s .pin
@[simp] theorem cells_addPin : (g.addPin s).2.cells = g.cells := rfl
@[simp] theorem pins_addPin : (g.addPin s).2.pins = g.pins ++ [g.nextNode] := rfl
@[simp] theorem pinNodes_addPin : (g.addPin s).2.pinNodes = g.pinNodes := rfl

@[simp] theorem node?_addPinNode : (g.addPinNode s).2.node? m =
      if m = g.nextNode then some { name := s, kind := .pinNode } else g.node? m :=
  node?_addNode s .pinNode

@[simp] theorem node?_addCell : (g.addCell s k).2.node? m =
      if m = g.nextNode then some { name := s, kind := k } else g.node? m :=
  node?_addNode s k
@[simp] theorem cells_addCell : (g.addCell s k).2.cells = g.cells ++ [g.nextNode] := rfl
@[simp] theorem pins_addCell : (g.addCell s k).2.pins = g.pins := rfl
@[simp] theorem pinNodes_addCell : (g.addCell s k).2.pinNodes = g.pinNodes := rfl

end New

/-! ## Edits without new handles -/

/-- A change of the lists of connections, of the owners and of the wires, under which some nodes may
leave the lists. -/
structure Edit where
  conns : NodeId → List ConnId → List ConnId := fun _ l => l
  owner : ConnId → NodeId → NodeId := fun _ n => n
  refs : ConnId → List ConnId → List ConnId := fun _ l => l
  keep : NodeId → Bool := fun _ => true

namespace Edit

/-- `g'` is `g` after the edit. -/
structure Applies (e : Edit) (g g' : Network) : Prop where
  node? : ∀ n, g'.node? n = (g.node? n).map fun y => { y with conns := e.conns n y.conns }
  conn? : ∀ x, g'.conn? x = (g.conn? x).map fun y =>
    { y with owner := e.owner x y.owner, refs := e.refs x y.refs }
  cells : g'.cells = g.cells.filter e.keep
  pins : g'.pins = g.pins.filter e.keep
  pinNodes : g'.pinNodes = g.pinNodes.filter e.keep
  names : g'.pinNodeNames = g.pinNodeNames

/-- One edit after another. -/
def andThen (e e' : Edit) : Edit where
  conns n l := e'.conns n (e.conns n l)
  owner x n := e'.owner x (e.owner x n)
  refs x l := e'.refs x (e.refs x l)
  keep n := e.keep n && e'.keep n

namespace Applies

variable {e e' : Edit} {g'' : Network}

theorem refl (g : Network) : Applies {} g g where
  node? _ := by simp
  conn? _ := by simp
  cells := by simp
  pins := by simp
  pinNodes := by simp
  names := rfl

variable (h : e.Applies g g')
include h

theorem trans (h' : e'.Applies g' g'') : (e.andThen e').Applies g g'' where
  node? n := by simp [h'.node? n, h.node? n, andThen, Function.comp_def]
  conn? x := by simp [h'.conn? x, h.conn? x, andThen, Function.comp_def]
  cells := by simp [h'.cells, h.cells, andThen, List.filter_filter, Bool.and_comm]
  pins := by simp [h'.pins, h.pins, andThen, List.filter_filter, Bool.and_comm]
  pinNodes := by simp [h'.pinNodes, h.pinNodes, andThen, List.filter_filter, Bool.and_comm]
  names := h'.names.trans h.names

/-- Only what an edit does to the records that are there matters. -/
theorem congr (hconns : ∀ n y, g.node? n = some y → e.conns n y.conns = e'.conns n y.conns)
    (howner : ∀ x y, g.conn? x = some y → e.owner x y.owner = e'.owner x y.owner)
    (hrefs : ∀ x y, g.conn? x = some y → e.refs x y.refs = e'.refs x y.refs)
    (hkeep : ∀ n, e.keep n = e'.keep n) : e'.Applies g g' where
  node? n := by
    rw [h.node? n]
    cases hn : g.node? n with
    | none => rfl
    | some y => simp [hconns n y hn]
  conn? x := by
    rw [h.conn? x]
    cases hx : g.conn? x with
    | none => rfl
    | some y => simp [howner x y hx, hrefs x y hx]
  cells := by rw [h.cells, funext hkeep]
  pins := by rw [h.pins, funext hkeep]
  pinNodes := by rw [h.pinNodes, funext hkeep]
  names := h.names

theorem node?_isSome : (g'.node? n).isSome = (g.node? n).isSome := by
  simp [h.node? n]

theorem conn?_isSome : (g'.conn? x).isSome = (g.conn? x).isSome := by
  simp [h.conn? x]

theorem connsOf (hn : (g.node? n).isSome ∨ e.conns n [] = []) :
    g'.connsOf n = e.conns n (g.connsOf n) := by
  rw [connsOf_def, connsOf_def, h.node? n]
  cases hy : g.node? n with
  | none =>
    have := hn.resolve_left (by simp [hy])
    simp [this]
  | some y => simp

theorem refsOf (hx : (g.conn? x).isSome ∨ e.refs x [] = []) : g'.refsOf x = e.refs x (g.refsOf x) := by
  rw [refsOf_def, refsOf_def, h.conn? x]
  cases hy : g.conn? x with
  | none =>
    have := hx.resolve_left (by simp [hy])
    simp [this]
  | some y => simp

theorem ownerOf? : g'.ownerOf? x = (g.ownerOf? x).map (e.owner x) := by
  simp [ownerOf?_def, h.conn? x, Function.comp_def]

theorem directionOf? : g'.directionOf? x = g.directionOf? x := by
  simp [directionOf?_def, h.conn? x, Function.comp_def]

theorem connNameOf? : g'.connNameOf? x = g.connNameOf? x := by
  simp [Network.connNameOf?, h.conn? x, Function.comp_def]

theorem kindOf? : g'.kindOf? n = g.kindOf? n := by
  simp [kindOf?_def, h.node? n, Function.comp_def]

theorem absorbedOf : g'.absorbedOf n = g.absorbedOf n := by
  simp [Network.absorbedOf, h.node? n, Function.comp_def]

theorem nodeNameOf? : g'.nodeNameOf? n = g.nodeNameOf? n := by
  simp [Network.nodeNameOf?, h.node? n, Function.comp_def]

theorem constantOf? : g'.constantOf? n = g.constantOf? n := by
  rw [Network.constantOf?, h.node? n, Network.constantOf?]
  cases g.node? n <;> rfl

end Applies

end Edit

/-! ## Edits of wires alone -/

/-- `g'` is `g` with the wires of every connection changed by `f`. -/
abbrev Rewires (f : ConnId → List ConnId → List ConnId) (g g' : Network) : Prop :=
  Edit.Applies { refs := f } g g'

namespace Rewires

variable {f f' : ConnId → List ConnId → List ConnId} {g'' : Network}

variable (h : Rewires f g g')
include h

theorem trans (h' : Rewires f' g' g'') : Rewires (fun x l => f' x (f x l)) g g'' :=
  Edit.Applies.trans h h'

theorem congr (hf : ∀ x y, g.conn? x = some y → f x y.refs = f' x y.refs) : Rewires f' g g' :=
  Edit.Applies.congr h (fun _ _ _ => rfl) (fun _ _ _ => rfl) hf (fun _ => rfl)

theorem connsOf : g'.connsOf n = g.connsOf n :=
  Edit.Applies.connsOf h (.inr rfl)

theorem refsOf (hx : (g.conn? x).isSome ∨ f x [] = []) : g'.refsOf x = f x (g.refsOf x) :=
  Edit.Applies.refsOf h hx

theorem ownerOf? : g'.ownerOf? x = g.ownerOf? x := by
  rw [Edit.Applies.ownerOf? h, Option.map_id']

theorem cells : g'.cells = g.cells := by
  simpa using Edit.Applies.cells h

theorem pins : g'.pins = g.pins := by
  simpa using Edit.Applies.pins h

theorem pinNodes : g'.pinNodes = g.pinNodes := by
  simpa using Edit.Applies.pinNodes h

end Rewires

theorem rewires_modifyConn (f : List ConnId → List ConnId) :
    Rewires (fun x l => if x = c then f l else l) g
      (g.modifyConn c fun y => { y with refs := f y.refs }) where
  node? _ := by simp
  conn? x := by
    by_cases hx : x = c <;> simp [hx]
  cells := by simp
  pins := by simp
  pinNodes := by simp
  names := rfl

theorem rewires_setRefs (l : List ConnId) :
    Rewires (fun x l' => if x = c then l else l') g (g.setRefs c l) :=
  rewires_modifyConn fun _ => l

theorem rewires_note :
    Rewires (fun x l => if x = c then l ++ [d] else l) g (g.modifyConn c fun y => y.note d) :=
  rewires_modifyConn fun l => l ++ [d]

theorem rewires_forget : Rewires (fun x l => if x = c then l.filter (· ≠ d) else l) g
      (g.modifyConn c fun y => y.forget d) :=
  rewires_modifyConn fun l => l.filter (· ≠ d)

theorem rewires_wire (h : c ≠ d) :
    Rewires (fun x l => if x = c then l ++ [d] else if x = d then l ++ [c] else l) g
      (g.wire c d) := by
  apply (rewires_note.trans rewires_note).congr
  intro x y _
  by_cases hc : x = c
  · subst hc
    simp [h]
  · simp [hc]

theorem rewires_cut (h : c ≠ d) :
    Rewires (fun x l => if x = c then l.filter (· ≠ d) else if x = d then l.filter (· ≠ c) else l) g
      (g.cut c d) := by
  apply (rewires_forget.trans rewires_forget).congr
  intro x y _
  by_cases hc : x = c
  · subst hc
    simp [h]
  · simp [hc]

theorem rewires_foldl_forget (l : List ConnId) :
    Rewires (fun x l' => if x ∈ l then l'.filter (· ≠ c) else l') g
      (l.foldl (fun g r => g.modifyConn r fun y => y.forget c) g) := by
  induction l generalizing g with
  | nil => simpa using Edit.Applies.refl g
  | cons r l ih =>
    apply ((rewires_forget).trans ih).congr
    intro x y _
    by_cases hr : x = r
    · simp [hr]
    · simp [hr]

end PldSynth.Network
