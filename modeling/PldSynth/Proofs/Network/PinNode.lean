import PldSynth.Proofs.Network.Growth

/-!
# Putting a pin node into a wire

`putPinNode` takes the wires of an output away on its own side first and repairs the other ends one
consumer at a time. Its result is given here in full for networks whose wires are in order
(`PutsPinNode`): no wire is lost, doubled or touched beyond what that statement says, and the network
stays in order.
-/

namespace PldSynth.Network

open Attempt

variable {g g' : Network} {n m t : NodeId} {c d x o out : ConnId} {r : NodeId × Network}

/-! ## The loop over the consumers -/

/-- Handing one consumer over, by what it does to the wires. -/
theorem rewires_handOver (hne : c ≠ out) (h : handOver out g c = .ok g') :
    Rewires (fun x l => if x = out then l ++ [c] else if x = c then [out] else l) g g' := by
  simp only [handOver, bind_eq_ok, conn_eq_ok] at h
  obtain ⟨y, -, h⟩ := h
  split at h
  · rw [pure_eq_ok] at h
    subst h
    apply ((rewires_setRefs [out]).trans rewires_note).congr
    intro x y _
    by_cases hx : x = out
    · subst hx
      simp [hne.symm]
    · simp [hx]
  · exact absurd h bind_throw_ne_ok

/-- Handing over several consumers, one after the other. -/
theorem rewires_foldlM_handOver {l : List ConnId} (hne : out ∉ l)
    (h : l.foldlM (handOver out) g = .ok g') :
    Rewires (fun x l' => if x = out then l' ++ l else if x ∈ l then [out] else l') g g' := by
  induction l generalizing g with
  | nil =>
    rw [foldlM_nil_eq_ok] at h
    subst h
    simpa using Edit.Applies.refl g
  | cons c l ih =>
    obtain ⟨g1, h1, hrest⟩ := foldlM_cons_eq_ok.mp h
    rw [List.mem_cons, not_or] at hne
    apply ((rewires_handOver (Ne.symm hne.1) h1).trans (ih hne.2 hrest)).congr
    intro x y _
    by_cases hx : x = out
    · simp [hx]
    · by_cases hl : x ∈ l <;> simp [hx, hl]

/-- The output of a pin node that is put in next. -/
def putOut (g : Network) : ConnId := g.nextConn

/-- The input of a pin node that is put in next. -/
def putIn (g : Network) : ConnId := ⟨g.conns.size + 1⟩

/-- The network with one more pin node, which has an output and an input and no wires, and with `k`
names made up. -/
def withPinNode (g : Network) (s : String) (k : Nat) : Network :=
  { (((g.addPinNode s).2.attach g.nextNode pinNodeOutput .output).2.attach g.nextNode pinNodeInput
    .input).2 with pinNodeNames := k }

theorem putOut_ne_putIn : g.putOut ≠ g.putIn := by
  intro h
  have := ConnId.ext_index.mp h
  simp [putOut, putIn, nextConn] at this

theorem conn?_putOut : g.conn? g.putOut = none := conn?_nextConn

theorem conn?_putIn : g.conn? g.putIn = none := conn?_eq_none (Nat.le_succ _)

/-- Handles that were handed out are not those of the next pin node. -/
theorem ne_put (h : (g.conn? x).isSome) : x ≠ g.putOut ∧ x ≠ g.putIn := by
  constructor <;> rintro rfl
  · simp [conn?_putOut] at h
  · simp [conn?_putIn] at h

theorem nextConn_attach (s : String) (dir : Direction) : (g.attach n s dir).2.nextConn = g.putIn := by
  simp [nextConn, putIn, attach, modifyNode, Arena.alloc, Arena.size]

theorem node?_withPinNode (s : String) (k : Nat) : (g.withPinNode s k).node? m =
      if m = g.nextNode then
        some { name := s, kind := .pinNode, conns := [g.putOut, g.putIn] }
      else g.node? m := by
  have hin : ((g.addPinNode s).2.attach g.nextNode pinNodeOutput .output).2.nextConn = g.putIn :=
    nextConn_attach _ _
  change (((g.addPinNode s).2.attach _ _ _).2.attach _ _ _).2.node? m = _
  rw [node?_attach, node?_attach, node?_addPinNode, hin]
  split
  · rfl
  · rfl

/-- The new pin node has two connections. -/
theorem conn?_withPinNode (s : String) (k : Nat) : (g.withPinNode s k).conn? x =
      if x = g.putOut then
        some { owner := g.nextNode, direction := .output, name := pinNodeOutput }
      else if x = g.putIn then
        some { owner := g.nextNode, direction := .input, name := pinNodeInput }
      else g.conn? x := by
  have hin : ((g.addPinNode s).2.attach g.nextNode pinNodeOutput .output).2.nextConn = g.putIn :=
    nextConn_attach _ _
  change (((g.addPinNode s).2.attach _ _ _).2.attach _ _ _).2.conn? x = _
  rw [conn?_attach, conn?_attach, hin]
  by_cases hx : x = g.putIn
  · rw [if_pos hx, if_neg, if_pos hx]
    exact fun e => putOut_ne_putIn (e.symm.trans hx)
  · rw [if_neg hx, if_neg hx]
    rfl

/-- `g'` is `g` with a new pin node between the output `o`, which belongs to `source`, and all of its
consumers. -/
structure PutsPinNode (o : ConnId) (source : Node) (g g' : Network) : Prop where
  node? : ∀ m, g'.node? m =
    if m = g.nextNode then
      some { name := (g.pinNodeNameFor source).1, kind := .pinNode, conns := [g.putOut, g.putIn] }
    else g.node? m
  conn? : ∀ x, g'.conn? x =
    if x = g.putOut then
      some { owner := g.nextNode, direction := .output, name := pinNodeOutput, refs := g.refsOf o }
    else if x = g.putIn then
      some { owner := g.nextNode, direction := .input, name := pinNodeInput, refs := [o] }
    else (g.conn? x).map fun y =>
      { y with refs := if x = o then [g.putIn] else if x ∈ g.refsOf o then [g.putOut] else y.refs }
  cells : g'.cells = g.cells
  pins : g'.pins = g.pins
  pinNodes : g'.pinNodes = g.pinNodes ++ [g.nextNode]
  names : g'.pinNodeNames = (g.pinNodeNameFor source).2.pinNodeNames

/-- Making up a name changes nothing but the count of names. -/
theorem pinNodeNameFor_eq (source : Node) : (g.pinNodeNameFor source).2 =
      { g with pinNodeNames := (g.pinNodeNameFor source).2.pinNodeNames } := by
  unfold pinNodeNameFor
  split <;> rfl

/-- Handing the consumers of an output over to the new pin node and wiring its input. -/
theorem PutsPinNode.of_run {source : Node} {g1 : Network} {y : Conn}
    (hcons : ∀ e ∈ g.refsOf o, (g.conn? e).isSome ∧ e ≠ o) (hy : g.conn? o = some y) (hc : c = g.putIn)
    (h : y.refs.foldlM (handOver g.putOut)
      ((g.withPinNode (g.pinNodeNameFor source).1 (g.pinNodeNameFor source).2.pinNodeNames).setRefs
        o []) = .ok g1) : PutsPinNode o source g (g1.wire c o) := by
  subst hc
  have hrefs : g.refsOf o = y.refs := refsOf_of_conn? hy
  have ho : o ≠ g.putOut ∧ o ≠ g.putIn := ne_put (by simp [hy])
  have hout : g.putOut ∉ y.refs := fun hm => (ne_put (hcons _ (hrefs ▸ hm)).1).1 rfl
  have hin : g.putIn ∉ y.refs := fun hm => (ne_put (hcons _ (hrefs ▸ hm)).1).2 rfl
  have hself : o ∉ y.refs := fun hm => (hcons o (hrefs ▸ hm)).2 rfl
  -- all that happens after the pin node was added is a change of wires
  have hr := ((rewires_setRefs []).trans (rewires_foldlM_handOver hout h)).trans
    (rewires_wire ho.2.symm)
  refine ⟨fun m => ?_, fun x => ?_, ?_, ?_, ?_, hr.names⟩
  · rw [hr.node?, node?_withPinNode]
    simp only [Option.map_id']
  · rw [hr.conn?, conn?_withPinNode, hrefs]
    by_cases hx : x = g.putOut
    · subst hx
      simp [ho.1.symm, putOut_ne_putIn]
    · by_cases hx' : x = g.putIn
      · subst hx'
        simp [ho.2.symm, hin, hx]
      · by_cases hxo : x = o
        · simp [hxo, ho.1, ho.2, hself]
        · simp [hx, hx', hxo]
  · exact hr.cells
  · exact hr.pins
  · exact hr.pinNodes

/-- What putting in a pin node does, if the consumers can be looked up. -/
theorem puts_putPinNode_of_consumers
    (hcons : ∀ e ∈ g.refsOf o, (g.conn? e).isSome ∧ e ≠ o) (h : g.putPinNode o = .ok r) :
    ∃ n source, g.ownerOf? o = some n ∧ g.node? n = some source ∧ r.1 = g.nextNode ∧
      PutsPinNode o source g r.2 := by
  simp only [putPinNode, bind_eq_ok] at h
  obtain ⟨y, hy, h⟩ := h
  split at h
  · simp only [bind_eq_ok, pure_eq_ok] at h
    obtain ⟨source, hs, g1, h1, rfl⟩ := h
    rw [conn_eq_ok] at hy
    rw [node_eq_ok] at hs
    refine ⟨y.owner, source, by simp [ownerOf?_def, hy], hs, ?_, ?_⟩
    · rw [pinNodeNameFor_eq]
      rfl
    · rw [pinNodeNameFor_eq] at h1 ⊢
      exact .of_run hcons hy (nextConn_attach _ _) h1
  · exact absurd h bind_throw_ne_ok

theorem puts_putPinNode (hg : g.Wired) (h : g.putPinNode o = .ok r) :
    ∃ n source, g.ownerOf? o = some n ∧ g.node? n = some source ∧ r.1 = g.nextNode ∧
      PutsPinNode o source g r.2 :=
  puts_putPinNode_of_consumers (fun _ he => ⟨hg.ref_isSome he, (hg.ne_of_mem he).symm⟩) h

namespace PutsPinNode

variable {source : Node}

variable (h : PutsPinNode o source g g')
include h

theorem kindOf? : g'.kindOf? m = if m = g.nextNode then some .pinNode else g.kindOf? m := by
  rw [kindOf?_def, h.node?]
  split <;> rfl

theorem connsOf : g'.connsOf m = if m = g.nextNode then [g.putOut, g.putIn] else g.connsOf m := by
  rw [connsOf_def, h.node?]
  split <;> rfl

theorem absorbedOf : g'.absorbedOf m = g.absorbedOf m := by
  rw [Network.absorbedOf, h.node?]
  split
  · rename_i hm
    simp [Network.absorbedOf, hm, Absorbed.nothing]
  · rfl

theorem nodeNameOf? : g'.nodeNameOf? m =
      if m = g.nextNode then some (g.pinNodeNameFor source).1 else g.nodeNameOf? m := by
  rw [Network.nodeNameOf?, h.node?]
  split <;> rfl

theorem connNameOf? (hx : (g.conn? x).isSome) : g'.connNameOf? x = g.connNameOf? x := by
  have hne := ne_put hx
  rw [Network.connNameOf?, h.conn?, if_neg hne.1, if_neg hne.2, Network.connNameOf?]
  cases g.conn? x <;> rfl

theorem constantOf? : g'.constantOf? m = g.constantOf? m := by
  rw [Network.constantOf?, h.node?]
  split
  · rename_i hm
    simp [Network.constantOf?, hm]
  · rfl

theorem directionOf? : g'.directionOf? x =
      if x = g.putOut then some .output else if x = g.putIn then some .input
      else g.directionOf? x := by
  rw [directionOf?_def, h.conn?]
  split
  · rfl
  · split
    · rfl
    · simp [directionOf?_def, Function.comp_def]

theorem ownerOf? : g'.ownerOf? x =
      if x = g.putOut ∨ x = g.putIn then some g.nextNode else g.ownerOf? x := by
  rw [ownerOf?_def, h.conn?]
  by_cases hout : x = g.putOut
  · simp [hout]
  · by_cases hin : x = g.putIn
    · simp [hin, putOut_ne_putIn.symm]
    · simp [hout, hin, ownerOf?_def, Function.comp_def]

/-- The wires afterwards. -/
theorem refsOf (ho : (g.conn? o).isSome) (hg : g.Mirrored) : g'.refsOf x =
      if x = g.putOut then g.refsOf o else if x = g.putIn then [o]
      else if x = o then [g.putIn] else if x ∈ g.refsOf o then [g.putOut] else g.refsOf x := by
  rw [refsOf_def, h.conn?]
  split
  · rfl
  · split
    · rfl
    · cases hx : g.conn? x with
      | some y => simp [refsOf_of_conn? hx]
      | none =>
        have hxo : x ≠ o := by
          rintro rfl
          simp [hx] at ho
        have hmem : x ∉ g.refsOf o := by
          intro hm
          have := isSome_of_mem_refsOf (hg hm)
          simp [hx] at this
        have hnil : g.refsOf x = [] := by simp [refsOf_def, hx]
        simp [hxo, hmem, hnil]

theorem isSink :
    g'.isSink x = if x = g.putOut then false else if x = g.putIn then true else g.isSink x := by
  rw [Network.isSink, h.directionOf?]
  split
  · rfl
  · split <;> rfl

theorem isOutput :
    g'.isOutput x = if x = g.putOut then true else if x = g.putIn then false else g.isOutput x := by
  rw [Network.isOutput, h.directionOf?]
  split
  · rfl
  · split <;> rfl

/-- Connections and nodes still stand where they belong. -/
theorem owned (hg : g.Owned) : g'.Owned where
  owner {m x} hx := by
    rw [h.connsOf] at hx
    rw [h.ownerOf?]
    split at hx
    · simp_all
    · have hne := ne_put (hg.conn_isSome hx)
      rw [if_neg (by simp [hne])]
      exact hg.owner hx
  nodup_conns m := by
    rw [h.connsOf]
    split
    · simp [putOut_ne_putIn]
    · exact hg.nodup_conns m
  inUse {m x} hx := by
    rw [h.connsOf] at hx
    rw [InUse, h.cells, h.pins, h.pinNodes]
    split at hx
    · rename_i hm
      simp [hm]
    · rcases hg.inUse hx with hu | hu | hu | hu <;> simp [hu]
  design_kind := by
    rw [h.kindOf?, if_neg (ne_nextNode (isSome_of_kindOf? hg.design_kind))]
    exact hg.design_kind
  cell_kind hm := by
    rw [h.cells] at hm
    rw [h.kindOf?, if_neg (ne_nextNode (hg.cell_isSome hm))]
    exact hg.cell_kind hm
  pin_kind hm := by
    rw [h.pins] at hm
    rw [h.kindOf?, if_neg (ne_nextNode (isSome_of_kindOf? (hg.pin_kind hm)))]
    exact hg.pin_kind hm
  pinNode_kind {m} hm := by
    rw [h.pinNodes, List.mem_append, List.mem_singleton] at hm
    rw [h.kindOf?]
    split
    · rfl
    · rename_i hne
      exact hg.pinNode_kind (hm.resolve_right hne)
  nodup_cells := h.cells ▸ hg.nodup_cells
  nodup_pins := h.pins ▸ hg.nodup_pins
  nodup_pinNodes := by
    rw [h.pinNodes]
    apply nodup_append_nextNode hg.nodup_pinNodes
    intro m hm
    exact isSome_of_kindOf? (hg.pinNode_kind hm)

section Wires

variable (h : PutsPinNode o source g g') (hg : g.Sound) (ho : g.isOutput o)
include h hg ho

/-- What a connection that can be driven reads, if it was there before. -/
theorem refsOf_sink (hc : g.isSink c) :
    g'.refsOf c = if c ∈ g.refsOf o then [g.putOut] else g.refsOf c := by
  have hne := ne_put (isSome_of_isSink hc)
  rw [h.refsOf (isSome_of_isOutput ho) hg.mirror, if_neg hne.1, if_neg hne.2,
    if_neg (ne_of_isSink hc ho)]

/-- Any output but `o` keeps its consumers. -/
theorem refsOf_output (hx : g.isOutput x) (hxo : x ≠ o) : g'.refsOf x = g.refsOf x := by
  have hne := ne_put (isSome_of_isOutput hx)
  rw [h.refsOf (isSome_of_isOutput ho) hg.mirror, if_neg hne.1, if_neg hne.2, if_neg hxo,
    if_neg (hg.not_mem_refsOf ho hx)]

theorem refsOf_putOut : g'.refsOf g.putOut = g.refsOf o := by
  rw [h.refsOf (isSome_of_isOutput ho) hg.mirror, if_pos rfl]

theorem refsOf_putIn : g'.refsOf g.putIn = [o] := by
  rw [h.refsOf (isSome_of_isOutput ho) hg.mirror, if_neg putOut_ne_putIn.symm, if_pos rfl]

theorem refsOf_self : g'.refsOf o = [g.putIn] := by
  have hne := ne_put (isSome_of_isOutput ho)
  rw [h.refsOf (isSome_of_isOutput ho) hg.mirror, if_neg hne.1, if_neg hne.2, if_pos rfl]

omit hg ho in
theorem isOutput_old (hx : g.isOutput x) : g'.isOutput x := by
  have hne := ne_put (isSome_of_isOutput hx)
  rw [h.isOutput, if_neg hne.1, if_neg hne.2]
  exact hx

omit hg ho in
theorem isSink_old (hx : g.isSink x) : g'.isSink x := by
  have hne := ne_put (isSome_of_isSink hx)
  rw [h.isSink, if_neg hne.1, if_neg hne.2]
  exact hx

/-- Whatever drives a connection is an output and names it. -/
theorem driver (hc : g'.isSink c) (hd : d ∈ g'.refsOf c) :
    g'.isOutput d ∧ c ∈ g'.refsOf d ∧ g'.refsOf c = [d] := by
  rw [h.isSink] at hc
  split at hc
  · cases hc
  split at hc
  · rename_i hcin
    rw [hcin, h.refsOf_putIn hg ho] at hd ⊢
    obtain rfl := List.mem_singleton.mp hd
    exact ⟨h.isOutput_old ho, by simp [h.refsOf_self hg ho], rfl⟩
  rw [h.refsOf_sink hg ho hc] at hd ⊢
  by_cases hmem : c ∈ g.refsOf o
  · rw [if_pos hmem] at hd ⊢
    obtain rfl := List.mem_singleton.mp hd
    exact ⟨by simp [h.isOutput], by rwa [h.refsOf_putOut hg ho], rfl⟩
  · rw [if_neg hmem] at hd ⊢
    have hout := hg.output_of_sink hd hc
    have hdo : d ≠ o := by
      rintro rfl
      exact hmem (hg.mirror hd)
    refine ⟨h.isOutput_old hout, ?_, hg.refsOf_eq_singleton hc hd⟩
    rw [h.refsOf_output hg ho hout hdo]
    exact hg.mirror hd

/-- Whatever an output drives reads it and nothing else. -/
theorem consumers (hx : g'.isOutput x) :
    (g'.refsOf x).Nodup ∧ ∀ c ∈ g'.refsOf x, g'.isSink c ∧ g'.refsOf c = [x] := by
  rw [h.isOutput] at hx
  split at hx
  · -- the new output has the former consumers
    rename_i hxout
    rw [hxout, h.refsOf_putOut hg ho]
    refine ⟨hg.nodup_refs o, fun c hc => ?_⟩
    have hcs := hg.sink_of_output hc ho
    rw [h.refsOf_sink hg ho hcs, if_pos hc]
    exact ⟨h.isSink_old hcs, rfl⟩
  split at hx
  · cases hx
  by_cases hxo : x = o
  · rw [hxo, h.refsOf_self hg ho]
    refine ⟨List.nodup_singleton _, fun c hc => ?_⟩
    rw [List.mem_singleton.mp hc, h.refsOf_putIn hg ho]
    exact ⟨by simp [h.isSink, putOut_ne_putIn.symm], rfl⟩
  · rw [h.refsOf_output hg ho hx hxo]
    refine ⟨hg.nodup_refs x, fun c hc => ?_⟩
    have hcs := hg.sink_of_output hc hx
    have hcm : c ∉ g.refsOf o := fun hm => hxo (hg.eq_of_consumer ho hx hm hc)
    rw [h.refsOf_sink hg ho hcs, if_neg hcm]
    exact ⟨h.isSink_old hcs, hg.refsOf_consumer hx hc⟩

/-- What is wired still stands on a list. -/
theorem listed (hl : ∃ n, o ∈ g.connsOf n) (hd : d ∈ g'.refsOf c) : ∃ n, c ∈ g'.connsOf n := by
  simp only [h.connsOf]
  by_cases hput : c = g.putOut ∨ c = g.putIn
  · exact ⟨g.nextNode, by rcases hput with rfl | rfl <;> simp⟩
  -- any other connection had a wire or is `o` itself
  have hc : ∃ n, c ∈ g.connsOf n := by
    rw [not_or] at hput
    rw [h.refsOf (isSome_of_isOutput ho) hg.mirror, if_neg hput.1, if_neg hput.2] at hd
    split at hd
    · rename_i hco
      exact hco ▸ hl
    · split at hd
      · rename_i hm
        exact hg.listed (hg.mirror hm)
      · exact hg.listed hd
  obtain ⟨n, hn⟩ := hc
  exact ⟨n, by rwa [if_neg (ne_nextNode (isSome_of_mem_connsOf hn))]⟩

theorem sound (hl : ∃ n, o ∈ g.connsOf n) : g'.Sound where
  toOwned := h.owned hg.toOwned
  toWired := Wired.of_drivers (h.driver hg ho) (h.consumers hg ho) (h.listed hg ho hl)

end Wires

end PutsPinNode

end PldSynth.Network
