import PldSynth.Netlist.Draft
import PldSynth.Proofs.Network.Growth

/-!
# Drafts

While a design is drawn, handles are only added: a connection to the node at hand, a constant for a
literal, a cell (`Adds`). Every connection that can be driven is noted as a reader, and every wire
that is driven is driven by an output (`Draft.Valid`), so that drawing the wires at the end leaves
the network in order, with one wire to each reader.
-/

namespace PldSynth

open Attempt List

namespace Network

variable {g g' g'' : Network} {n m : NodeId} {c x : ConnId} {name : String} {e : String × Direction}

/-! ## The start -/

theorem node?_new :
    (new name).node? n = if n = designId then some { name, kind := .design } else none := by
  cases n with
  | mk i => cases i <;> simp [node?, new, Arena.get?, Arena.alloc, designId]

theorem connsOf_new : (new name).connsOf n = [] := by
  rw [connsOf_def, node?_new]
  split <;> rfl

theorem refsOf_new : (new name).refsOf c = [] := by
  simp [refsOf_def, conn?, new, Arena.get?]

/-- A new network is in order. -/
theorem sound_new (name : String) : (new name).Sound where
  owner hc := nomatch connsOf_new ▸ hc
  nodup_conns _ := connsOf_new ▸ nodup_nil
  inUse hc := nomatch connsOf_new ▸ hc
  design_kind := rfl
  cell_kind hn := nomatch hn
  pin_kind hn := nomatch hn
  pinNode_kind hn := nomatch hn
  nodup_cells := nodup_nil
  nodup_pins := nodup_nil
  nodup_pinNodes := nodup_nil
  mirror h := nomatch refsOf_new ▸ h
  nodup_refs _ := refsOf_new ▸ nodup_nil
  output_of_sink h := nomatch refsOf_new ▸ h
  sink_of_output h := nomatch refsOf_new ▸ h
  sole _ := refsOf_new ▸ Nat.zero_le 1
  listed h := nomatch refsOf_new ▸ h

/-! ## Constants -/

theorem node?_addConstant (value : Nat) : (g.addConstant value).2.node? m =
      if m = g.nextNode then
        some { name := "CONST" ++ toString g.constantNames, kind := .constant,
               constant := some value, conns := [g.nextConn] }
      else g.node? m := by
  by_cases h : m = g.nextNode
  · subst h
    rw [if_pos rfl]
    exact Arena.get?_alloc_size _ _
  · rw [if_neg h]
    exact Arena.get?_alloc_of_ne _ _ fun e => h (NodeId.ext_index.mpr e)

theorem conn?_addConstant (value : Nat) : (g.addConstant value).2.conn? x =
      if x = g.nextConn then some { owner := g.nextNode, direction := .output, name := "OUT" }
      else g.conn? x := by
  by_cases h : x = g.nextConn
  · subst h
    rw [if_pos rfl]
    exact Arena.get?_alloc_size _ _
  · rw [if_neg h]
    exact Arena.get?_alloc_of_ne _ _ fun e => h (ConnId.ext_index.mpr e)

theorem refsOf_addConstant (value : Nat) : (g.addConstant value).2.refsOf x = g.refsOf x := by
  rw [refsOf_def, conn?_addConstant]
  split
  · rename_i hx
    simp [hx, refsOf_nextConn]
  · rfl

theorem connsOf_addConstant (value : Nat) :
    (g.addConstant value).2.connsOf m = if m = g.nextNode then [g.nextConn] else g.connsOf m := by
  rw [connsOf_def, node?_addConstant]
  split <;> rfl

theorem kindOf?_addConstant (value : Nat) :
    (g.addConstant value).2.kindOf? m = if m = g.nextNode then some .constant else g.kindOf? m := by
  rw [kindOf?_def, node?_addConstant]
  split <;> rfl

/-- A constant is a cell with one output. -/
theorem Sound.addConstant (hg : g.Sound) (value : Nat) : (g.addConstant value).2.Sound := by
  let g1 := (g.addCell ("CONST" ++ toString g.constantNames) .constant).2
  have hsome : (g1.node? g.nextNode).isSome := by
    rw [node?_addCell, if_pos rfl]
    rfl
  have huse : g1.InUse g.nextNode := .inr (.inl (by simp [g1]))
  have hg2 := (hg.addCell ("CONST" ++ toString g.constantNames) rfl).attach "OUT"
    .output hsome huse
  -- the two edits and `addConstant` show the same
  have hgrow := grows_addCell (g := g) ("CONST" ++ toString g.constantNames) .constant
  have hconn : ∀ x, (g.addConstant value).2.conn? x =
      (g1.attach g.nextNode "OUT" .output).2.conn? x := by
    intro x
    rfl
  apply hg2.congr
  · intro m
    rw [kindOf?_addConstant, kindOf?_attach, hgrow.kindOf?]
  · intro m
    rw [connsOf_addConstant, connsOf_attach _ _ hsome, hgrow.connsOf]
    split
    · rename_i hm
      rw [hm, connsOf_nextNode]
      rfl
    · rw [append_nil]
  · intro x
    rw [directionOf?_def, directionOf?_def, hconn]
  · intro x
    rw [ownerOf?_def, ownerOf?_def, hconn]
  · intro x
    rw [refsOf_def, refsOf_def, hconn]
  · rfl
  · rfl
  · rfl

/-! ## Adding connections to one node -/

/-- The connection bears a name and faces a direction. -/
def Labelled (g : Network) (e : String × Direction) (c : ConnId) : Prop :=
  g.connNameOf? c = some e.1 ∧ g.directionOf? c = some e.2

/-- `g'` is `g` with new connections at the node `m`, labelled as `new` says, and with new
constants. -/
structure Adds (m : NodeId) (new : List (String × Direction)) (g g' : Network) : Prop where
  isSome : (g.node? m).isSome
  conn? : ∀ {c}, (g.conn? c).isSome → g'.conn? c = g.conn? c
  node? : ∀ {n}, n ≠ m → (g.node? n).isSome → g'.node? n = g.node? n
  kind : g'.kindOf? m = g.kindOf? m
  fresh : ∀ {n}, g.node? n = none → g'.node? n = none ∨ g'.kindOf? n = some .constant
  conns : ∃ l, g'.connsOf m = g.connsOf m ++ l ∧ List.Forall₂ g'.Labelled new l

theorem Labelled.congr (h : g'.conn? c = g.conn? c) : g'.Labelled e c ↔ g.Labelled e c := by
  rw [Labelled, Labelled, connNameOf?, connNameOf?, directionOf?_def, directionOf?_def, h]

theorem Labelled.isSome (h : g.Labelled e c) : (g.conn? c).isSome := by
  have := h.1
  rw [connNameOf?] at this
  cases hc : g.conn? c <;> simp_all

/-- New connections after new connections. -/
theorem Adds.trans {l l' : List (String × Direction)} (h : Adds m l g g') (h' : Adds m l' g' g'') :
    Adds m (l ++ l') g g'' where
  isSome := h.isSome
  conn? {c} hc := by
    have hc' : (g'.conn? c).isSome := by rwa [h.conn? hc]
    rw [h'.conn? hc', h.conn? hc]
  node? {n} hn hs := by
    have hs' : (g'.node? n).isSome := by rwa [h.node? hn hs]
    rw [h'.node? hn hs', h.node? hn hs]
  kind := h'.kind.trans h.kind
  fresh {n} hn := by
    have hnm : n ≠ m := by
      rintro rfl
      exact absurd h.isSome (by simp [hn])
    rcases h.fresh hn with hnone | hconst
    · exact h'.fresh hnone
    · right
      rw [kindOf?_def, h'.node? hnm (isSome_of_kindOf? hconst)]
      exact hconst
  conns := by
    obtain ⟨cs, hcs, hl⟩ := h.conns
    obtain ⟨cs', hcs', hl'⟩ := h'.conns
    refine ⟨cs ++ cs', by rw [hcs', hcs, append_assoc], ?_⟩
    apply rel_append
    · exact hl.imp fun e c he => (Labelled.congr (h'.conn? he.isSome)).mpr he
    · exact hl'

theorem Adds.refl (hm : (g.node? m).isSome) : Adds m [] g g :=
  ⟨hm, fun _ => rfl, fun _ _ => rfl, rfl, fun hn => .inl hn, [], by simp, .nil⟩

theorem adds_attach (s : String) (dir : Direction) (hm : (g.node? m).isSome) :
    Adds m [(s, dir)] g (g.attach m s dir).2 where
  isSome := hm
  conn? hc := by rw [conn?_attach, if_neg (ne_nextConn hc)]
  node? hn _ := by rw [node?_attach, if_neg hn]
  kind := kindOf?_attach s dir
  fresh {n} hn := by
    rw [node?_attach]
    split <;> simp [hn]
  conns := by
    refine ⟨[g.nextConn], by rw [connsOf_attach s dir hm, if_pos rfl], .cons ?_ .nil⟩
    rw [Labelled, connNameOf?, directionOf?_def, conn?_attach, if_pos rfl]
    exact ⟨rfl, rfl⟩

theorem adds_addConstant (value : Nat) (hm : (g.node? m).isSome) :
    Adds m [] g (g.addConstant value).2 where
  isSome := hm
  conn? hc := by rw [conn?_addConstant, if_neg (ne_nextConn hc)]
  node? _ hs := by rw [node?_addConstant, if_neg (ne_nextNode hs)]
  kind := by rw [kindOf?_addConstant, if_neg (ne_nextNode hm)]
  fresh {n} hn := by
    rw [node?_addConstant, kindOf?_addConstant]
    split
    · exact .inr rfl
    · exact .inl hn
  conns := ⟨[], by rw [connsOf_addConstant, if_neg (ne_nextNode hm), append_nil], .nil⟩

end Network

open Network

/-! ## Drafts in order -/

namespace Draft

variable {d d' : Draft} {n m : NodeId} {c : ConnId} {pending : List ConnId} {dir : Direction}
  {path : String} {k : NodeKind} {width : Nat} {root : String}

/-- All readers, in the order in which they are wired. -/
def readers (d : Draft) : List Reader :=
  d.cellReaders ++ d.portReaders

/-- A draft in order: no wire is drawn yet, and every connection that can be driven is noted as a
reader, except for those that are `pending`. -/
structure Valid (pending : List ConnId) (d : Draft) : Prop where
  sound : d.net.Sound
  unwired : ∀ c, d.net.refsOf c = []
  pins : d.net.pins = []
  pinNodes : d.net.pinNodes = []
  names : d.net.pinNodeNames = 0
  unmerged : ∀ n, d.net.absorbedOf n = .nothing
  constants : ∀ {n}, d.net.kindOf? n = some .constant →
    ∃ o, d.net.connsOf n = [o] ∧ d.net.directionOf? o = some .output
  nodup : (d.readers.map Reader.conn ++ pending).Nodup
  reader : ∀ {c}, c ∈ d.readers.map Reader.conn ++ pending →
    d.net.isSink c = true ∧ ∃ n, c ∈ d.net.connsOf n
  reads : ∀ {n c}, c ∈ d.net.connsOf n → d.net.isSink c = true →
    c ∈ d.readers.map Reader.conn ++ pending
  driver : ∀ {w o}, (w, o) ∈ d.drivers → d.net.isOutput o = true ∧ ∃ n, o ∈ d.net.connsOf n

theorem Valid.conn_isSome (h : d.Valid pending) (hc : c ∈ d.readers.map Reader.conn ++ pending) :
    (d.net.conn? c).isSome :=
  isSome_of_isSink (h.reader hc).1

theorem valid_new (name : String) : Valid [] { net := .new name } where
  sound := sound_new name
  unwired _ := refsOf_new
  pins := rfl
  pinNodes := rfl
  names := rfl
  unmerged n := by
    rw [absorbedOf, node?_new]
    split <;> rfl
  constants {n} hn := by
    rw [kindOf?_def, node?_new] at hn
    split at hn <;> cases hn
  nodup := nodup_nil
  reader hc := nomatch hc
  reads hc := nomatch connsOf_new ▸ hc
  driver h := nomatch h

/-- A new connection of a node that is not a constant; it is pending if it can be driven. -/
theorem Valid.attach (h : d.Valid []) (s : String) (dir : Direction) (hn : (d.net.node? n).isSome)
    (hu : d.net.InUse n) (hk : d.net.kindOf? n ≠ some .constant) :
    Valid (if dir.isInput then [d.net.nextConn] else [])
      { d with net := (d.net.attach n s dir).2 } := by
  have hdir : ∀ {c}, (d.net.conn? c).isSome →
      (d.net.attach n s dir).2.directionOf? c = d.net.directionOf? c := by
    intro c hc
    rw [directionOf?_attach, if_neg (ne_nextConn hc)]
  have hmem : ∀ {m c}, c ∈ d.net.connsOf m → c ∈ (d.net.attach n s dir).2.connsOf m := by
    intro m c hc
    rw [connsOf_attach s dir hn]
    exact mem_append_left _ hc
  have hnew : (d.net.attach n s dir).2.isSink d.net.nextConn = dir.isInput := by
    rw [isSink, directionOf?_attach, if_pos rfl, Option.any_some]
  have hold : ∀ {c}, c ∈ d.readers.map Reader.conn → c ∈ d.readers.map Reader.conn ++ [] := by
    simp
  refine ⟨h.sound.attach s dir hn hu, fun c => ?_, h.pins, h.pinNodes, h.names, fun m => ?_, ?_, ?_,
    ?_, ?_, ?_⟩
  · rw [refsOf_attach]
    exact h.unwired c
  · rw [absorbedOf_attach]
    exact h.unmerged m
  · intro m hm
    rw [kindOf?_attach] at hm
    have hmn : m ≠ n := fun e => hk (e ▸ hm)
    obtain ⟨o, ho, hdo⟩ := h.constants hm
    have hs := h.sound.conn_isSome (ho ▸ mem_singleton_self o)
    exact ⟨o, by simp [connsOf_attach s dir hn, hmn, ho], (hdir hs).trans hdo⟩
  · -- the new connection waits for its wire only if it can be driven
    change (d.readers.map Reader.conn ++ _).Nodup
    have hnd : (d.readers.map Reader.conn).Nodup := by simpa using h.nodup
    split
    · refine nodup_append.mpr ⟨hnd, nodup_singleton _, ?_⟩
      intro a ha b hb
      rw [mem_singleton.mp hb]
      exact ne_nextConn (h.conn_isSome (hold ha))
    · simpa using hnd
  · intro c hc
    rcases mem_append.mp hc with hc | hc
    · obtain ⟨hs, m, hm⟩ := h.reader (hold hc)
      exact ⟨(isSink_congr (hdir (isSome_of_isSink hs))).trans hs, m, hmem hm⟩
    · split at hc
      · rename_i hin
        obtain rfl := mem_singleton.mp hc
        exact ⟨hnew.trans hin, n, by simp [connsOf_attach s dir hn]⟩
      · cases hc
  · intro m c hc hs
    rw [connsOf_attach s dir hn, mem_append] at hc
    rcases hc with hc | hc
    · have hs' : d.net.isSink c :=
        (isSink_congr (hdir (h.sound.conn_isSome hc))).symm.trans hs
      have hr := h.reads hc hs'
      rw [append_nil] at hr
      exact mem_append_left _ hr
    · split at hc
      · obtain rfl := mem_singleton.mp hc
        rw [if_pos (hnew.symm.trans hs)]
        exact mem_append_right _ hc
      · cases hc
  · intro w o hw
    obtain ⟨ho, m, hm⟩ := h.driver hw
    exact ⟨(isOutput_congr (hdir (isSome_of_isOutput ho))).trans ho, m, hmem hm⟩

/-- A literal is a new constant, and the draft stays in order. -/
theorem Valid.addLiteral (h : d.Valid pending) (value : Nat) : (d.addLiteral value).2.Valid pending := by
  let net := (d.net.addConstant value).2
  have hdir : ∀ {c}, (d.net.conn? c).isSome → net.directionOf? c = d.net.directionOf? c := by
    intro c hc
    rw [directionOf?_def, conn?_addConstant, if_neg (ne_nextConn hc), directionOf?_def]
  have hmem : ∀ {m c}, c ∈ d.net.connsOf m → c ∈ net.connsOf m := by
    intro m c hc
    rwa [connsOf_addConstant, if_neg (ne_nextNode (isSome_of_mem_connsOf hc))]
  have hout : net.directionOf? d.net.nextConn = some .output := by
    rw [directionOf?_def, conn?_addConstant, if_pos rfl]
    rfl
  have hown : net.connsOf d.net.nextNode = [d.net.nextConn] := by
    rw [connsOf_addConstant, if_pos rfl]
  refine ⟨h.sound.addConstant value, fun c => ?_, h.pins, h.pinNodes, h.names, fun m => ?_, ?_,
    h.nodup, ?_, ?_, ?_⟩
  · exact (refsOf_addConstant value).trans (h.unwired c)
  · change net.absorbedOf m = _
    rw [absorbedOf, node?_addConstant]
    split
    · rfl
    · exact h.unmerged m
  · intro m hm
    change net.kindOf? m = _ at hm
    by_cases hmn : m = d.net.nextNode
    · exact ⟨_, hmn ▸ hown, hout⟩
    · rw [kindOf?_addConstant, if_neg hmn] at hm
      obtain ⟨o, ho, hdo⟩ := h.constants hm
      have hs := h.sound.conn_isSome (ho ▸ mem_singleton_self o)
      refine ⟨o, ?_, (hdir hs).trans hdo⟩
      change net.connsOf m = _
      rw [connsOf_addConstant, if_neg hmn, ho]
  · intro c hc
    obtain ⟨hs, m, hm⟩ := h.reader hc
    exact ⟨(isSink_congr (hdir (isSome_of_isSink hs))).trans hs, m, hmem hm⟩
  · intro m c hc hs
    change c ∈ net.connsOf m at hc
    rw [connsOf_addConstant] at hc
    split at hc
    · -- the output of the constant reads nothing
      obtain rfl := mem_singleton.mp hc
      change net.isSink d.net.nextConn = true at hs
      rw [isSink, hout] at hs
      cases hs
    · exact h.reads hc ((isSink_congr (hdir (h.sound.conn_isSome hc))).symm.trans hs)
  · intro w o hw
    rcases mem_cons.mp hw with hw | hw
    · obtain ⟨-, rfl⟩ := Prod.mk.inj hw
      refine ⟨?_, d.net.nextNode, ?_⟩
      · change net.isOutput d.net.nextConn = true
        rw [isOutput, hout]
        rfl
      · change d.net.nextConn ∈ net.connsOf d.net.nextNode
        rw [hown]
        exact mem_singleton_self _
    · obtain ⟨ho, m, hm⟩ := h.driver hw
      exact ⟨(isOutput_congr (hdir (isSome_of_isOutput ho))).trans ho, m, hmem hm⟩

theorem valid_wireOf {bit : Bit} {r : Int × Draft} (h : d.Valid pending) (hm : (d.net.node? m).isSome)
    (hrun : d.wireOf dir path bit = .ok r) : r.2.Valid pending ∧ Adds m [] d.net r.2.net := by
  cases bit with
  | wire id =>
    cases hrun
    exact ⟨h, .refl hm⟩
  | literal text =>
    simp only [wireOf] at hrun
    split at hrun
    · cases hrun
    · split at hrun <;> cases hrun
      rename_i value _
      exact ⟨h.addLiteral value, adds_addConstant value hm⟩

theorem valid_drive {w : Int} (h : d.Valid []) (hc : d.net.isOutput c) (hl : ∃ n, c ∈ d.net.connsOf n)
    (hrun : d.drive c w = .ok d') : d'.Valid [] ∧ d'.net = d.net := by
  unfold drive at hrun
  split at hrun
  · cases hrun
  · cases hrun
    refine ⟨⟨h.sound, h.unwired, h.pins, h.pinNodes, h.names, h.unmerged, h.constants, h.nodup,
      h.reader, h.reads, fun {w' o} hw => ?_⟩, rfl⟩
    rcases mem_cons.mp hw with hw | hw
    · obtain ⟨-, rfl⟩ := Prod.mk.inj hw
      exact ⟨hc, hl⟩
    · exact h.driver hw

@[simp] theorem net_read (side : Side) (r : Reader) : (d.read side r).net = d.net := by
  cases side <;> rfl

@[simp] theorem drivers_read (side : Side) (r : Reader) : (d.read side r).drivers = d.drivers := by
  cases side <;> rfl

@[simp] theorem literals_read (side : Side) (r : Reader) : (d.read side r).literals = d.literals := by
  cases side <;> rfl

theorem readers_read (d : Draft) (side : Side) (r : Reader) :
    ((d.read side r).readers).Perm (d.readers ++ [r]) := by
  cases side with
  | port => simp [Draft.read, readers, append_assoc]
  | cell =>
    simp only [Draft.read, readers, append_assoc]
    exact perm_append_comm.append_left d.cellReaders

/-- A connection that is noted as a reader is no longer pending. -/
theorem Valid.read {r : Reader} (side : Side) (h : d.Valid [r.conn]) : (d.read side r).Valid [] := by
  have hnet := net_read (d := d) side r
  have hperm : ((d.read side r).readers.map Reader.conn ++ []).Perm
      (d.readers.map Reader.conn ++ [r.conn]) := by
    simpa using (readers_read d side r).map Reader.conn
  refine ⟨hnet ▸ h.sound, ?_, hnet ▸ h.pins, hnet ▸ h.pinNodes, hnet ▸ h.names, ?_, ?_,
    hperm.nodup_iff.mpr h.nodup, ?_, ?_, ?_⟩
  · rw [hnet]
    exact h.unwired
  · rw [hnet]
    exact h.unmerged
  · rw [hnet]
    exact h.constants
  · intro c hc
    rw [hnet]
    exact h.reader (hperm.mem_iff.mp hc)
  · rw [hnet]
    exact fun hc hs => hperm.mem_iff.mpr (h.reads hc hs)
  · rw [hnet, drivers_read]
    exact h.driver

/-- A connection is bound to a bit: an output drives the wire, anything else reads it. -/
theorem valid_bind {side : Side} {bit : Bit} (h : d.Valid (if dir.isInput then [c] else []))
    (hc : d.net.directionOf? c = some dir) (hl : c ∈ d.net.connsOf m)
    (hrun : d.bind side c dir path bit = .ok d') : d'.Valid [] ∧ Adds m [] d.net d'.net := by
  simp only [Draft.bind, bind_eq_ok] at hrun
  obtain ⟨⟨w, d1⟩, hwire, hrun⟩ := hrun
  have hm := isSome_of_mem_connsOf hl
  obtain ⟨hv, hadd⟩ := valid_wireOf h hm hwire
  cases dir with
  | output =>
    have hout : d1.net.isOutput c := by
      rw [isOutput, directionOf?_def, hadd.conn? (h.sound.conn_isSome hl), ← directionOf?_def, hc]
      rfl
    obtain ⟨l, hconns, -⟩ := hadd.conns
    have hl' : c ∈ d1.net.connsOf m := hconns ▸ mem_append_left l hl
    obtain ⟨hv', hnet⟩ := valid_drive hv hout ⟨m, hl'⟩ hrun
    exact ⟨hv', hnet ▸ hadd⟩
  | input =>
    simp only [pure_eq_ok] at hrun
    subst hrun
    exact ⟨hv.read (r := ⟨c, w, path⟩) side, by cases side <;> exact hadd⟩
  | bidirectional =>
    simp only [pure_eq_ok] at hrun
    subst hrun
    exact ⟨hv.read (r := ⟨c, w, path⟩) side, by cases side <;> exact hadd⟩

theorem net_noteRegister {bit : Bit} : (d.noteRegister k n dir bit).net = d.net := by
  cases bit with
  | wire id =>
    simp only [noteRegister]
    split <;> rfl
  | literal text => rfl

theorem Valid.noteRegister {bit : Bit} (h : d.Valid pending) :
    (d.noteRegister k n dir bit).Valid pending := by
  cases bit with
  | wire id =>
    simp only [Draft.noteRegister]
    split
    · exact ⟨h.sound, h.unwired, h.pins, h.pinNodes, h.names, h.unmerged, h.constants, h.nodup,
        h.reader, h.reads, h.driver⟩
    · exact h
  | literal text => exact h

/-- One more connection of a node: drawn and bound. -/
theorem valid_connection {side : Side} {s path : String} {bit : Bit} (hn : (d.net.node? n).isSome)
    {d1 : Draft} (hnet : d1.net = (d.net.attach n s dir).2)
    (hd1 : d1.Valid (if dir.isInput then [d.net.nextConn] else []))
    (hrun : d1.bind side d.net.nextConn dir path bit = .ok d') :
    d'.Valid [] ∧ Adds n [(s, dir)] d.net d'.net := by
  have hadd := adds_attach s dir hn
  rw [← hnet] at hadd
  have hdir : d1.net.directionOf? d.net.nextConn = some dir := by
    rw [hnet, directionOf?_attach, if_pos rfl]
  have hl : d.net.nextConn ∈ d1.net.connsOf n := by
    rw [hnet, connsOf_attach s dir hn]
    simp
  obtain ⟨hv, hadd'⟩ := valid_bind hd1 hdir hl hrun
  exact ⟨hv, hadd.trans hadd'⟩

/-! ## Ports -/

/-- The bits of a port, by their names and their directions as seen from inside. -/
def portBits (port : String × Port) : List (String × Direction) :=
  match Direction.ofWord? port.2.direction with
  | none => []
  | some dir => (List.range port.2.bits.length).map fun i =>
      (bitName port.1 port.2.bits.length i, dir.flipped)

theorem design_inUse : d.net.InUse designId := .inl rfl

theorem Valid.design (h : d.Valid pending) :
    (d.net.node? designId).isSome ∧ d.net.kindOf? designId ≠ some .constant := by
  have hk := h.sound.design_kind
  exact ⟨isSome_of_kindOf? hk, by rw [hk]; nofun⟩

theorem valid_addPortBit {path name : String} {bit : Bit × Nat} (h : d.Valid [])
    (hrun : addPortBit path name width dir d bit = .ok d') :
    d'.Valid [] ∧ Adds designId [(bitName name width bit.2, dir)] d.net d'.net :=
  valid_connection h.design.1 rfl (h.attach _ dir h.design.1 design_inUse h.design.2)
    hrun

theorem valid_addPortBits {path name : String} {bits : List (Bit × Nat)} (h : d.Valid [])
    (hrun : bits.foldlM (addPortBit path name width dir) d = .ok d') :
    d'.Valid [] ∧ Adds designId (bits.map fun b => (bitName name width b.2, dir)) d.net d'.net := by
  induction bits generalizing d with
  | nil =>
    cases hrun
    exact ⟨h, .refl h.design.1⟩
  | cons b bits ih =>
    obtain ⟨d1, h1, hrest⟩ := foldlM_cons_eq_ok.mp hrun
    obtain ⟨hv1, hadd1⟩ := valid_addPortBit h h1
    obtain ⟨hv, hadd⟩ := ih hv1 hrest
    exact ⟨hv, hadd1.trans hadd⟩

theorem valid_addPort {port : String × Port} (h : d.Valid []) (hrun : addPort root d port = .ok d') :
    d'.Valid [] ∧ Adds designId (portBits port) d.net d'.net := by
  unfold addPort at hrun
  split at hrun
  · cases hrun
  · rename_i dir hdir
    have heq : portBits port = port.2.bits.zipIdx.map fun b =>
        (bitName port.1 port.2.bits.length b.2, dir.flipped) := by
      simp only [portBits, hdir]
      rw [range_eq_range', ← zipIdx_map_snd 0 port.2.bits, map_map]
      rfl
    rw [heq]
    exact valid_addPortBits h hrun

theorem valid_addPorts {ports : List (String × Port)} (h : d.Valid [])
    (hrun : ports.foldlM (addPort root) d = .ok d') :
    d'.Valid [] ∧ Adds designId (ports.flatMap portBits) d.net d'.net := by
  induction ports generalizing d with
  | nil =>
    cases hrun
    exact ⟨h, .refl h.design.1⟩
  | cons port ports ih =>
    obtain ⟨d1, h1, hrest⟩ := foldlM_cons_eq_ok.mp hrun
    obtain ⟨hv1, hadd1⟩ := valid_addPort h h1
    obtain ⟨hv, hadd⟩ := ih hv1 hrest
    exact ⟨hv, hadd1.trans hadd⟩

/-! ## Cells -/

/-- The port of a cell faces this direction. -/
def Faces (cell : Cell) (k : NodeKind) (port : String) (dir : Direction) : Prop :=
  ∃ path, cellPortDirection path cell k port = .ok dir

/-- The node stands for the cell as far as `ports` goes: it is of the kind `k`, and its connections
are those of the ports, in their order. -/
structure Drawn (cell : Cell) (k : NodeKind) (ports : List (String × List Bit)) (g : Network)
    (n : NodeId) : Prop where
  kind : g.kindOf? n = some k
  conns : List.Forall₂ (fun p c => ∃ dir, Faces cell k p.1 dir ∧
    g.Labelled (Library.portName k p.1, dir) c) ports (g.connsOf n)

theorem valid_addCellPort {cell : Cell} {port : String × List Bit} (h : d.Valid [])
    (hn : (d.net.node? n).isSome) (hu : d.net.InUse n) (hk : d.net.kindOf? n ≠ some .constant)
    (hrun : addCellPort path cell k n d port = .ok d') : d'.Valid [] ∧ ∃ dir, Faces cell k port.1 dir ∧
      Adds n [(Library.portName k port.1, dir)] d.net d'.net := by
  unfold addCellPort at hrun
  split at hrun
  · rw [bind_eq_ok] at hrun
    obtain ⟨dir, hdir, hrun⟩ := hrun
    obtain ⟨hv, hadd⟩ := valid_connection hn net_noteRegister
      (h.attach (Library.portName k port.1) dir hn hu hk).noteRegister hrun
    exact ⟨hv, dir, ⟨path, hdir⟩, hadd⟩
  · simp only [throw_eq_ok] at hrun

/-- One more port of the cell was drawn. -/
theorem Drawn.adds {cell : Cell} {ports : List (String × List Bit)} {g g' : Network}
    {port : String × List Bit} (h : Drawn cell k ports g n) (hf : Faces cell k port.1 dir)
    (hadd : Adds n [(Library.portName k port.1, dir)] g g') : Drawn cell k (ports ++ [port]) g' n := by
  obtain ⟨l, hconns, hl⟩ := hadd.conns
  refine ⟨hadd.kind.trans h.kind, ?_⟩
  rw [hconns]
  apply rel_append
  · apply h.conns.imp
    rintro p c ⟨dir', hf', hlab⟩
    exact ⟨dir', hf', (Labelled.congr (hadd.conn? hlab.isSome)).mpr hlab⟩
  · cases hl with
    | cons hc hnil =>
      cases hnil
      exact .cons ⟨dir, hf, hc⟩ .nil

/-- Drawing the ports of a cell. -/
theorem valid_addCellPorts {cell : Cell} {pre ports : List (String × List Bit)} (h : d.Valid [])
    (hu : d.net.InUse n) (hk : k ≠ .constant) (hdrawn : Drawn cell k pre d.net n)
    (hrun : ports.foldlM (addCellPort path cell k n) d = .ok d') :
    d'.Valid [] ∧ (∃ l, Adds n l d.net d'.net) ∧ Drawn cell k (pre ++ ports) d'.net n := by
  have hn := isSome_of_kindOf? hdrawn.kind
  induction ports generalizing d pre with
  | nil =>
    cases hrun
    rw [append_nil]
    exact ⟨h, ⟨[], .refl hn⟩, hdrawn⟩
  | cons port ports ih =>
    obtain ⟨d1, h1, hrest⟩ := foldlM_cons_eq_ok.mp hrun
    have hkn : d.net.kindOf? n ≠ some .constant := by
      rw [hdrawn.kind]
      exact fun e => hk (Option.some.inj e)
    obtain ⟨hv1, dir, hf, hadd1⟩ := valid_addCellPort h hn hu hkn h1
    have hdrawn1 := hdrawn.adds hf hadd1
    have hu1 : d1.net.InUse n := by
      obtain ⟨l, hconns, hl⟩ := hadd1.conns
      cases hl with
      | cons hc _ =>
        apply hv1.sound.inUse
        rw [hconns]
        exact mem_append_right _ mem_cons_self
    obtain ⟨hv, ⟨l, hadd⟩, hd⟩ := ih hv1 hu1 hdrawn1 hrest (isSome_of_kindOf? hdrawn1.kind)
    refine ⟨hv, ⟨_, hadd1.trans hadd⟩, ?_⟩
    simpa using hd

theorem isCell_of_kindOfType? {type : String} (h : Library.kindOfType? type = some k) :
    k.isCell ∧ k ≠ .constant := by
  unfold Library.kindOfType? at h
  split at h <;> cases h <;> exact ⟨rfl, nofun⟩

/-- A new cell leaves the draft in order. -/
theorem Valid.addCell (h : d.Valid []) (s : String) (hk : k.isCell) (hc : k ≠ .constant) :
    Valid [] { d with net := (d.net.addCell s k).2 } := by
  have hgrow := grows_addCell (g := d.net) s k
  refine ⟨h.sound.addCell s hk, fun c => ?_, h.pins, h.pinNodes, h.names, fun m => ?_, ?_, h.nodup,
    ?_, ?_, ?_⟩
  · exact h.unwired c
  · exact hgrow.absorbedOf.trans (h.unmerged m)
  · intro m hm
    rw [hgrow.kindOf?] at hm
    split at hm
    · exact absurd (Option.some.inj hm) hc
    · obtain ⟨o, ho, hdo⟩ := h.constants hm
      exact ⟨o, hgrow.connsOf.trans ho, hdo⟩
  · intro c hr
    obtain ⟨hs, m, hm⟩ := h.reader hr
    exact ⟨hs, m, hgrow.connsOf ▸ hm⟩
  · intro m c hm hs
    exact h.reads (hgrow.connsOf ▸ hm) hs
  · intro w o hw
    obtain ⟨ho, m, hm⟩ := h.driver hw
    exact ⟨ho, m, hgrow.connsOf ▸ hm⟩

/-- Drawing a cell leaves all older records as they are; what is new besides its node is
constants. -/
theorem valid_addCell {cell : String × Cell} (h : d.Valid []) (hrun : addCell root d cell = .ok d') :
    d'.Valid [] ∧
      (∀ {c}, (d.net.conn? c).isSome → d'.net.conn? c = d.net.conn? c) ∧
      (∀ {n}, (d.net.node? n).isSome → d'.net.node? n = d.net.node? n) ∧
      ∃ k, Library.kindOfType? cell.2.type = some k ∧
        Drawn cell.2 k cell.2.connections.entries d'.net d.net.nextNode ∧
        ∀ {n}, d.net.node? n = none → n ≠ d.net.nextNode →
          d'.net.node? n = none ∨ d'.net.kindOf? n = some .constant := by
  unfold addCell at hrun
  split at hrun
  · cases hrun
  · rename_i k hk
    obtain ⟨hcell, hconst⟩ := isCell_of_kindOfType? hk
    have hgrow := grows_addCell (g := d.net) cell.1 k
    have hv1 := h.addCell cell.1 hcell hconst
    have hu : (d.net.addCell cell.1 k).2.InUse d.net.nextNode := .inr (.inl (by simp))
    have hdrawn : Drawn cell.2 k [] (d.net.addCell cell.1 k).2 d.net.nextNode := by
      refine ⟨by rw [hgrow.kindOf?, if_pos rfl], ?_⟩
      rw [hgrow.connsOf, connsOf_nextNode]
      exact .nil
    obtain ⟨hv, ⟨l, hadd⟩, hd⟩ := valid_addCellPorts hv1 hu hconst hdrawn hrun
    refine ⟨hv, fun hc => hadd.conn? hc, fun {n} hn => ?_, k, hk, hd, fun {n} hn hne => ?_⟩
    · have hold : (d.net.addCell cell.1 k).2.node? n = d.net.node? n := by
        rw [node?_addCell, if_neg (ne_nextNode hn)]
      rw [hadd.node? (ne_nextNode hn) (hold.symm ▸ hn), hold]
    · apply hadd.fresh
      rw [node?_addCell, if_neg hne, hn]

/-! ## Ports and cells together -/

/-- What was drawn: the ports of the module, and for every node a cell or a literal. -/
structure Covers (ports : List (String × Direction)) (cells : List (String × Cell)) (g : Network) :
    Prop where
  ports : List.Forall₂ g.Labelled ports (g.connsOf designId)
  cells : ∀ {n k}, g.kindOf? n = some k → k = .design ∨ k = .constant ∨
    ∃ e ∈ cells, Library.kindOfType? e.2.type = some k ∧
      Drawn e.2 k e.2.connections.entries g n

theorem Drawn.congr {cell : Cell} {ports : List (String × List Bit)} {g g' : Network}
    (h : Drawn cell k ports g n) (hk : g'.kindOf? n = g.kindOf? n)
    (hconns : g'.connsOf n = g.connsOf n) (hlab : ∀ {e c}, g.Labelled e c → g'.Labelled e c) :
    Drawn cell k ports g' n := by
  refine ⟨hk.trans h.kind, ?_⟩
  rw [hconns]
  apply h.conns.imp
  rintro p c ⟨dir, hf, hl⟩
  exact ⟨dir, hf, hlab hl⟩

theorem Covers.congr {ports : List (String × Direction)} {cells : List (String × Cell)}
    {g g' : Network} (h : Covers ports cells g) (hk : ∀ n, g'.kindOf? n = g.kindOf? n)
    (hconns : ∀ n, g'.connsOf n = g.connsOf n) (hlab : ∀ {e c}, g.Labelled e c → g'.Labelled e c) :
    Covers ports cells g' where
  ports := by
    rw [hconns]
    exact h.ports.imp fun _ _ => hlab
  cells {n k} hn := by
    rw [hk] at hn
    rcases h.cells hn with hd | hc | ⟨e, he, htype, hdrawn⟩
    · exact .inl hd
    · exact .inr (.inl hc)
    · exact .inr (.inr ⟨e, he, htype, hdrawn.congr (hk n) (hconns n) hlab⟩)

/-- Drawing the ports of the module. -/
theorem covers_addPorts {root name : String} {ports : List (String × Port)}
    (hrun : ports.foldlM (addPort root) { net := .new name } = .ok d) :
    d.Valid [] ∧ Covers (ports.flatMap portBits) [] d.net := by
  obtain ⟨hv, hadd⟩ := valid_addPorts (valid_new name) hrun
  refine ⟨hv, ?_, fun {n k} hn => ?_⟩
  · obtain ⟨l, hconns, hl⟩ := hadd.conns
    have hnil : ({ net := .new name } : Draft).net.connsOf designId = [] := connsOf_new
    rw [hconns, hnil]
    exact hl
  · by_cases hd : n = designId
    · rw [hd, hv.sound.design_kind] at hn
      exact .inl (Option.some.inj hn).symm
    · have hnone : ({ net := .new name } : Draft).net.node? n = none := by
        rw [node?_new, if_neg hd]
      rcases hadd.fresh hnone with h | h
      · simp [kindOf?_def, h] at hn
      · exact .inr (.inl (Option.mem_unique hn h))

/-- One more cell was drawn. -/
theorem covers_addCell {ports : List (String × Direction)} {cells : List (String × Cell)}
    {cell : String × Cell} (h : d.Valid []) (hc : Covers ports cells d.net)
    (hrun : addCell root d cell = .ok d') : d'.Valid [] ∧ Covers ports (cells ++ [cell]) d'.net := by
  obtain ⟨hv, hconn, hnode, k, htype, hdrawn, hfresh⟩ := valid_addCell h hrun
  have hlab : ∀ {e c}, d.net.Labelled e c → d'.net.Labelled e c := fun hl =>
    (Labelled.congr (hconn hl.isSome)).mpr hl
  have hold : ∀ {m}, (d.net.node? m).isSome →
      d'.net.kindOf? m = d.net.kindOf? m ∧ d'.net.connsOf m = d.net.connsOf m := by
    intro m hm
    rw [kindOf?_def, connsOf_def, hnode hm]
    exact ⟨rfl, rfl⟩
  refine ⟨hv, ?_, fun {n k'} hn => ?_⟩
  · rw [(hold h.design.1).2]
    exact hc.ports.imp fun _ _ => hlab
  · by_cases hs : (d.net.node? n).isSome
    · obtain ⟨hk, hconns⟩ := hold hs
      rcases hc.cells (hk.symm.trans hn) with hd | hconst | ⟨e, he, htype', hdrawn'⟩
      · exact .inl hd
      · exact .inr (.inl hconst)
      · exact .inr (.inr ⟨e, mem_append_left _ he, htype', hdrawn'.congr hk hconns hlab⟩)
    · rw [Option.not_isSome_iff_eq_none] at hs
      by_cases hnew : n = d.net.nextNode
      · obtain rfl := Option.mem_unique hdrawn.kind (hnew ▸ hn)
        exact .inr (.inr ⟨cell, by simp, htype, hnew ▸ hdrawn⟩)
      · rcases hfresh hs hnew with h' | h'
        · simp [kindOf?_def, h'] at hn
        · exact .inr (.inl (Option.mem_unique hn h'))

theorem covers_addCells {ports : List (String × Direction)} {pre cells : List (String × Cell)}
    (h : d.Valid []) (hc : Covers ports pre d.net) (hrun : cells.foldlM (addCell root) d = .ok d') :
    d'.Valid [] ∧ Covers ports (pre ++ cells) d'.net := by
  induction cells generalizing d pre with
  | nil =>
    cases hrun
    rw [append_nil]
    exact ⟨h, hc⟩
  | cons cell cells ih =>
    obtain ⟨d1, h1, hrest⟩ := foldlM_cons_eq_ok.mp hrun
    obtain ⟨hv1, hc1⟩ := covers_addCell h hc h1
    simpa using ih hv1 hc1 hrest

/-! ## Wires -/

/-- Drawing the wires to readers that have none yet: each is driven by the output on its wire, and
nothing else that can be driven changes. -/
theorem connect_spec {drivers : List (Int × ConnId)} {rs : List Reader} {g g' : Network} (hg : g.Sound)
    (hdrv : ∀ {w o}, (w, o) ∈ drivers → g.isOutput o ∧ ∃ n, o ∈ g.connsOf n)
    (hnd : (rs.map Reader.conn).Nodup) (hrs : ∀ c ∈ rs.map Reader.conn,
      g.isSink c ∧ (∃ n, c ∈ g.connsOf n) ∧ g.refsOf c = [])
    (hrun : rs.foldlM (connect drivers) g = .ok g') : g'.Sound ∧ (∃ f, Rewires f g g') ∧
      (∀ r ∈ rs, ∃ o, drivers.lookup r.wire = some o ∧ g'.refsOf r.conn = [o]) ∧
      ∀ c, g.isSink c → c ∉ rs.map Reader.conn → g'.refsOf c = g.refsOf c := by
  induction rs generalizing g with
  | nil =>
    cases hrun
    exact ⟨hg, ⟨_, .refl _⟩, by simp, fun _ _ _ => rfl⟩
  | cons r rs ih =>
    obtain ⟨g1, h1, hrest⟩ := foldlM_cons_eq_ok.mp hrun
    unfold connect at h1
    split at h1
    · cases h1
    rename_i o hlook
    cases h1
    have hmem : (r.wire, o) ∈ drivers := by
      obtain ⟨l, l', hl, -⟩ := lookup_eq_some_iff.mp hlook
      simp [hl]
    obtain ⟨hout, hol⟩ := hdrv hmem
    obtain ⟨hs, hl, hr⟩ := hrs r.conn (by simp)
    have hw := rewires_wire (ne_of_isSink hs hout) (g := g)
    have hrefs : ∀ {x}, g.isSink x → x ≠ r.conn → (g.wire r.conn o).refsOf x = g.refsOf x := by
      intro x hx hxr
      rw [refsOf_wire_sink hs hout hr hx, if_neg hxr]
    rw [map_cons, nodup_cons] at hnd
    -- one wire leaves the drivers and the other readers as they are
    have hdrv' : ∀ {w o'}, (w, o') ∈ drivers → (g.wire r.conn o).isOutput o' ∧
        ∃ n, o' ∈ (g.wire r.conn o).connsOf n := by
      intro w o' hw'
      rw [isOutput_congr hw.directionOf?]
      simpa only [hw.connsOf] using hdrv hw'
    have hrs' : ∀ c ∈ rs.map Reader.conn, (g.wire r.conn o).isSink c ∧
        (∃ n, c ∈ (g.wire r.conn o).connsOf n) ∧ (g.wire r.conn o).refsOf c = [] := by
      intro c hc
      obtain ⟨hcs, hcl, hcr⟩ := hrs c (mem_cons_of_mem _ hc)
      have hcr' : c ≠ r.conn := fun e => hnd.1 (e ▸ hc)
      exact ⟨(isSink_congr hw.directionOf?).trans hcs, by simpa only [hw.connsOf] using hcl,
        (hrefs hcs hcr').trans hcr⟩
    obtain ⟨hg', ⟨f, hf⟩, hwired, hsame⟩ :=
      ih (hg.wire hs hout hr hl hol) hdrv' hnd.2 hrs' hrest
    refine ⟨hg', ⟨_, hw.trans hf⟩, ?_, ?_⟩
    · intro r' hr'
      rcases mem_cons.mp hr' with rfl | hr'
      · refine ⟨o, hlook, ?_⟩
        rw [hsame _ ((isSink_congr hw.directionOf?).trans hs) hnd.1,
          refsOf_wire_sink hs hout hr hs, if_pos rfl]
      · exact hwired r' hr'
    · intro c hc hnot
      rw [map_cons, mem_cons, not_or] at hnot
      rw [hsame c ((isSink_congr hw.directionOf?).trans hc) hnot.2, hrefs hc hnot.1]

/-- In a draft in order all readers are driven by the outputs on their wires. -/
theorem Valid.connectAll_spec {g : Network} (h : d.Valid []) (hrun : d.connectAll = .ok g) :
    g.Sound ∧ (∃ f, Rewires f d.net g) ∧
      ∀ r ∈ d.readers, ∃ o, d.drivers.lookup r.wire = some o ∧ g.refsOf r.conn = [o] := by
  have hnd : (d.readers.map Reader.conn).Nodup := by simpa using h.nodup
  obtain ⟨hg, hf, hwired, -⟩ := connect_spec h.sound h.driver hnd
    (fun c hc => ⟨(h.reader (by simpa using hc)).1, (h.reader (by simpa using hc)).2, h.unwired c⟩) hrun
  exact ⟨hg, hf, hwired⟩

end Draft

end PldSynth
