import PldSynth.Proofs.Netlist.Built

/-!
# What a design binds its connections to

A design binds each of its connections to a wire or to a literal (`Design.bindings`), and every binding
becomes one connection of the network, in the same order (`Network.boundConns`). While a design is
drawn, the table of drivers and the list of readers are determined by the terminals that were drawn so
far (`Draft.Tracks`): an output enters its wire, a literal enters a wire of its own with the output of
a constant, and anything else reads the wire that it is bound to.
-/

namespace PldSynth

open Attempt List

/-! ## Bindings -/

/-- One connection of a design: its name, its direction as seen from inside, and what it is bound to. -/
structure Binding where
  name : String
  direction : Direction
  bit : Bit
  deriving DecidableEq, Repr

/-- The wire that the connection drives. -/
def Binding.drives? (b : Binding) : Option Int :=
  match b.direction, b.bit with
  | .output, .wire w => some w
  | _, _ => none

/-- The wire that the connection reads. -/
def Binding.reads? (b : Binding) : Option Int :=
  match b.direction, b.bit with
  | .output, _ | _, .literal _ => none
  | _, .wire w => some w

theorem Binding.reads?_eq_some {b : Binding} {w : Int} :
    b.reads? = some w ↔ b.direction ≠ .output ∧ b.bit = .wire w := by
  rcases b with ⟨name, _ | _ | _, w' | text⟩ <;> simp [reads?]

/-- The connections of a port. -/
def Port.bindings (port : String × Port) : List Binding :=
  match Direction.ofWord? port.2.direction with
  | none => []
  | some dir => port.2.bits.zipIdx.map fun b =>
      ⟨Draft.bitName port.1 port.2.bits.length b.2, dir.flipped, b.1⟩

/-- The direction of a port of a cell of the kind `k`. -/
def Cell.portDirection? (cell : Cell) (k : NodeKind) (port : String) : Option Direction :=
  if k.isRegister then Library.registerDirection? (Library.portName k port)
  else (cell.portDirections.get? port).bind Direction.ofWord?

/-- The connection of one port of a cell. -/
def Cell.portBindings (cell : Cell) (k : NodeKind) (port : String × List Bit) : List Binding :=
  match port.2, cell.portDirection? k port.1 with
  | [bit], some dir => [⟨Library.portName k port.1, dir, bit⟩]
  | _, _ => []

/-- The connections of a cell. -/
def Cell.bindings (cell : Cell) : List Binding :=
  match Library.kindOfType? cell.type with
  | none => []
  | some k => cell.connections.entries.flatMap (cell.portBindings k)

/-- The connections of a design: those of the ports, then those of the cells. -/
def Design.bindings (d : Design) : List Binding :=
  d.ports.entries.flatMap Port.bindings ++ d.cells.entries.flatMap fun e => e.2.bindings

namespace Network

variable {g g' : Network} {n m : NodeId} {c o : ConnId} {value : Nat}

/-- The nodes that a design names: the module itself and the cells. -/
def boundNodes (g : Network) : List NodeId :=
  designId :: g.cells.filter fun n => !g.hasKind (· = .constant) n

/-- The connections of the ports and cells, in order. -/
def boundConns (g : Network) : List ConnId :=
  g.boundNodes.flatMap g.connsOf

/-- The node `n` is a constant, and `o` is its output. -/
structure IsConstant (g : Network) (n : NodeId) (o : ConnId) (value : Nat) : Prop where
  kind : g.kindOf? n = some .constant
  constant : g.constantOf? n = some value
  conns : g.connsOf n = [o]
  name : g.connNameOf? o = some "OUT"

theorem boundNodes_congr (hcells : g'.cells = g.cells) (hk : ∀ n ∈ g.cells, g'.kindOf? n = g.kindOf? n) :
    g'.boundNodes = g.boundNodes := by
  rw [boundNodes, hcells]
  congr 1
  apply filter_congr
  intro n hn
  rw [hasKind, hasKind, hk n hn]

theorem boundConns_congr (hnodes : g'.boundNodes = g.boundNodes)
    (hconns : ∀ n ∈ g.boundNodes, g'.connsOf n = g.connsOf n) : g'.boundConns = g.boundConns := by
  rw [boundConns, hnodes]
  exact flatMap_congr hconns

theorem inUse_of_mem_boundNodes (hn : n ∈ g.boundNodes) : g.InUse n := by
  rcases mem_cons.mp hn with hn | hn
  · exact .inl hn
  · exact .inr (.inl (mem_filter.mp hn).1)

namespace Owned

variable (hg : g.Owned)
include hg

theorem nodup_boundNodes : g.boundNodes.Nodup := by
  refine nodup_cons.mpr ⟨fun hmem => ?_, hg.nodup_cells.filter _⟩
  obtain ⟨k, hk, hcell⟩ := hg.cell_kind (mem_filter.mp hmem).1
  rw [hg.design_kind] at hk
  cases hk
  cases hcell

theorem isSome_boundNodes (hn : n ∈ g.boundNodes) : (g.node? n).isSome := by
  rcases mem_cons.mp hn with rfl | hn
  · exact isSome_of_kindOf? hg.design_kind
  · exact hg.cell_isSome (mem_filter.mp hn).1

theorem not_constant_boundNodes (hn : n ∈ g.boundNodes) : g.kindOf? n ≠ some .constant := by
  intro hk
  rcases mem_cons.mp hn with rfl | hn
  · rw [hg.design_kind] at hk
    cases hk
  · simpa [hasKind, hk] using (mem_filter.mp hn).2

/-- No connection is bound twice. -/
theorem nodup_boundConns : g.boundConns.Nodup := by
  refine nodup_flatMap.mpr ⟨fun n _ => hg.nodup_conns n, ?_⟩
  refine hg.nodup_boundNodes.imp fun {n m} hne c hc hc' => hne (hg.eq_of_mem hc hc')

/-- The output of a constant is bound to nothing. -/
theorem constant_not_bound (h : g.IsConstant n o value) : o ∉ g.boundConns := by
  intro hmem
  obtain ⟨m, hm, ho⟩ := mem_flatMap.mp hmem
  obtain rfl := hg.eq_of_mem ho (m := n) (by simp [h.conns])
  exact hg.not_constant_boundNodes hm h.kind

end Owned

/-- A constant is not named in a design. -/
theorem boundNodes_addConstant (hg : g.Owned) (value : Nat) :
    (g.addConstant value).2.boundNodes = g.boundNodes := by
  have hnew : (g.addConstant value).2.hasKind (· = .constant) g.nextNode := by
    simp [hasKind, kindOf?_addConstant]
  have hcells : (g.addConstant value).2.cells = g.cells ++ [g.nextNode] := rfl
  rw [boundNodes, hcells, filter_append]
  simp only [filter_cons, hnew, Bool.not_true, Bool.false_eq_true, if_false, filter_nil,
    append_nil]
  congr 1
  apply filter_congr
  intro n hn
  rw [hasKind, hasKind, kindOf?_addConstant, if_neg (ne_nextNode (hg.cell_isSome hn))]

end Network

open Network

/-! ## Terminals -/

/-- A connection that was drawn for a binding. -/
inductive Terminal
  /-- An output on a wire. -/
  | output (name : String) (wire : Int) (conn : ConnId)
  /-- A connection that reads a wire. -/
  | reader (name : String) (direction : Direction) (wire : Int) (conn : ConnId)
  /-- An input that is bound to a literal. It reads the output `out` of the constant `node`. -/
  | literal (name text : String) (value index : Nat) (node : NodeId) (out conn : ConnId)

namespace Terminal

/-- The binding that the terminal was drawn for. -/
def binding : Terminal → Binding
  | output name wire _ => ⟨name, .output, .wire wire⟩
  | reader name dir wire _ => ⟨name, dir, .wire wire⟩
  | literal name text .. => ⟨name, .input, .literal text⟩

/-- The connection of the terminal. -/
def conn : Terminal → ConnId
  | output _ _ c | reader _ _ _ c | literal _ _ _ _ _ _ c => c

/-- The wire of the literal of the given index. -/
def literalWire (index : Nat) : Int :=
  -1 - index

/-- What the terminal enters in the table of drivers. -/
def entry? : Terminal → Option (Int × ConnId)
  | output _ wire c => some (wire, c)
  | reader .. => none
  | literal _ _ _ index _ out _ => some (literalWire index, out)

/-- The connection that reads, and the wire that it reads. -/
def read? : Terminal → Option (ConnId × Int)
  | output .. => none
  | reader _ _ wire c => some (c, wire)
  | literal _ _ _ index _ _ c => some (c, literalWire index)

/-- The index of the literal. -/
def index? : Terminal → Option Nat
  | literal _ _ _ index .. => some index
  | _ => none

/-- The network has the connection, and the constant behind it if there is one. -/
def Fits (g : Network) (t : Terminal) : Prop :=
  g.Labelled (t.binding.name, t.binding.direction) t.conn ∧
    match t with
    | output .. => True
    | reader _ dir _ _ => dir ≠ .output
    | literal _ text value _ node out _ =>
      Text.readNat? Text.bound32 text.toList = some value ∧ g.IsConstant node out value

/-- `s` was drawn before `t`: they enter different connections, and an output enters a wire that has no
entry yet. A literal does not look whether there is one. -/
def Apart (s t : Terminal) : Prop :=
  ∀ e ∈ s.entry?, ∀ e' ∈ t.entry?, e.2 ≠ e'.2 ∧ (t.binding.direction = .output → e.1 ≠ e'.1)

variable {g g' : Network} {s t : Terminal}

/-- A terminal stays in place when more is drawn. -/
theorem Fits.mono (h : t.Fits g) (hconn : ∀ {c}, (g.conn? c).isSome → g'.conn? c = g.conn? c)
    (hnode : ∀ {n}, g.kindOf? n = some .constant → g'.node? n = g.node? n) : t.Fits g' := by
  refine ⟨(Labelled.congr (hconn h.1.isSome)).mpr h.1, ?_⟩
  cases t with
  | output => trivial
  | reader => exact h.2
  | literal name text value index node out c =>
    obtain ⟨hvalue, hk, hc, hconns, hname⟩ := h.2
    have hn := hnode hk
    refine ⟨hvalue, ?_, ?_, ?_, ?_⟩
    · rwa [kindOf?_def, hn]
    · rwa [constantOf?, hn]
    · rwa [connsOf_def, hn]
    · rwa [connNameOf?, hconn (isSome_of_connNameOf? hname)]

/-- Wires and the names of nodes do not matter. -/
theorem Fits.congr (h : t.Fits g) (hname : ∀ c, g'.connNameOf? c = g.connNameOf? c)
    (hdir : ∀ c, g'.directionOf? c = g.directionOf? c) (hk : ∀ n, g'.kindOf? n = g.kindOf? n)
    (hconst : ∀ n, g'.constantOf? n = g.constantOf? n)
    (hconns : ∀ n, g'.connsOf n = g.connsOf n) : t.Fits g' := by
  refine ⟨?_, ?_⟩
  · rw [Labelled, hname, hdir]
    exact h.1
  · cases t with
    | output => trivial
    | reader => exact h.2
    | literal name text value index node out c =>
      obtain ⟨hvalue, hc⟩ := h.2
      exact ⟨hvalue, (hk _).trans hc.kind, (hconst _).trans hc.constant, (hconns _).trans hc.conns,
        (hname _).trans hc.name⟩

theorem Fits.entry_isSome {e : Int × ConnId} (h : t.Fits g) (he : t.entry? = some e) :
    (g.conn? e.2).isSome := by
  cases t with
  | output =>
    cases he
    exact h.1.isSome
  | reader => cases he
  | literal =>
    cases he
    exact isSome_of_connNameOf? h.2.2.name

/-- Only an output drives a wire. -/
theorem Fits.eq_output {w : Int} (h : t.Fits g) (hd : t.binding.drives? = some w) :
    ∃ name c, t = output name w c := by
  cases t with
  | output name w' c =>
    cases hd
    exact ⟨name, c, rfl⟩
  | reader name dir w' c =>
    have hdir := h.2
    cases dir with
    | output => exact absurd rfl hdir
    | input => cases hd
    | bidirectional => cases hd
  | literal => cases hd

theorem literalWire_lt (i : Nat) : literalWire i < 0 := by
  unfold literalWire
  omega

theorem literalWire_inj {i j : Nat} : literalWire i = literalWire j ↔ i = j := by
  unfold literalWire
  omega

end Terminal

/-! ## What was drawn so far -/

namespace Draft

variable {d d' : Draft} {n : NodeId} {c : ConnId} {ts : List Terminal} {pending : List ConnId}
  {pre : List NodeId} {dir : Direction} {path : String} {b : Binding} {k : NodeKind} {root : String}

/-- The draft holds the terminals `ts` and, after them, connections that are not yet bound. -/
structure Tracks (pending : List ConnId) (ts : List Terminal) (d : Draft) : Prop where
  conns : ts.map Terminal.conn ++ pending = d.net.boundConns
  fits : ∀ t ∈ ts, t.Fits d.net
  drivers : d.drivers = (ts.filterMap Terminal.entry?).reverse
  indices : ts.filterMap Terminal.index? = List.range d.literals
  readers : (d.readers.map fun r => (r.conn, r.wire)).Perm (ts.filterMap Terminal.read?)
  apart : ts.Pairwise Terminal.Apart

namespace Tracks

theorem mem_drivers (h : d.Tracks pending ts) {e : Int × ConnId} :
    e ∈ d.drivers ↔ ∃ t ∈ ts, t.entry? = some e := by
  rw [h.drivers, mem_reverse, mem_filterMap]

/-- The connection that is bound next is not in the table. -/
theorem pending_not_entered (h : d.Tracks [c] ts) (hg : d.net.Owned) {e : Int × ConnId}
    (he : e ∈ d.drivers) : e.2 ≠ c := by
  rintro rfl
  obtain ⟨t, ht, hentry⟩ := h.mem_drivers.mp he
  have hnd := hg.nodup_boundConns
  rw [← h.conns] at hnd
  cases t with
  | output name w c =>
    cases hentry
    refine disjoint_of_nodup_append hnd ?_ (mem_singleton_self c)
    exact mem_map.mpr ⟨_, ht, rfl⟩
  | reader => cases hentry
  | literal name text value index node out c =>
    cases hentry
    apply hg.constant_not_bound (h.fits _ ht).2.2
    rw [← h.conns]
    simp

theorem filterMap_snoc {α β : Type} (f : α → Option β) (l : List α) (x : α) :
    (l ++ [x]).filterMap f = l.filterMap f ++ (f x).toList := by
  cases hx : f x <;> simp [hx]

/-- One terminal more: what it enters, what it reads and whether it is a literal is added to the
draft. -/
theorem snoc {t : Terminal} (h : d.Tracks [t.conn] ts)
    (hconns : d'.net.boundConns = d.net.boundConns) (hfits : ∀ s ∈ ts, s.Fits d'.net)
    (ht : t.Fits d'.net) (hdrivers : d'.drivers = t.entry?.toList ++ d.drivers)
    (hliterals : List.range d'.literals = List.range d.literals ++ t.index?.toList)
    (hreaders : (d'.readers.map fun r => (r.conn, r.wire)).Perm
      ((d.readers.map fun r => (r.conn, r.wire)) ++ t.read?.toList))
    (hapart : ∀ s ∈ ts, s.Apart t) : d'.Tracks [] (ts ++ [t]) where
  conns := by
    rw [hconns, ← h.conns]
    simp
  fits s hs := by
    rcases mem_append.mp hs with hs | hs
    · exact hfits s hs
    · rw [mem_singleton.mp hs]
      exact ht
  drivers := by
    rw [filterMap_snoc, reverse_append, hdrivers, h.drivers]
    cases t.entry? <;> rfl
  indices := by rw [filterMap_snoc, h.indices, hliterals]
  readers := by
    rw [filterMap_snoc]
    exact hreaders.trans (h.readers.append_right _)
  apart := by
    refine pairwise_append.mpr ⟨h.apart, pairwise_singleton _ _, fun s hs u hu => ?_⟩
    rw [mem_singleton.mp hu]
    exact hapart s hs

/-- An output is entered in the table. -/
theorem drive {name : String} {w : Int} (h : d.Tracks [c] ts) (hg : d.net.Owned)
    (hl : d.net.Labelled (name, .output) c) (hw : d.drivers.lookup w = none) :
    Tracks [] (ts ++ [.output name w c]) { d with drivers := (w, c) :: d.drivers } := by
  refine snoc h rfl h.fits ⟨hl, trivial⟩ rfl (by simp [Terminal.index?])
    (by simp [Terminal.read?, Draft.readers]) fun s hs e he e' he' => ?_
  cases he'
  have hmem : e ∈ d.drivers := h.mem_drivers.mpr ⟨s, hs, he⟩
  refine ⟨h.pending_not_entered hg hmem, fun _ hkey => ?_⟩
  have hne := lookup_eq_none_iff.mp hw e hmem
  simp [hkey] at hne

/-- A connection that reads a wire is noted. -/
theorem read {name path : String} {w : Int} (side : Side) (h : d.Tracks [c] ts)
    (hl : d.net.Labelled (name, dir) c) (hdir : dir ≠ .output) :
    Tracks [] (ts ++ [.reader name dir w c]) (d.read side ⟨c, w, path⟩) := by
  refine snoc h (by simp) (by simpa using h.fits)
    (by simpa using ⟨hl, hdir⟩) (by simp [Terminal.entry?]) (by simp [Terminal.index?]) ?_
    fun s _ e _ e' he' => nomatch he'
  simpa [Terminal.read?] using (readers_read d side ⟨c, w, path⟩).map fun r => (r.conn, r.wire)

/-- An input that is bound to a literal reads a new constant, which is entered on a wire of its own. -/
theorem readLiteral {name text path : String} {value : Nat} (side : Side) (h : d.Tracks [c] ts)
    (hg : d.net.Owned) (hl : d.net.Labelled (name, .input) c)
    (hvalue : Text.readNat? Text.bound32 text.toList = some value) : Tracks []
      (ts ++ [.literal name text value d.literals d.net.nextNode d.net.nextConn c])
      ((d.addLiteral value).2.read side ⟨c, (d.addLiteral value).1, path⟩) := by
  have hnet : (d.addLiteral value).2.net = (d.net.addConstant value).2 := rfl
  have hold : ∀ {n}, (d.net.node? n).isSome → (d.addLiteral value).2.net.node? n = d.net.node? n := by
    intro n hn
    rw [hnet, node?_addConstant, if_neg (ne_nextNode hn)]
  have hconn : ∀ {x}, (d.net.conn? x).isSome → (d.addLiteral value).2.net.conn? x = d.net.conn? x := by
    intro x hx
    rw [hnet, conn?_addConstant, if_neg (ne_nextConn hx)]
  have hbound : (d.addLiteral value).2.net.boundConns = d.net.boundConns := by
    refine boundConns_congr (boundNodes_addConstant hg value) fun n hn => ?_
    rw [connsOf_def, hold (hg.isSome_boundNodes hn), connsOf_def]
  have hconst : (d.addLiteral value).2.net.IsConstant d.net.nextNode d.net.nextConn value := by
    rw [hnet]
    constructor
    · rw [kindOf?_addConstant, if_pos rfl]
    · rw [constantOf?, node?_addConstant, if_pos rfl]
      rfl
    · rw [connsOf_addConstant, if_pos rfl]
    · rw [connNameOf?, conn?_addConstant, if_pos rfl]
      rfl
  refine snoc h
    (by simpa using hbound) ?_ ?_ ?_ ?_ ?_ ?_
  · intro s hs
    rw [net_read]
    exact (h.fits s hs).mono hconn fun hk => hold (isSome_of_kindOf? hk)
  · rw [net_read]
    exact ⟨(Labelled.congr (hconn hl.isSome)).mpr hl, hvalue, hconst⟩
  · rw [drivers_read]
    rfl
  · rw [literals_read]
    exact range_succ
  · have hperm := (readers_read (d.addLiteral value).2 side ⟨c, (d.addLiteral value).1, path⟩).map
      fun r => (r.conn, r.wire)
    rw [map_append] at hperm
    exact hperm
  · -- the constant is new, and an input drives nothing
    intro s hs e he e' he'
    cases he'
    exact ⟨ne_nextConn ((h.fits s hs).entry_isSome he), by rintro ⟨⟩⟩

/-- A new connection at the last node is bound next. -/
theorem attach (h : d.Tracks [] ts) (hg : d.net.Owned) (s : String)
    (dir : Direction) (hlast : d.net.boundNodes = pre ++ [n]) :
    Tracks [d.net.nextConn] ts { d with net := (d.net.attach n s dir).2 } := by
  have hn : n ∈ d.net.boundNodes := by simp [hlast]
  have hsome := hg.isSome_boundNodes hn
  have hnodes : (d.net.attach n s dir).2.boundNodes = d.net.boundNodes :=
    boundNodes_congr rfl fun _ _ => kindOf?_attach s dir
  refine ⟨?_, fun t ht => ?_, h.drivers, h.indices, h.readers, h.apart⟩
  · have hnd := hg.nodup_boundNodes
    rw [hlast] at hnd
    have hpre : ∀ m ∈ pre, (d.net.attach n s dir).2.connsOf m = d.net.connsOf m := by
      intro m hm
      have hne : m ≠ n := fun e => disjoint_of_nodup_append hnd hm (by simp [e])
      rw [connsOf_attach s dir hsome, if_neg hne, append_nil]
    have hconns := h.conns
    rw [append_nil, boundConns, hlast, flatMap_append, flatMap_singleton] at hconns
    rw [boundConns, hnodes, hlast, flatMap_append, flatMap_singleton, hconns,
      flatMap_congr hpre, connsOf_attach s dir hsome, if_pos rfl, append_assoc]
  · apply (h.fits t ht).mono
    · intro c hc
      rw [conn?_attach, if_neg (ne_nextConn hc)]
    · intro m hm
      have hne : m ≠ n := fun e => hg.not_constant_boundNodes hn (e ▸ hm)
      rw [node?_attach, if_neg hne]

end Tracks

/-- An output is bound to a wire if nothing drives that wire yet. -/
theorem bind_output_eq_ok {side : Side} {w : Int} : d.bind side c .output path (.wire w) = .ok d' ↔
      d.drivers.lookup w = none ∧ d' = { d with drivers := (w, c) :: d.drivers } := by
  change d.drive c w = .ok d' ↔ _
  unfold drive
  cases d.drivers.lookup w with
  | none => simp [eq_comm]
  | some o => simp

/-- Anything else can be bound to any wire. -/
theorem bind_reader {side : Side} {w : Int} (hdir : dir ≠ .output) :
    d.bind side c dir path (.wire w) = .ok (d.read side ⟨c, w, path⟩) := by
  cases dir with
  | output => exact absurd rfl hdir
  | input => rfl
  | bidirectional => rfl

/-- Only an input is bound to a literal, which must be a number. -/
theorem bind_literal_eq_ok {side : Side} {path text : String} :
    d.bind side c dir path (.literal text) = .ok d' ↔
      dir = .input ∧ ∃ value, Text.readNat? Text.bound32 text.toList = some value ∧
        d' = (d.addLiteral value).2.read side ⟨c, (d.addLiteral value).1, path⟩ := by
  rw [Draft.bind, bind_eq_ok, wireOf]
  constructor
  · rintro ⟨⟨w, d1⟩, hwire, hrun⟩
    split at hwire
    · cases hwire
    · rename_i hdir
      obtain rfl : dir = .input := not_not.mp hdir
      split at hwire
      · cases hwire
      · rename_i value hvalue
        cases hwire
        cases hrun
        exact ⟨rfl, value, hvalue, rfl⟩
  · rintro ⟨rfl, value, hvalue, rfl⟩
    refine ⟨d.addLiteral value, ?_, rfl⟩
    simp [hvalue]

/-- Binding the connection that is pending makes it a terminal. -/
theorem Tracks.bind {side : Side} (h : d.Tracks [c] ts) (hg : d.net.Owned)
    (hl : d.net.Labelled (b.name, b.direction) c) (hrun : d.bind side c b.direction path b.bit = .ok d') :
    d'.net.boundNodes = d.net.boundNodes ∧ ∃ t : Terminal, t.binding = b ∧ d'.Tracks [] (ts ++ [t]) := by
  obtain ⟨name, dir, bit⟩ := b
  cases bit with
  | wire w =>
    by_cases hdir : dir = .output
    · subst hdir
      obtain ⟨hlook, rfl⟩ := bind_output_eq_ok.mp hrun
      exact ⟨rfl, .output name w c, rfl, h.drive hg hl hlook⟩
    · rw [bind_reader hdir] at hrun
      cases hrun
      exact ⟨by rw [net_read], .reader name dir w c, rfl, h.read side hl hdir⟩
  | literal text =>
    obtain ⟨hdir, value, hvalue, rfl⟩ := bind_literal_eq_ok.mp hrun
    obtain rfl : dir = .input := hdir
    refine ⟨?_, .literal name text value d.literals d.net.nextNode d.net.nextConn c, rfl,
      h.readLiteral side hg hl hvalue⟩
    rw [net_read]
    exact boundNodes_addConstant hg value

/-! ## Drawing a design -/

/-- The draft is in order, holds the terminals `ts`, and is at the node `n`, which was drawn after the
nodes `pre`. -/
structure Traced (pre : List NodeId) (n : NodeId) (ts : List Terminal) (d : Draft) : Prop where
  valid : d.Valid []
  tracks : d.Tracks [] ts
  last : d.net.boundNodes = pre ++ [n]

theorem traced_new (name : String) : Traced [] designId [] { net := .new name } where
  valid := valid_new name
  tracks := by
    refine ⟨?_, nofun, rfl, rfl, .refl _, .nil⟩
    change [] = (Network.new name).boundConns
    rw [boundConns, eq_comm, flatMap_eq_nil_iff]
    exact fun _ _ => connsOf_new
  last := rfl

theorem Tracks.noteRegister {bit : Bit} (h : d.Tracks pending ts) :
    (d.noteRegister k n dir bit).Tracks pending ts := by
  cases bit with
  | wire id =>
    simp only [Draft.noteRegister]
    split
    · exact ⟨h.conns, h.fits, h.drivers, h.indices, h.readers, h.apart⟩
    · exact h
  | literal text => exact h

/-- One more connection of the node that was drawn last: drawn and bound. -/
theorem Traced.connection {side : Side} {d1 : Draft} (h : d.Traced pre n ts)
    (hnet : d1.net = (d.net.attach n b.name b.direction).2) (hd1 : d1.Tracks [d.net.nextConn] ts)
    (hg : d1.net.Owned) (hv : d'.Valid [])
    (hrun : d1.bind side d.net.nextConn b.direction path b.bit = .ok d') :
    ∃ t : Terminal, t.binding = b ∧ d'.Traced pre n (ts ++ [t]) := by
  have hl : d1.net.Labelled (b.name, b.direction) d.net.nextConn := by
    rw [hnet, Labelled, connNameOf?, directionOf?_def, conn?_attach, if_pos rfl]
    exact ⟨rfl, rfl⟩
  obtain ⟨hnodes, t, hb, ht⟩ := hd1.bind hg hl hrun
  refine ⟨t, hb, hv, ht, ?_⟩
  rw [hnodes, hnet, ← h.last]
  exact boundNodes_congr rfl fun _ _ => kindOf?_attach _ _

/-- A loop adds the terminals of its items, one item after the other. -/
theorem exists_terminals {α : Type} {P : List Terminal → Draft → Prop} {B : α → List Binding}
    {f : Draft → α → Except NetlistError Draft} {l : List α}
    (step : ∀ {ts d x d'}, x ∈ l → P ts d → f d x = .ok d' →
      ∃ new : List Terminal, new.map Terminal.binding = B x ∧ P (ts ++ new) d')
    (h : P ts d) (hrun : l.foldlM f d = .ok d') :
    ∃ new : List Terminal, new.map Terminal.binding = l.flatMap B ∧ P (ts ++ new) d' := by
  induction l generalizing ts d with
  | nil =>
    cases hrun
    exact ⟨[], rfl, by simpa using h⟩
  | cons x l ih =>
    obtain ⟨d1, h1, hrest⟩ := foldlM_cons_eq_ok.mp hrun
    obtain ⟨new, hnew, hP⟩ := step mem_cons_self h h1
    obtain ⟨more, hmore, hP'⟩ := ih (fun hx => step (mem_cons_of_mem _ hx)) hP hrest
    refine ⟨new ++ more, ?_, by rwa [← append_assoc]⟩
    rw [map_append, hnew, hmore, flatMap_cons]

/-! ### Ports -/

theorem Traced.addPortBit {path name : String} {width : Nat} {bit : Bit × Nat}
    (h : d.Traced pre designId ts) (hrun : addPortBit path name width dir d bit = .ok d') :
    ∃ t : Terminal, t.binding = ⟨bitName name width bit.2, dir, bit.1⟩ ∧
      d'.Traced pre designId (ts ++ [t]) := by
  have hv := h.valid
  obtain ⟨hsome, hk⟩ := hv.design
  have hg := (hv.attach (bitName name width bit.2) dir hsome design_inUse hk).sound.toOwned
  exact h.connection rfl
    (h.tracks.attach hv.sound.toOwned _ dir h.last) hg (valid_addPortBit hv hrun).1 hrun

/-- A port adds the terminals of its bindings. -/
theorem Traced.addPort {port : String × Port} (h : d.Traced pre designId ts)
    (hrun : addPort root d port = .ok d') : ∃ new : List Terminal,
      new.map Terminal.binding = Port.bindings port ∧ d'.Traced pre designId (ts ++ new) := by
  unfold Draft.addPort at hrun
  split at hrun
  · cases hrun
  · rename_i dir hdir
    have heq : Port.bindings port = port.2.bits.zipIdx.flatMap fun b =>
        [⟨bitName port.1 port.2.bits.length b.2, dir.flipped, b.1⟩] := by
      rw [Port.bindings, hdir, ← map_eq_flatMap]
    rw [heq]
    refine exists_terminals (fun _ hP hstep => ?_) h hrun
    obtain ⟨t, ht, hP'⟩ := hP.addPortBit hstep
    exact ⟨[t], by simp [ht], hP'⟩

theorem exists_traced_addPorts {root name : String} {ports : List (String × Port)}
    (hrun : ports.foldlM (Draft.addPort root) { net := .new name } = .ok d) : ∃ ts : List Terminal,
      ts.map Terminal.binding = ports.flatMap Port.bindings ∧ d.Traced [] designId ts :=
  exists_terminals (fun _ hP hstep => hP.addPort hstep) (traced_new name) hrun

/-! ### Cells -/

theorem cellPortDirection_eq_ok {path port : String} {cell : Cell} :
    cellPortDirection path cell k port = .ok dir ↔ cell.portDirection? k port = some dir := by
  unfold cellPortDirection Cell.portDirection?
  split
  · cases Library.registerDirection? (Library.portName k port) <;> simp
  · cases cell.portDirections.get? port with
    | none => simp
    | some word => cases hw : Direction.ofWord? word <;> simp [hw]

/-- A port of a cell adds the terminal of its binding. -/
theorem Traced.addCellPort {cell : Cell} {port : String × List Bit} (h : d.Traced pre n ts)
    (hrun : addCellPort path cell k n d port = .ok d') : ∃ new : List Terminal,
      new.map Terminal.binding = cell.portBindings k port ∧ d'.Traced pre n (ts ++ new) := by
  have hg := h.valid.sound.toOwned
  have hmem : n ∈ d.net.boundNodes := by simp [h.last]
  have hn := hg.isSome_boundNodes hmem
  have hk := hg.not_constant_boundNodes hmem
  have hu := inUse_of_mem_boundNodes hmem
  obtain ⟨hv, -⟩ := valid_addCellPort h.valid hn hu hk hrun
  unfold Draft.addCellPort at hrun
  split at hrun
  · rename_i bit hbits
    rw [bind_eq_ok] at hrun
    obtain ⟨dir, hdir, hrun⟩ := hrun
    have hv1 := h.valid.attach (Library.portName k port.1) dir hn hu hk
    obtain ⟨t, ht, htraced⟩ := h.connection (b := ⟨Library.portName k port.1, dir, bit⟩)
      net_noteRegister (h.tracks.attach hg _ dir h.last).noteRegister
      hv1.noteRegister.sound.toOwned hv hrun
    refine ⟨[t], ?_, htraced⟩
    rw [cellPortDirection_eq_ok] at hdir
    simp [Cell.portBindings, hbits, hdir, ht]
  · simp only [throw_eq_ok] at hrun

/-- A new cell is at the end of the nodes, without connections. -/
theorem Traced.addCell_node (h : d.Traced pre n ts) (s : String) (hk : k.isCell) (hc : k ≠ .constant) :
    Traced (pre ++ [n]) d.net.nextNode ts { d with net := (d.net.addCell s k).2 } := by
  have hg := h.valid.sound.toOwned
  have hgrow := grows_addCell (g := d.net) s k
  have hnodes : (d.net.addCell s k).2.boundNodes = d.net.boundNodes ++ [d.net.nextNode] := by
    have hnew : (d.net.addCell s k).2.hasKind (· = .constant) d.net.nextNode = false := by
      simp [hasKind, hgrow.kindOf?, hc]
    rw [boundNodes, cells_addCell, filter_append]
    simp only [filter_cons, hnew, Bool.not_false, if_true, filter_nil]
    congr 2
    apply filter_congr
    intro m hm
    rw [hasKind, hasKind, hgrow.kindOf?_of_isSome (hg.cell_isSome hm)]
  have ht := h.tracks
  refine ⟨h.valid.addCell s hk hc, ⟨?_, fun t hmem => ?_, ht.drivers, ht.indices, ht.readers, ht.apart⟩,
    h.last ▸ hnodes⟩
  · rw [ht.conns, boundConns, boundConns, hnodes, flatMap_append, flatMap_singleton,
      hgrow.connsOf, connsOf_nextNode, append_nil]
    exact flatMap_congr fun m _ => hgrow.connsOf.symm
  · refine (ht.fits t hmem).mono (fun _ => rfl) fun hconst => ?_
    rw [node?_addCell, if_neg (ne_nextNode (isSome_of_kindOf? hconst))]

/-- A cell adds those of its ports, and is the next node. -/
theorem Traced.addCell {cell : String × Cell} (h : d.Traced pre n ts)
    (hrun : addCell root d cell = .ok d') : ∃ new : List Terminal,
      new.map Terminal.binding = cell.2.bindings ∧
      d'.Traced (pre ++ [n]) d.net.nextNode (ts ++ new) := by
  unfold Draft.addCell at hrun
  split at hrun
  · cases hrun
  · rename_i k hk
    obtain ⟨hcell, hconst⟩ := isCell_of_kindOfType? hk
    have hstart := h.addCell_node cell.1 hcell hconst
    have heq : cell.2.bindings = cell.2.connections.entries.flatMap (cell.2.portBindings k) := by
      rw [Cell.bindings, hk]
    rw [heq]
    exact exists_terminals
      (fun _ hP hstep => hP.addCellPort hstep) hstart hrun

/-- Whichever node the draft is at, it is at another one after a cell. -/
theorem exists_traced_addCell {cell : String × Cell} (h : ∃ pre n, d.Traced pre n ts)
    (hrun : addCell root d cell = .ok d') : ∃ new : List Terminal,
      new.map Terminal.binding = cell.2.bindings ∧ ∃ pre n, d'.Traced pre n (ts ++ new) := by
  obtain ⟨pre, n, htraced⟩ := h
  obtain ⟨new, hnew, htraced'⟩ := htraced.addCell hrun
  exact ⟨new, hnew, _, _, htraced'⟩

/-- All ports, then all cells. -/
theorem exists_traced {root name : String} {ports : List (String × Port)} {cells : List (String × Cell)}
    (hports : ports.foldlM (Draft.addPort root) { net := .new name } = .ok d)
    (hcells : cells.foldlM (Draft.addCell root) d = .ok d') :
    ∃ (pre : List NodeId) (n : NodeId) (ts : List Terminal),
      ts.map Terminal.binding = ports.flatMap Port.bindings ++ cells.flatMap (fun e => e.2.bindings) ∧
      d'.Traced pre n ts := by
  obtain ⟨ts, hts, htraced⟩ := exists_traced_addPorts hports
  obtain ⟨more, hmore, pre, n, htraced'⟩ := exists_terminals (P := fun ts d => ∃ pre n, Traced pre n ts d)
    (fun _ hP hstep => exists_traced_addCell hP hstep) ⟨[], designId, htraced⟩ hcells
  refine ⟨pre, n, ts ++ more, ?_, htraced'⟩
  rw [map_append, hmore, hts]

end Draft

/-! ## The finished network -/

/-- The network `g` has the terminals `ts`, one for each binding of the design, in order, and whatever
reads a wire is driven by what was entered last for that wire. -/
structure Design.Bound (d : Design) (ts : List Terminal) (g : Network) : Prop where
  bindings : ts.map Terminal.binding = d.bindings
  conns : ts.map Terminal.conn = g.boundConns
  fits : ∀ t ∈ ts, t.Fits g
  indices : ∃ k, ts.filterMap Terminal.index? = List.range k
  apart : ts.Pairwise Terminal.Apart
  wired : ∀ t ∈ ts, ∀ c w, t.read? = some (c, w) →
    ∃ o, (ts.filterMap Terminal.entry?).reverse.lookup w = some o ∧ g.refsOf c = [o]

/-- Every binding of a design has its terminal. -/
theorem Design.exists_bound {d : Design} {name : String} {g : Network} (h : d.toNetwork name = .ok g) :
    ∃ ts, d.Bound ts g := by
  simp only [Design.toNetwork, bind_eq_ok, pure_eq_ok] at h
  obtain ⟨draft, hports, draft', hcells, net, hnet, rfl⟩ := h
  obtain ⟨_, _, ts, hts, htraced⟩ := Draft.exists_traced hports hcells
  have hv := htraced.valid
  have ht := htraced.tracks
  obtain ⟨hg, ⟨f, hf⟩, hwired⟩ := hv.connectAll_spec hnet
  have hr : Renamed net (d.nets.entries.foldl (Draft.nameRegisters draft'.registers) net) :=
    renamed_foldl Draft.renamed_nameRegisters _ net
  have hkind : ∀ m, (d.nets.entries.foldl _ net).kindOf? m = draft'.net.kindOf? m := fun m =>
    (hr.alike.kindOf? m).trans hf.kindOf?
  have hconns : ∀ m, (d.nets.entries.foldl _ net).connsOf m = draft'.net.connsOf m := fun m =>
    (hr.alike.connsOf m).trans hf.connsOf
  refine ⟨ts, hts, ?_, fun t hmem => ?_, ⟨_, ht.indices⟩, ht.apart, fun t hmem c w hread => ?_⟩
  · have hconns0 := ht.conns
    rw [append_nil] at hconns0
    rw [hconns0]
    exact (boundConns_congr (boundNodes_congr (hr.alike.cells.trans hf.cells) fun m _ => hkind m)
      fun m _ => hconns m).symm
  · refine (ht.fits t hmem).congr (fun x => ?_)
      (fun x => (hr.alike.directionOf? x).trans hf.directionOf?) hkind
      (fun m => (hr.alike.constantOf? m).trans hf.constantOf?) hconns
    rw [connNameOf?, hr.conn?]
    exact hf.connNameOf?
  · -- the terminal is one of the readers
    have hmem' : (c, w) ∈ draft'.readers.map fun r => (r.conn, r.wire) :=
      ht.readers.mem_iff.mpr (mem_filterMap.mpr ⟨t, hmem, hread⟩)
    obtain ⟨r, hrd, heq⟩ := mem_map.mp hmem'
    obtain ⟨rfl, rfl⟩ := Prod.mk.inj heq
    obtain ⟨o, hlook, ho⟩ := hwired r hrd
    refine ⟨o, ht.drivers ▸ hlook, ?_⟩
    rw [hr.alike.refsOf]
    exact ho

end PldSynth
