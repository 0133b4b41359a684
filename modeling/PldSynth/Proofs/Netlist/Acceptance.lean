import PldSynth.Proofs.Netlist.Bindings
import PldSynth.Proofs.Network.Consistency

/-!
# Which designs have a network

A design is refused for what one of its ports or cells is, for a literal in the wrong place, for a wire
with two drivers or for a wire without one. If the wires have numbers that are not negative, nothing
else is refused (`Design.exists_network_iff`).

Each level of the drawing has one lemma: from a draft that holds the terminals `ts` it succeeds on an
item if and only if the item itself is in order and its connections can be bound after those of `ts`
(`Bindable`).
-/

namespace PldSynth

open Attempt List Network

/-! ## Well-formed designs -/

/-- The bit is a literal or a wire whose number is not negative. -/
def Bit.isNatural : Bit → Bool
  | .wire w => 0 ≤ w
  | .literal _ => true

/-- The kind of the cell has a port of this name, or the cell says which way the port faces. -/
def Cell.HasPort (cell : Cell) (k : NodeKind) (port : String) : Prop :=
  if k.isRegister then
    Library.portName k port = "Q" ∨ Library.portName k port ∈ Library.registerInputs
  else ∃ word ∈ cell.portDirections.get? port, word ∈ ["input", "output", "inout"]

/-- A list of connections that can be bound: literals are numbers on inputs, and no wire has two
drivers. -/
structure Bindable (bs : List Binding) : Prop where
  literal : ∀ b ∈ bs, ∀ text, b.bit = .literal text →
    b.direction = .input ∧ (Text.readNat? Text.bound32 text.toList).isSome
  outputs : (bs.filterMap Binding.drives?).Nodup

namespace Design

/-- What a design has to be in order to have a network. -/
structure WellFormed (d : Design) : Prop extends Bindable d.bindings where
  portDirection : ∀ p ∈ d.ports.entries, p.2.direction ∈ ["input", "output", "inout"]
  cellType : ∀ e ∈ d.cells.entries, (Library.kindOfType? e.2.type).isSome
  oneBit : ∀ e ∈ d.cells.entries, ∀ p ∈ e.2.connections.entries, p.2.length = 1
  hasPort : ∀ e ∈ d.cells.entries, ∀ k ∈ Library.kindOfType? e.2.type,
    ∀ p ∈ e.2.connections.entries, e.2.HasPort k p.1
  driven : ∀ b ∈ d.bindings, ∀ w ∈ b.reads?, ∃ b' ∈ d.bindings, b'.drives? = some w

end Design

theorem Direction.isSome_ofWord? {word : String} :
    (Direction.ofWord? word).isSome ↔ word ∈ ["input", "output", "inout"] := by
  unfold Direction.ofWord?
  split <;> simp_all

theorem Cell.isSome_portDirection? {cell : Cell} {k : NodeKind} {port : String} :
    (cell.portDirection? k port).isSome ↔ cell.HasPort k port := by
  unfold Cell.portDirection? Cell.HasPort
  split
  · unfold Library.registerDirection?
    split
    · simp_all
    · split <;> simp_all
  · cases hw : cell.portDirections.get? port with
    | none => simp
    | some word => simp only [Option.bind_some, Direction.isSome_ofWord?, Option.mem_def,
        Option.some.injEq, exists_eq_left']

namespace Bindable

variable {bs bs' : List Binding} {b : Binding}

theorem of_append (h : Bindable (bs ++ bs')) : Bindable bs where
  literal b hb := h.literal b (mem_append_left _ hb)
  outputs := by
    have hnd := h.outputs
    rw [filterMap_append] at hnd
    exact hnd.of_append_left

/-- One connection more. -/
theorem snoc_iff : Bindable (bs ++ [b]) ↔ Bindable bs ∧ (∀ text, b.bit = .literal text →
      b.direction = .input ∧ (Text.readNat? Text.bound32 text.toList).isSome) ∧
    ∀ w, b.drives? = some w → w ∉ bs.filterMap Binding.drives? := by
  constructor
  · intro h
    refine ⟨h.of_append, h.literal b (by simp), fun w hw hmem => ?_⟩
    have hnd := h.outputs
    rw [filterMap_append] at hnd
    exact disjoint_of_nodup_append hnd hmem (by simp [hw])
  · rintro ⟨h, hlit, hout⟩
    constructor
    · intro b' hb'
      rcases mem_append.mp hb' with hb' | hb'
      · exact h.literal b' hb'
      · rw [mem_singleton.mp hb']
        exact hlit
    · rw [filterMap_append]
      refine h.outputs.append ?_ fun w hw hw' => ?_
      · cases hb : b.drives? <;> simp [hb]
      · cases hb : b.drives? with
        | none => simp [hb] at hw'
        | some v =>
          have hv : w = v := by simpa [hb] using hw'
          exact hout v hb (hv ▸ hw)

end Bindable

/-! ## Binding one connection -/

namespace Draft

variable {d d' : Draft} {n : NodeId} {c : ConnId} {ts : List Terminal} {pending : List ConnId}
  {pre : List NodeId}

theorem Tracks.mem_outputs (h : d.Tracks pending ts) {w : Int} :
    w ∈ (ts.map Terminal.binding).filterMap Binding.drives? ↔ ∃ name c, .output name w c ∈ ts := by
  simp only [mem_filterMap, mem_map, exists_exists_and_eq_and]
  constructor
  · rintro ⟨t, ht, hd⟩
    obtain ⟨name, c, rfl⟩ := (h.fits t ht).eq_output hd
    exact ⟨name, c, ht⟩
  · rintro ⟨name, c, ht⟩
    exact ⟨_, ht, rfl⟩

/-- The wires in the table of drivers that are not negative are those of the outputs. -/
theorem Tracks.lookup_isSome (h : d.Tracks pending ts) {w : Int} (hw : 0 ≤ w) :
    (d.drivers.lookup w).isSome ↔ w ∈ (ts.map Terminal.binding).filterMap Binding.drives? := by
  rw [h.mem_outputs, lookup_isSome_iff]
  constructor
  · rintro ⟨e, he, hkey⟩
    obtain rfl : w = e.1 := by simpa using hkey
    obtain ⟨t, ht, hentry⟩ := h.mem_drivers.mp he
    cases t with
    | output name w' c =>
      cases hentry
      exact ⟨name, c, ht⟩
    | reader => cases hentry
    | literal name text value i m o c =>
      cases hentry
      have := Terminal.literalWire_lt i
      omega
  · rintro ⟨name, c, ht⟩
    exact ⟨(w, c), h.mem_drivers.mpr ⟨_, ht, rfl⟩, by simp⟩

/-- What was drawn could be bound. -/
theorem Tracks.bindable (h : d.Tracks pending ts) : Bindable (ts.map Terminal.binding) := by
  constructor
  · intro b hb text hbit
    obtain ⟨t, ht, rfl⟩ := mem_map.mp hb
    cases t with
    | output => cases hbit
    | reader => cases hbit
    | literal name text' value i m o c =>
      cases hbit
      rw [(h.fits _ ht).2.1]
      exact ⟨rfl, rfl⟩
  · rw [filterMap_map]
    refine pairwise_filterMap.mpr (h.apart.imp_of_mem fun {s t} hs ht hap w hw w' hw' => ?_)
    obtain ⟨name, c, rfl⟩ := (h.fits s hs).eq_output hw
    obtain ⟨name', c', rfl⟩ := (h.fits t ht).eq_output hw'
    exact (hap _ rfl _ rfl).2 rfl

/-- A connection can be bound if and only if it is bindable after those that were drawn. -/
theorem Tracks.exists_bind_iff {side : Side} {b : Binding} {path : String} (h : d.Tracks pending ts)
    (hb : b.bit.isNatural) : (∃ d', d.bind side c b.direction path b.bit = .ok d') ↔
      Bindable (ts.map Terminal.binding ++ [b]) := by
  rw [Bindable.snoc_iff, and_iff_right h.bindable]
  obtain ⟨name, dir, bit⟩ := b
  cases bit with
  | wire w =>
    have hw : 0 ≤ w := by simpa [Bit.isNatural] using hb
    by_cases hdir : dir = .output
    · subst hdir
      have hlook := h.lookup_isSome hw
      simp only [bind_output_eq_ok, Binding.drives?]
      rw [← Option.not_isSome_iff_eq_none, hlook]
      simp
    · rw [bind_reader hdir]
      have hnone : Binding.drives? ⟨name, dir, .wire w⟩ = none := by
        cases dir <;> simp_all [Binding.drives?]
      simp [hnone]
  | literal text =>
    have hnone : Binding.drives? ⟨name, dir, .literal text⟩ = none := by
      cases dir <;> rfl
    simp only [bind_literal_eq_ok, hnone]
    simp [Option.isSome_iff_exists]

/-! ## Drawing ports and cells -/

/-- A loop succeeds if and only if each item is in order and the connections of all of them can be
bound, provided that this holds of each item. -/
theorem exists_foldlM_iff {α : Type} {P : List Terminal → Draft → Prop} {B : α → List Binding}
    {Q : α → Prop} {f : Draft → α → Except NetlistError Draft} {l : List α}
    (bindable : ∀ {ts d}, P ts d → Bindable (ts.map Terminal.binding))
    (succeeds : ∀ {ts d x}, x ∈ l → P ts d →
      ((∃ d', f d x = .ok d') ↔ Q x ∧ Bindable (ts.map Terminal.binding ++ B x)))
    (step : ∀ {ts d x d'}, x ∈ l → P ts d → f d x = .ok d' →
      ∃ new : List Terminal, new.map Terminal.binding = B x ∧ P (ts ++ new) d')
    (h : P ts d) : (∃ d', l.foldlM f d = .ok d') ↔
      (∀ x ∈ l, Q x) ∧ Bindable (ts.map Terminal.binding ++ l.flatMap B) := by
  induction l generalizing ts d with
  | nil => simp [pure_eq_ok, bindable h]
  | cons x l ih =>
    have hx := succeeds mem_cons_self h
    have htail : ∀ {d1}, f d x = .ok d1 → ((∃ d', l.foldlM f d1 = .ok d') ↔
        (∀ y ∈ l, Q y) ∧ Bindable (ts.map Terminal.binding ++ (x :: l).flatMap B)) := by
      intro d1 h1
      obtain ⟨new, hnew, hP⟩ := step mem_cons_self h h1
      rw [ih (fun hy => succeeds (mem_cons_of_mem _ hy))
        (fun hy => step (mem_cons_of_mem _ hy)) hP, map_append, hnew, flatMap_cons,
        append_assoc]
    rw [forall_mem_cons]
    constructor
    · rintro ⟨d', hrun⟩
      obtain ⟨d1, h1, hrest⟩ := foldlM_cons_eq_ok.mp hrun
      obtain ⟨hl, hb⟩ := (htail h1).mp ⟨d', hrest⟩
      exact ⟨⟨(hx.mp ⟨d1, h1⟩).1, hl⟩, hb⟩
    · rintro ⟨⟨hq, hl⟩, hb⟩
      have hpre : Bindable (ts.map Terminal.binding ++ B x) := by
        rw [flatMap_cons, ← append_assoc] at hb
        exact hb.of_append
      obtain ⟨d1, h1⟩ := hx.mpr ⟨hq, hpre⟩
      obtain ⟨d', hrest⟩ := (htail h1).mpr ⟨hl, hb⟩
      exact ⟨d', foldlM_cons_eq_ok.mpr ⟨d1, h1, hrest⟩⟩

theorem Traced.exists_addPortBit_iff {path name : String} {width : Nat} {dir : Direction}
    {bit : Bit × Nat} (h : d.Traced pre designId ts) (hb : bit.1.isNatural) :
    (∃ d', Draft.addPortBit path name width dir d bit = .ok d') ↔
      Bindable (ts.map Terminal.binding ++ [⟨bitName name width bit.2, dir, bit.1⟩]) := by
  exact (h.tracks.attach h.valid.sound.toOwned _ dir h.last).exists_bind_iff
    (b := ⟨bitName name width bit.2, dir, bit.1⟩) hb

/-- When a port can be drawn. -/
theorem Traced.exists_addPort_iff {root : String} {port : String × Port} (h : d.Traced pre designId ts)
    (hb : ∀ b ∈ Port.bindings port, b.bit.isNatural) : (∃ d', Draft.addPort root d port = .ok d') ↔
      port.2.direction ∈ ["input", "output", "inout"] ∧
        Bindable (ts.map Terminal.binding ++ Port.bindings port) := by
  rw [← Direction.isSome_ofWord?]
  unfold Draft.addPort
  cases hdir : Direction.ofWord? port.2.direction with
  | none => simp
  | some dir =>
    have heq : Port.bindings port = port.2.bits.zipIdx.flatMap fun b =>
        [⟨bitName port.1 port.2.bits.length b.2, dir.flipped, b.1⟩] := by
      rw [Port.bindings, hdir, ← map_eq_flatMap]
    rw [heq] at hb ⊢
    rw [Option.isSome_some, and_iff_right rfl]
    have hloop := exists_foldlM_iff (Q := fun _ => True)
      (B := fun b => [⟨bitName port.1 port.2.bits.length b.2, dir.flipped, b.1⟩])
      (f := Draft.addPortBit (root ++ ".ports." ++ port.1) port.1 port.2.bits.length dir.flipped)
      (l := port.2.bits.zipIdx) (fun hP => hP.tracks.bindable) (fun {ts d x} hx hP => ?_)
      (fun {ts d x d'} _ hP hstep => ?_) h
    · rwa [and_iff_right fun _ _ => trivial] at hloop
    · rw [true_and]
      exact hP.exists_addPortBit_iff (hb _ (mem_flatMap.mpr ⟨x, hx, mem_singleton_self _⟩))
    · obtain ⟨t, ht, hP'⟩ := hP.addPortBit hstep
      exact ⟨[t], by simp [ht], hP'⟩

/-- When a port of a cell can be drawn. -/
theorem Traced.exists_addCellPort_iff {path : String} {cell : Cell} {k : NodeKind}
    {port : String × List Bit} (h : d.Traced pre n ts)
    (hb : ∀ b ∈ cell.portBindings k port, b.bit.isNatural) :
    (∃ d', Draft.addCellPort path cell k n d port = .ok d') ↔
      (port.2.length = 1 ∧ cell.HasPort k port.1) ∧
        Bindable (ts.map Terminal.binding ++ cell.portBindings k port) := by
  rw [← Cell.isSome_portDirection?]
  unfold Draft.addCellPort
  split
  · rename_i bit hbits
    simp only [bind_eq_ok, cellPortDirection_eq_ok]
    cases hdir : cell.portDirection? k port.1 with
    | none => simp
    | some dir =>
      have heq : cell.portBindings k port = [⟨Library.portName k port.1, dir, bit⟩] := by
        simp only [Cell.portBindings, hbits, hdir]
      rw [heq] at hb ⊢
      have hlen : port.2.length = 1 := by simp [hbits]
      simp only [Option.some.injEq, exists_eq_left', Option.isSome_some, hlen, true_and]
      exact (h.tracks.attach h.valid.sound.toOwned _ dir h.last).noteRegister.exists_bind_iff (hb _ (mem_singleton_self _))
  · rename_i hbits
    have hlen : port.2.length ≠ 1 := fun hlen =>
      (length_eq_one_iff.mp hlen).elim fun bit hbit => hbits bit hbit
    simp [throw_eq_ok, hlen]

/-- When a cell can be drawn. -/
theorem Traced.exists_addCell_iff {root : String} {cell : String × Cell} (h : d.Traced pre n ts)
    (hb : ∀ b ∈ cell.2.bindings, b.bit.isNatural) : (∃ d', Draft.addCell root d cell = .ok d') ↔
      (∃ k, Library.kindOfType? cell.2.type = some k ∧
        ∀ p ∈ cell.2.connections.entries, p.2.length = 1 ∧ cell.2.HasPort k p.1) ∧
        Bindable (ts.map Terminal.binding ++ cell.2.bindings) := by
  unfold Draft.addCell
  cases hk : Library.kindOfType? cell.2.type with
  | none => simp
  | some k =>
    obtain ⟨hcell, hconst⟩ := isCell_of_kindOfType? hk
    have heq : cell.2.bindings = cell.2.connections.entries.flatMap (cell.2.portBindings k) := by
      rw [Cell.bindings, hk]
    rw [heq] at hb ⊢
    simp only [Option.some.injEq, exists_eq_left']
    refine exists_foldlM_iff (fun hP => hP.tracks.bindable)
      (fun {ts d x} hx hP => hP.exists_addCellPort_iff fun b hmem => hb b ?_)
      (fun _ hP hstep => hP.addCellPort hstep) (h.addCell_node cell.1 hcell hconst)
    exact mem_flatMap.mpr ⟨x, hx, hmem⟩

theorem exists_addPorts_iff (root name : String) {ports : List (String × Port)}
    (hb : ∀ b ∈ ports.flatMap Port.bindings, b.bit.isNatural) :
    (∃ d, ports.foldlM (Draft.addPort root) { net := .new name } = .ok d) ↔
      (∀ p ∈ ports, p.2.direction ∈ ["input", "output", "inout"]) ∧
        Bindable (ports.flatMap Port.bindings) := by
  have hloop := exists_foldlM_iff (f := Draft.addPort root)
    (fun hP => hP.tracks.bindable)
    (fun hx hP => hP.exists_addPort_iff fun b hmem => hb b (mem_flatMap.mpr ⟨_, hx, hmem⟩))
    (fun _ hP hstep => hP.addPort hstep) (traced_new name)
  exact hloop

theorem Traced.exists_addCells_iff (root : String) {cells : List (String × Cell)} (h : d.Traced pre n ts)
    (hb : ∀ b ∈ cells.flatMap fun e => e.2.bindings, b.bit.isNatural) :
    (∃ d', cells.foldlM (Draft.addCell root) d = .ok d') ↔
      (∀ e ∈ cells, ∃ k, Library.kindOfType? e.2.type = some k ∧
        ∀ p ∈ e.2.connections.entries, p.2.length = 1 ∧ e.2.HasPort k p.1) ∧
        Bindable (ts.map Terminal.binding ++ cells.flatMap fun e => e.2.bindings) :=
  exists_foldlM_iff (P := fun ts d => ∃ pre n, Traced pre n ts d)
    (fun ⟨_, _, hP⟩ => hP.tracks.bindable)
    (fun hx ⟨_, _, hP⟩ => hP.exists_addCell_iff fun b hmem => hb b (mem_flatMap.mpr ⟨_, hx, hmem⟩))
    (fun _ hP hstep => exists_traced_addCell hP hstep) ⟨pre, n, h⟩

/-! ## Drawing the wires -/

/-- The wires can be drawn if and only if every reader finds a driver. -/
theorem exists_connect_iff {drivers : List (Int × ConnId)} {g : Network} {rs : List Reader} :
    (∃ g', rs.foldlM (connect drivers) g = .ok g') ↔ ∀ r ∈ rs, (drivers.lookup r.wire).isSome := by
  induction rs generalizing g with
  | nil => simp [pure_eq_ok]
  | cons r rs ih =>
    simp only [foldlM_cons_eq_ok, forall_mem_cons, connect]
    cases drivers.lookup r.wire with
    | none => simp
    | some o => simpa using ih

/-- In a draft this is so if and only if every wire that is read is driven. -/
theorem Tracks.exists_connectAll_iff (h : d.Tracks [] ts)
    (hb : ∀ b ∈ ts.map Terminal.binding, b.bit.isNatural) : (∃ g, d.connectAll = .ok g) ↔
      ∀ b ∈ ts.map Terminal.binding, ∀ w ∈ b.reads?, ∃ b' ∈ ts.map Terminal.binding,
        b'.drives? = some w := by
  refine exists_connect_iff.trans ?_
  constructor
  · intro hall b hmem w hw
    have hnat := hb b hmem
    obtain ⟨t, ht, rfl⟩ := mem_map.mp hmem
    obtain ⟨-, hbit⟩ := Binding.reads?_eq_some.mp hw
    cases t with
    | output => cases hw
    | literal => cases hbit
    | reader name dir w' c =>
      cases hbit
      have hread : (c, w) ∈ d.readers.map fun r => (r.conn, r.wire) :=
        h.readers.mem_iff.mpr (mem_filterMap.mpr ⟨_, ht, rfl⟩)
      obtain ⟨r, hr, heq⟩ := mem_map.mp hread
      obtain ⟨rfl, rfl⟩ := Prod.mk.inj heq
      exact mem_filterMap.mp ((h.lookup_isSome (of_decide_eq_true hnat)).mp (hall r hr))
  · intro hall r hr
    have hread : (r.conn, r.wire) ∈ ts.filterMap Terminal.read? :=
      h.readers.mem_iff.mp (mem_map_of_mem hr)
    obtain ⟨t, ht, heq⟩ := mem_filterMap.mp hread
    have hmem := mem_map_of_mem (f := Terminal.binding) ht
    cases t with
    | output => cases heq
    | reader name dir w c =>
      cases heq
      have hnat := hb _ hmem
      refine (h.lookup_isSome (of_decide_eq_true hnat)).mpr (mem_filterMap.mpr ?_)
      exact hall _ hmem _ (Binding.reads?_eq_some.mpr ⟨(h.fits _ ht).2, rfl⟩)
    | literal name text value i m o c =>
      -- the constant of a literal is in the table
      obtain ⟨-, hwire⟩ := Prod.mk.inj (Option.some.inj heq)
      rw [← hwire, lookup_isSome_iff]
      exact ⟨_, h.mem_drivers.mpr ⟨_, ht, rfl⟩, by simp⟩

end Draft

/-! ## The whole design -/

namespace Design

variable {d : Design} {name : String}

/-- A well-formed design, condition by condition. -/
theorem wellFormed_iff : d.WellFormed ↔
    (∀ p ∈ d.ports.entries, p.2.direction ∈ ["input", "output", "inout"]) ∧
    (∀ e ∈ d.cells.entries, ∃ k, Library.kindOfType? e.2.type = some k ∧
      ∀ p ∈ e.2.connections.entries, p.2.length = 1 ∧ e.2.HasPort k p.1) ∧ Bindable d.bindings ∧
    ∀ b ∈ d.bindings, ∀ w ∈ b.reads?, ∃ b' ∈ d.bindings, b'.drives? = some w := by
  constructor
  · intro h
    refine ⟨h.portDirection, fun e he => ?_, h.toBindable, h.driven⟩
    obtain ⟨k, hk⟩ := Option.isSome_iff_exists.mp (h.cellType e he)
    exact ⟨k, hk, fun p hp => ⟨h.oneBit e he p hp, h.hasPort e he k hk p hp⟩⟩
  · rintro ⟨hports, hcells, hbind, hdriven⟩
    refine ⟨hbind, hports, fun e he => ?_, fun e he p hp => ?_, fun e he k hk p hp => ?_, hdriven⟩ <;>
      obtain ⟨k', hk', hall⟩ := hcells e he
    · exact Option.isSome_of_eq_some hk'
    · exact (hall p hp).1
    · cases hk'.symm.trans hk
      exact (hall p hp).2

/-- A design has a network if and only if it is well formed. -/
theorem exists_toNetwork_iff (hw : ∀ b ∈ d.bindings, b.bit.isNatural) : (∃ g, d.toNetwork name = .ok g)
    ↔ d.WellFormed := by
  have hports := Draft.exists_addPorts_iff ("modules." ++ name) name
    fun b hb => hw b (mem_append_left _ hb)
  have hcells := fun {pre n ts draft} (h : Draft.Traced pre n ts draft) =>
    h.exists_addCells_iff ("modules." ++ name) fun b hb => hw b (mem_append_right _ hb)
  rw [wellFormed_iff]
  simp only [toNetwork, bind_eq_ok, pure_eq_ok]
  constructor
  · rintro ⟨_, draft, hp, draft', hc, net, hn, rfl⟩
    obtain ⟨ts, hts, htraced⟩ := Draft.exists_traced_addPorts hp
    obtain ⟨_, _, ts', hts', htraced'⟩ := Draft.exists_traced hp hc
    obtain ⟨hcs, hbind⟩ := (hcells htraced).mp ⟨_, hc⟩
    have hdriven := (htraced'.tracks.exists_connectAll_iff (hts' ▸ hw)).mp ⟨_, hn⟩
    rw [hts'] at hdriven
    refine ⟨(hports.mp ⟨_, hp⟩).1, hcs, ?_, hdriven⟩
    rwa [hts] at hbind
  · rintro ⟨hps, hcs, hbind, hdriven⟩
    obtain ⟨draft, hp⟩ := hports.mpr ⟨hps, hbind.of_append⟩
    obtain ⟨ts, hts, htraced⟩ := Draft.exists_traced_addPorts hp
    obtain ⟨draft', hc⟩ := (hcells htraced).mpr ⟨hcs, by rwa [hts]⟩
    obtain ⟨_, _, ts', hts', htraced'⟩ := Draft.exists_traced hp hc
    obtain ⟨net, hn⟩ := (htraced'.tracks.exists_connectAll_iff (hts' ▸ hw)).mpr (by rwa [hts'])
    exact ⟨_, draft, hp, draft', hc, net, hn, rfl⟩

/-- A design whose wires have numbers that are not negative has a network if and only if it is well
formed. The network then passes the check, every connection that can be driven has one wire, and the
module has one connection for each bit of each port, in order. -/
theorem exists_network_iff (hw : ∀ b ∈ d.bindings, b.bit.isNatural = true) :
    ((∃ g, d.toNetwork name = .ok g) ↔ d.WellFormed) ∧ ∀ g, d.toNetwork name = .ok g →
      (∀ n ∈ designId :: g.cells, g.checkNode n = .ok ()) ∧
      (∀ n, ∀ c ∈ g.connsOf n, g.isSink c = true → ∃ o, g.refsOf c = [o]) ∧
      List.Forall₂ g.Labelled (d.ports.entries.flatMap Draft.portBits) (g.connsOf designId) := by
  refine ⟨exists_toNetwork_iff hw, fun g hg => ?_⟩
  have hbuilt := built_toNetwork hg
  refine ⟨fun n hn => hbuilt.sound.checkNode ?_, fun n c => hbuilt.driven, hbuilt.covers.ports⟩
  rcases mem_cons.mp hn with rfl | hn
  · exact isSome_of_kindOf? hbuilt.sound.design_kind
  · exact hbuilt.sound.cell_isSome hn

/-- A flip-flop that toggles, behind a tri-state buffer that drives the wire `w`. -/
def toggle (w : Int) : Design where
  ports := .ofList [("clk", ⟨"input", [.wire 2]⟩), ("en", ⟨"input", [.wire 4]⟩),
    ("io", ⟨"inout", [.wire 5]⟩)]
  cells := .ofList [
    ("b", ⟨"$_TBUF_", .ofList [("A", "input"), ("E", "input"), ("Y", "output")],
      .ofList [("A", [.wire 3]), ("E", [.wire 4]), ("Y", [.wire w])]⟩),
    ("n", ⟨"$_NOT_", .ofList [("A", "input"), ("Y", "output")],
      .ofList [("A", [.wire 3]), ("Y", [.wire 6])]⟩),
    ("r", ⟨"FDCP", .empty,
      .ofList [("CK", [.wire 2]), ("D", [.wire 6]), ("AR", [.literal "0"]), ("Q", [.wire 3])]⟩)]
  nets := .empty

/-- If the buffer drives the port, the design has a network; if it drives the output of the flip-flop,
it has none. -/
theorem exists_network_iff_toggle :
    (∀ b ∈ (toggle 5).bindings, b.bit.isNatural = true) ∧ (toggle 5).WellFormed ∧
    (∃ g, (toggle 5).toNetwork "m" = .ok g ∧
      (∀ n ∈ designId :: g.cells, g.checkNode n = .ok ()) ∧
      (∀ n, ∀ c ∈ g.connsOf n, g.isSink c = true → ∃ o, g.refsOf c = [o]) ∧
      List.Forall₂ g.Labelled ((toggle 5).ports.entries.flatMap Draft.portBits)
        (g.connsOf designId)) ∧
    ¬ ∃ g, (toggle 3).toNetwork "m" = .ok g := by
  have hw : ∀ b ∈ (toggle 5).bindings, b.bit.isNatural = true := by decide +kernel
  obtain ⟨g, hg⟩ := exists_of_isOk (x := (toggle 5).toNetwork "m") (by decide +kernel)
  refine ⟨hw, (exists_network_iff hw).1.mp ⟨g, hg⟩, ⟨g, hg, (exists_network_iff hw).2 g hg⟩, fun h => ?_⟩
  have hform : (toggle 3).WellFormed := (exists_network_iff (by decide +kernel)).1.mp h
  have hnot : ¬ ((toggle 3).bindings.filterMap Binding.drives?).Nodup := by decide +kernel
  exact hnot hform.outputs

end Design

end PldSynth
