import PldSynth.Proofs.Netlist.Reordering

/-!
# Cells that stay out of each other's way

Buffers and registers are taken over one after the other, and one takeover can stand in the way of
another if a buffer reads another buffer, or if a register reads another register that a bidirectional
port reads too. Here are the designs in which this does not happen, and what follows for their networks.
-/

namespace PldSynth

open Network

namespace Design

/-- No buffer reads another buffer. -/
def BuffersApart (d : Design) : Prop :=
  ∀ e ∈ d.cells.entries, ∀ e' ∈ d.cells.entries, Library.kindOfType? e.2.type = some .triState →
    Library.kindOfType? e'.2.type = some .triState → ∀ b ∈ e.2.bindings, ∀ b' ∈ e'.2.bindings,
    ∀ w ∈ b.drives?, b'.reads? = some w → e.1 = e'.1

instance (d : Design) : Decidable d.BuffersApart := by
  unfold BuffersApart
  infer_instance

/-- If a bidirectional port reads a register, no other register does. -/
def RegistersApart (d : Design) : Prop :=
  ∀ e ∈ d.cells.entries, ∀ e' ∈ d.cells.entries, (Library.kindOfType? e.2.type).any NodeKind.isRegister →
    (Library.kindOfType? e'.2.type).any NodeKind.isRegister → ∀ b ∈ e.2.bindings, ∀ b' ∈ e'.2.bindings,
    ∀ w ∈ b.drives?, b'.reads? = some w →
    ∀ p ∈ d.ports.entries.flatMap Port.bindings, p.direction = .bidirectional → p.reads? = some w →
    e.1 = e'.1

instance (d : Design) : Decidable d.RegistersApart := by
  unfold RegistersApart
  infer_instance

variable {d : Design} {g : Network} {ns : List NodeId} {n n' m : NodeId} {c o x : ConnId}

namespace Faithful

variable (hd : d.Faithful ns g)
include hd

/-- A node with connections that is neither a constant nor the design stands for a cell. -/
theorem exists_cell {k : NodeKind} (hc : c ∈ g.connsOf n) (hk : g.kindOf? n = some k)
    (hconst : k ≠ .constant) (hdesign : k ≠ .design) : ∃ (i : Nat) (e : String × Cell),
      d.cells.entries[i]? = some e ∧ ns[i]? = some n ∧ Library.kindOfType? e.2.type = some k ∧
      ∀ c ∈ g.connsOf n, ∃ b ∈ e.2.bindings, (b, c) ∈ d.bindings.zip g.boundConns := by
  have hn := hd.mem_boundNodes hc fun h => hconst (Option.mem_unique hk h)
  rw [hd.nodes, List.mem_cons] at hn
  rcases hn with rfl | hn
  · rw [hd.sound.design_kind] at hk
    exact absurd (Option.some.inj hk).symm hdesign
  · rcases List.mem_iff_getElem?.mp hn with ⟨i, hi⟩
    rcases forall₂_getElem? hd.toRows.cells hi with ⟨cell, hcell, ⟨k', htype, hk'⟩, hbs⟩
    rw [List.getElem?_map, Option.map_eq_some_iff] at hcell
    rcases hcell with ⟨e, he, rfl⟩
    rw [← Option.mem_unique hk hk'] at htype
    refine ⟨i, e, he, hi, htype, fun c hc => ?_⟩
    rcases exists_left_of_forall₂ hbs hc with ⟨b, hb, hz⟩
    exact ⟨b, hb, hz⟩

omit hd in
/-- Nodes that stand for cells of the same name are the same. -/
theorem eq_of_key {i j : Nat} {e e' : String × Cell} (he : d.cells.entries[i]? = some e)
    (he' : d.cells.entries[j]? = some e') (hi : ns[i]? = some n) (hj : ns[j]? = some n')
    (heq : e.1 = e'.1) : n' = n := by
  have hkey : (d.cells.entries.map Prod.fst)[i]? = (d.cells.entries.map Prod.fst)[j]? := by
    rw [List.getElem?_map, List.getElem?_map, he, he', Option.map_some, Option.map_some, heq]
  have hlt : i < (d.cells.entries.map Prod.fst).length := by
    rw [List.length_map]
    exact (List.getElem?_eq_some_iff.mp he).1
  rw [(List.getElem?_inj hlt d.cells.nodup_keys).mp hkey, hj] at hi
  exact Option.some.inj hi

theorem exists_binding (hc : c ∈ g.boundConns) : ∃ b, (b, c) ∈ d.bindings.zip g.boundConns := by
  rcases List.mem_flatMap.mp hc with ⟨n, hn, hc⟩
  rw [hd.nodes, List.mem_cons] at hn
  rcases hn with rfl | hn
  · rcases exists_left_of_forall₂ hd.toRows.ports hc with ⟨b, -, hz⟩
    exact ⟨b, hz⟩
  · rcases exists_left_of_forall₂ hd.toRows.cells hn with ⟨cell, -, -, hbs⟩
    rcases exists_left_of_forall₂ hbs hc with ⟨b, -, hz⟩
    exact ⟨b, hz⟩

/-- Ports are connections of the design itself. -/
theorem eq_designId (hc : c ∈ g.connsOf n) (hn : g.hasKind NodeKind.isOuter n) : n = designId := by
  rcases hasKind_iff.mp hn with ⟨k, hk, houter⟩
  have hconst : g.kindOf? n ≠ some .constant := by
    rw [hk]
    rintro ⟨⟩
    cases houter
  have hmem := hd.mem_boundNodes hc hconst
  rw [hd.nodes, List.mem_cons] at hmem
  rcases hmem with hmem | hmem
  · exact hmem
  · rcases exists_left_of_forall₂ hd.toRows.cells hmem with ⟨cell, -, ⟨k', htype, hk'⟩, -⟩
    obtain rfl : k = k' := Option.mem_unique hk hk'
    have hcell := (Draft.isCell_of_kindOfType? htype).1
    cases k with
    | design | pin => cases hcell
    | _ => cases houter

/-- What drives a connection is bound to the wire that the connection reads, or it is the constant of a
literal, which drives nothing else. -/
theorem driver_cases (hr : g.ReadAt o c n) :
    (∃ b b' w, (b, o) ∈ d.bindings.zip g.boundConns ∧ b.drives? = some w ∧
      (b', c) ∈ d.bindings.zip g.boundConns ∧ b'.reads? = some w) ∨
    ∃ m value, g.IsConstant m o value ∧ g.refsOf o = [c] := by
  have hn := hd.mem_boundNodes hr.mem (hd.not_constant_of_isSink hr.mem hr.sink)
  have hbound : c ∈ g.boundConns := List.mem_flatMap.mpr ⟨n, hn, hr.mem⟩
  rcases hd.exists_binding hbound with ⟨b, hz⟩
  have hdir : b.direction ≠ .output := by
    intro hdir
    have hs := hr.sink
    rw [isSink, (hd.labelled hz).2, hdir] at hs
    cases hs
  cases hbit : b.bit with
  | wire w =>
    have hreads : b.reads? = some w := Binding.reads?_eq_some.mpr ⟨hdir, hbit⟩
    rcases hd.wire hz hreads with ⟨p, hp, hall⟩
    obtain rfl : o = p := by simpa [hp] using hr.refs
    rcases (hall o).mpr rfl with ⟨b', hb', hdrives⟩
    exact .inl ⟨b', b, w, hb', hdrives, hz, hreads⟩
  | literal text =>
    rcases hd.literal hz hbit with ⟨m, p, value, -, hconst, hp, hback⟩
    obtain rfl : o = p := by simpa [hp] using hr.refs
    exact .inr ⟨m, value, hconst, hback⟩

/-- The wire between an output of a cell and what reads it. -/
theorem exists_wire (hr : g.ReadAt o c n) (hm : o ∈ g.connsOf m) (hk : g.kindOf? m ≠ some .constant) :
    ∃ b b' w, (b, o) ∈ d.bindings.zip g.boundConns ∧ b.drives? = some w ∧
      (b', c) ∈ d.bindings.zip g.boundConns ∧ b'.reads? = some w := by
  rcases hd.driver_cases hr with hwire | ⟨m', value, hconst, -⟩
  · exact hwire
  · have ho : o ∈ g.connsOf m' := by simp [hconst.conns]
    rw [hd.sound.eq_of_mem hm ho] at hk
    exact absurd hconst.kind hk

/-- The constant of a literal drives nothing else. -/
theorem constantsSole : g.ConstantsSole := by
  intro m o hk ho
  match hrefs : g.refsOf o with
  | [] => simp
  | c :: rest =>
    have hmem : c ∈ g.refsOf o := by simp [hrefs]
    rcases hd.constants hk with ⟨p, hp, hdir⟩
    obtain rfl : o = p := by simpa [hp] using ho
    have hout : g.isOutput o := by
      rw [isOutput, hdir]
      rfl
    have hback := hd.sound.mirror hmem
    rcases hd.sound.listed hback with ⟨n, hc⟩
    have hr : g.ReadAt o c n := ⟨hc, hd.sound.sink_of_output hmem hout, hback⟩
    rcases hd.driver_cases hr with ⟨b, -, -, hz, -⟩ | ⟨m', value, -, hsole⟩
    · -- what is bound belongs to a node that is no constant
      rcases List.mem_flatMap.mp (List.of_mem_zip hz).2 with ⟨m', hm', ho'⟩
      rw [hd.sound.eq_of_mem ho ho'] at hk
      exact absurd hk (hd.sound.toOwned.not_constant_boundNodes hm')
    · rw [← hrefs, hsole]
      simp

/-- No buffer reads another one in the network. -/
theorem buffersApart (h : d.BuffersApart) : g.BuffersApart := by
  intro b b' p x hb hp _ hb' hr
  rcases hd.exists_cell hp hb nofun nofun with ⟨i, e, he, hi, htype, hbs⟩
  rcases hd.exists_cell hr.mem hb' nofun nofun with ⟨j, e', he', hj, htype', hbs'⟩
  rcases hd.exists_wire hr hp (by simp [hb]) with ⟨β, β', w, hz, hdrives, hz', hreads⟩
  rcases hbs p hp with ⟨γ, hγ, hzγ⟩
  rcases hbs' x hr.mem with ⟨γ', hγ', hzγ'⟩
  rw [hd.binding_inj hz hzγ] at hdrives
  rw [hd.binding_inj hz' hzγ'] at hreads
  exact eq_of_key he he' hi hj (h e (List.mem_of_getElem? he) e' (List.mem_of_getElem? he') htype htype'
    γ hγ γ' hγ' w hdrives hreads)

/-- If a bidirectional port reads a register in the network, no other register does. -/
theorem registersApart (h : d.RegistersApart) : g.RegistersApart := by
  intro r r' o c n x hr ho _ hn _ hport hdir hr' hread
  rcases hasKind_iff.mp hr with ⟨k, hk, hreg⟩
  rcases hasKind_iff.mp hr' with ⟨k', hk', hreg'⟩
  have hne : ∀ {k : NodeKind}, k.isRegister → k ≠ .constant ∧ k ≠ .design := by
    intro k hk
    constructor <;> rintro rfl <;> cases hk
  rcases hd.exists_cell ho hk (hne hreg).1 (hne hreg).2 with ⟨i, e, he, hi, htype, hbs⟩
  rcases hd.exists_cell hread.mem hk' (hne hreg').1 (hne hreg').2 with ⟨j, e', he', hj, htype', hbs'⟩
  have hconst : g.kindOf? r ≠ some .constant := by
    rw [hk]
    exact fun heq => (hne hreg).1 (Option.some.inj heq)
  rcases hd.exists_wire hread ho hconst with ⟨β, β', w, hz, hdrives, hz', hreads⟩
  rcases hd.exists_wire hport ho hconst with ⟨β2, π, w', hz2, hdrives2, hzπ, hreadsπ⟩
  obtain rfl : β = β2 := hd.binding_inj hz hz2
  obtain rfl : w = w' := Option.mem_unique hdrives hdrives2
  rcases hbs o ho with ⟨γ, hγ, hzγ⟩
  rcases hbs' x hread.mem with ⟨γ', hγ', hzγ'⟩
  rw [hd.binding_inj hz hzγ] at hdrives
  rw [hd.binding_inj hz' hzγ'] at hreads
  -- the port is one of the design itself
  have hports : π ∈ d.ports.entries.flatMap Port.bindings := by
    rcases exists_left_of_forall₂ hd.toRows.ports (hd.eq_designId hport.mem hn ▸ hport.mem) with ⟨π', hπ', hz⟩
    rwa [hd.binding_inj hzπ hz]
  have hdirπ : π.direction = .bidirectional :=
    Option.some.inj ((hd.labelled hzπ).2.symm.trans hdir)
  exact eq_of_key he he' hi hj (h e (List.mem_of_getElem? he) e' (List.mem_of_getElem? he')
    (by simp [htype, hreg]) (by simp [htype', hreg']) γ hγ γ' hγ' w hdrives hreads π hports hdirπ hreadsπ)

end Faithful

end Design

end PldSynth
