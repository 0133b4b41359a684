import PldSynth.Proofs.Netlist.Draft
import PldSynth.Proofs.Network.Cycle
import PldSynth.Proofs.Network.Retirement

/-!
# The network of a design

What holds of a network that was just drawn from a design (`Design.Built`): it is in order, has no
pins and no pin nodes yet, every connection that can be driven is driven by one output, and its nodes
are the cells and literals of the design. If it also passes the search for circles, and the gates have
one output each, the passes can start from it (`Design.Built.fresh`).
-/

namespace PldSynth

open List Network

variable {g g' g'' : Network} {n : NodeId} {c : ConnId}
  {α : Type} {registers : List (Int × NodeId)} {name : String} {d : Design}
  {ports : List (String × List Bit)} {K : NodeKind → Bool}

/-! ## Names of registers -/

namespace Network

/-- `g'` is `g` up to the names of nodes. -/
structure Renamed (g g' : Network) : Prop extends Relabels g g' where
  conn? : ∀ c, g'.conn? c = g.conn? c

theorem Renamed.refl (g : Network) : Renamed g g :=
  ⟨.refl g, fun _ => rfl⟩

theorem Renamed.trans (h : Renamed g g') (h' : Renamed g' g'') : Renamed g g'' :=
  ⟨h.toRelabels.trans h'.toRelabels, fun c => (h'.conn? c).trans (h.conn? c)⟩

theorem renamed_renameNode (s : String) : Renamed g (g.renameNode n s) :=
  ⟨relabels_renameNode s, fun _ => rfl⟩

theorem renamed_foldl {f : Network → α → Network} (hf : ∀ g x, Renamed g (f g x))
    (l : List α) (g : Network) : Renamed g (l.foldl f g) := by
  induction l generalizing g with
  | nil => exact .refl g
  | cons x l ih => exact (hf g x).trans (ih (f g x))

end Network

theorem Draft.renamed_nameRegister {width : Nat}
    (g : Network) (bit : Bit × Nat) : Renamed g (nameRegister registers name width g bit) := by
  unfold nameRegister
  split
  · exact .refl g
  · split
    · exact .refl g
    · exact renamed_renameNode _

theorem Draft.renamed_nameRegisters (g : Network)
    (net : String × Net) : Renamed g (nameRegisters registers g net) := by
  unfold nameRegisters
  split
  · exact renamed_foldl renamed_nameRegister _ g
  · exact .refl g

/-! ## The finished network -/

/-- The network was drawn from the design. -/
structure Design.Built (d : Design) (g : Network) : Prop where
  sound : g.Sound
  pins : g.pins = []
  pinNodes : g.pinNodes = []
  names : g.pinNodeNames = 0
  unmerged : ∀ n, g.absorbedOf n = .nothing
  constants : ∀ {n}, g.kindOf? n = some .constant →
    ∃ o, g.connsOf n = [o] ∧ g.directionOf? o = some .output
  driven : ∀ {n c}, c ∈ g.connsOf n → g.isSink c = true → ∃ o, g.refsOf c = [o]
  covers : Draft.Covers (d.ports.entries.flatMap Draft.portBits) d.cells.entries g

/-- Renaming nodes leaves a network that was drawn from the design. -/
theorem Design.Built.renamed (h : d.Built g) (hr : Renamed g g') : d.Built g' where
  sound := hr.alike.sound h.sound
  pins := hr.alike.pins.trans h.pins
  pinNodes := hr.alike.pinNodes.trans h.pinNodes
  names := hr.alike.names.trans h.names
  unmerged n := (hr.absorbedOf n).trans (h.unmerged n)
  constants hn := by
    rw [hr.alike.kindOf?] at hn
    simpa only [hr.alike.connsOf, hr.alike.directionOf?] using h.constants hn
  driven hc hs := by
    rw [hr.alike.connsOf] at hc
    rw [hr.alike.isSink] at hs
    rw [hr.alike.refsOf]
    exact h.driven hc hs
  covers := h.covers.congr hr.alike.kindOf? hr.alike.connsOf fun {_ c} hl =>
    (Labelled.congr (hr.conn? c)).mpr hl

/-- Drawing the wires of a draft in order gives a network in order. -/
theorem Draft.Valid.built {draft : Draft} (h : draft.Valid [])
    (hc : Covers (d.ports.entries.flatMap portBits) d.cells.entries draft.net)
    (hrun : draft.connectAll = .ok g) : d.Built g := by
  obtain ⟨hg, ⟨f, hf⟩, hwired⟩ := h.connectAll_spec hrun
  have hlab : ∀ {e c}, draft.net.Labelled e c → g.Labelled e c := by
    intro e c hl
    rw [Labelled, hf.connNameOf?, hf.directionOf?]
    exact hl
  refine ⟨hg, hf.pins.trans h.pins, hf.pinNodes.trans h.pinNodes, hf.names.trans h.names,
    fun n => hf.absorbedOf.trans (h.unmerged n), fun hn => ?_, fun {n c} hc hs => ?_,
    hc.congr (fun _ => hf.kindOf?) (fun _ => hf.connsOf) hlab⟩
  · rw [hf.kindOf?] at hn
    simpa only [hf.connsOf, hf.directionOf?] using h.constants hn
  · rw [hf.connsOf] at hc
    rw [isSink_congr hf.directionOf?] at hs
    have hread := h.reads hc hs
    rw [append_nil] at hread
    obtain ⟨r, hr, rfl⟩ := mem_map.mp hread
    obtain ⟨o, -, ho⟩ := hwired r hr
    exact ⟨o, ho⟩

theorem Design.built_toNetwork (h : d.toNetwork name = .ok g) : d.Built g := by
  simp only [Design.toNetwork, Attempt.bind_eq_ok, Attempt.pure_eq_ok] at h
  obtain ⟨draft, hports, draft', hcells, net, hnet, rfl⟩ := h
  obtain ⟨hv, hc⟩ := Draft.covers_addPorts hports
  obtain ⟨hv', hc'⟩ := Draft.covers_addCells hv hc hcells
  exact (hv'.built hc' hnet).renamed (renamed_foldl Draft.renamed_nameRegisters _ net)

/-! ## Regular cells -/

/-- The cell has one output at most and no bidirectional port. -/
def Cell.isRegular (cell : Cell) : Bool :=
  cell.connections.entries.countP (fun p => cell.portDirections.get? p.1 == some "output") ≤ 1 &&
    cell.connections.entries.all fun p => cell.portDirections.get? p.1 != some "inout"

theorem Network.loneAt_of_countP (h : (g.connsOf n).countP g.isOutput ≤ 1) : g.LoneAt n := by
  intro o o' ho ho' hout hout'
  rw [countP_eq_length_filter] at h
  have hmem : o ∈ (g.connsOf n).filter g.isOutput := mem_filter.mpr ⟨ho, hout⟩
  have hmem' : o' ∈ (g.connsOf n).filter g.isOutput := mem_filter.mpr ⟨ho', hout'⟩
  match hl : (g.connsOf n).filter g.isOutput, h with
  | [], _ => simp [hl] at hmem
  | [a], _ =>
    rw [hl, mem_singleton] at hmem hmem'
    exact hmem.trans hmem'.symm

/-- The word that a netlist has for a direction. -/
def Direction.word : Direction → String
  | .input => "input"
  | .output => "output"
  | .bidirectional => "inout"

theorem Direction.ofWord?_eq_some {word : String} {dir : Direction}
    (h : Direction.ofWord? word = some dir) : word = dir.word := by
  unfold Direction.ofWord? at h
  split at h <;> cases h <;> rfl

theorem Dict.nodup_keys (d : Dict α) : (d.entries.map Prod.fst).Nodup := by
  apply (pairwise_map.mpr d.sorted).imp
  intro a b hlt heq
  exact String.lt_irrefl b (heq ▸ hlt)

namespace Draft

variable {cell : Cell} {k : NodeKind} {port : String} {dir : Direction}

/-- The ports of a gate or buffer face as the netlist says. -/
theorem Faces.get? (h : Faces cell k port dir) (hk : k.isRegister = false) :
    cell.portDirections.get? port = some dir.word := by
  obtain ⟨path, h⟩ := h
  simp only [cellPortDirection, hk, Bool.false_eq_true, if_false] at h
  split at h
  · cases h
  · split at h
    · rename_i word hword _ dir' hdir
      cases h
      rw [hword, Direction.ofWord?_eq_some hdir]
    · cases h

/-- A register has one output, by its name. -/
theorem Faces.register (h : Faces cell k port dir) (hk : k.isRegister) :
    dir = .output ∧ port = "Q" ∨ dir = .input ∧ port ≠ "Q" := by
  obtain ⟨path, h⟩ := h
  simp only [cellPortDirection, hk, if_true] at h
  have hname : Library.portName k port = "Q" ↔ port = "Q" := by
    unfold Library.portName
    split <;> simp
  split at h
  · rename_i dir' hdir
    cases h
    simp only [Library.registerDirection?, hname] at hdir
    split at hdir
    · rename_i hq
      cases hdir
      exact .inl ⟨rfl, hq⟩
    · rename_i hq
      split at hdir
      · cases hdir
        exact .inr ⟨rfl, hq⟩
      · cases hdir
  · cases h

/-- A node has as many outputs as its cell has ports that face out. -/
theorem Drawn.countP_eq {p : String → Bool} (h : Drawn cell k ports g n)
    (hp : ∀ {port dir}, Faces cell k port dir → p port = (dir == .output)) :
    (g.connsOf n).countP g.isOutput = ports.countP fun q => p q.1 := by
  have hconns := h.conns
  clear h
  generalize g.connsOf n = l at hconns
  induction hconns with
  | nil => rfl
  | @cons q c ports l hc _ ih =>
    obtain ⟨dir, hf, -, hdir⟩ := hc
    have hcq : g.isOutput c = p q.1 := by
      rw [isOutput, hdir, hp hf]
      cases dir <;> rfl
    rw [countP_cons, countP_cons, ih, hcq]

/-- Every connection stands for a port. -/
theorem Drawn.exists_port (h : Drawn cell k ports g n)
    (hc : c ∈ g.connsOf n) : ∃ q ∈ ports, ∃ dir, Faces cell k q.1 dir ∧
      g.connNameOf? c = some (Library.portName k q.1) ∧ g.directionOf? c = some dir := by
  have hconns := h.conns
  clear h
  generalize g.connsOf n = l at hconns hc
  induction hconns with
  | nil => cases hc
  | @cons q e ports l he _ ih =>
    rcases mem_cons.mp hc with rfl | hc
    · obtain ⟨dir, hf, hlabel⟩ := he
      exact ⟨q, mem_cons_self, dir, hf, hlabel⟩
    · obtain ⟨q', hq', hrest⟩ := ih hc
      exact ⟨q', mem_cons_of_mem q hq', hrest⟩

theorem plainAt_of_drawn (h : Drawn cell k ports g n)
    (hdir : ∀ q ∈ ports, ∀ dir, Faces cell k q.1 dir → dir ≠ .bidirectional) : g.PlainAt n := by
  intro c hc
  obtain ⟨q, hq, dir, hf, -, hd⟩ := h.exists_port hc
  have hne := hdir q hq dir hf
  cases dir with
  | input => exact .inl (by rw [isInput, hd]; rfl)
  | output => exact .inr (by rw [isOutput, hd]; rfl)
  | bidirectional => exact absurd rfl hne

/-- A cell with one output at most in the netlist has one output at most in the network. -/
theorem Drawn.loneAt (h : Drawn cell k cell.connections.entries g n) (hk : k.isRegister = false)
    (hcell : cell.connections.entries.countP
      (fun p => cell.portDirections.get? p.1 == some "output") ≤ 1) : g.LoneAt n := by
  apply loneAt_of_countP
  rw [h.countP_eq (p := fun port => cell.portDirections.get? port == some "output")]
  · exact hcell
  · intro port dir hf
    rw [hf.get? hk]
    cases dir <;> rfl

/-- A cell that is regular in the netlist is regular in the network. -/
theorem Drawn.regularAt (h : Drawn cell k cell.connections.entries g n) (hk : k.isRegister = false)
    (hconst : k ≠ .constant) (hcell : cell.isRegular) : g.RegularAt n := by
  simp only [Cell.isRegular, Bool.and_eq_true, decide_eq_true_eq, all_eq_true, bne_iff_ne] at hcell
  refine ⟨h.loneAt hk hcell.1, fun _ => plainAt_of_drawn h ?_,
    fun hc => absurd (Option.mem_unique h.kind hc) hconst⟩
  rintro q hq dir hf rfl
  exact hcell.2 q hq (hf.get? hk)

/-- A register is regular, whatever the netlist says. -/
theorem Drawn.regularAt_register (h : Drawn cell k cell.connections.entries g n)
    (hk : k.isRegister) : g.RegularAt n := by
  have hconst : k ≠ .constant := by
    rintro rfl
    cases hk
  refine ⟨loneAt_of_countP ?_, fun _ => plainAt_of_drawn h ?_,
    fun hc => absurd (Option.mem_unique h.kind hc) hconst⟩
  · rw [h.countP_eq (p := fun port => port == "Q")]
    · have hcount := nodup_iff_count_le_one.mp cell.connections.nodup_keys "Q"
      rwa [count_eq_countP, countP_map] at hcount
    · intro port dir hf
      rcases hf.register hk with ⟨rfl, rfl⟩ | ⟨rfl, hq⟩
      · rfl
      · simpa using hq
  · rintro q - dir hf rfl
    rcases hf.register hk with ⟨h', -⟩ | ⟨h', -⟩ <;> cases h'

end Draft

/-- A predicate on cells, kinds exempted by `r` apart, makes the cells of the kinds in `K` regular. -/
theorem Design.regular_of_all {r : Option NodeKind → Bool} {q : Cell → Bool}
    (hd : d.cells.entries.all fun e => r (Library.kindOfType? e.2.type) || q e.2)
    (hr : ∀ k, K k → r (some k) → k.isRegister) (hq : ∀ cell, q cell → cell.isRegular) :
    ∀ e ∈ d.cells.entries, ∀ k, Library.kindOfType? e.2.type = some k → K k →
      k.isRegister ∨ e.2.isRegular := by
  intro e he k hk hKk
  have hcell := all_eq_true.mp hd e he
  rw [hk, Bool.or_eq_true] at hcell
  exact hcell.imp (hr k hKk) (hq e.2)

/-- If the cells of the kinds in `K` are regular, the passes can start. -/
theorem Design.Built.raw (h : d.Built g)
    (hK : ∀ e ∈ d.cells.entries, ∀ k, Library.kindOfType? e.2.type = some k → K k →
      k.isRegister ∨ e.2.isRegular) (hdesign : K .design = false) : g.Raw K where
  toSound := h.sound
  regular {n} hn := by
    obtain ⟨k, hk, hp⟩ := hasKind_iff.mp hn
    rcases h.covers.cells hk with rfl | rfl | ⟨e, he, htype, hdrawn⟩
    · simp [hdesign, NodeKind.isNamed] at hp
    · obtain ⟨o, ho, hdir⟩ := h.constants hk
      have hout : ∀ {c}, c ∈ g.connsOf n → g.isOutput c := by
        intro c hc
        rw [ho, mem_singleton] at hc
        rw [isOutput, hc, hdir]
        rfl
      refine ⟨fun a b ha hb _ _ => ?_, fun _ c hc => .inr (hout hc), fun _ c hc =>
        not_isSink_of_isOutput (hout hc)⟩
      rw [ho, mem_singleton] at ha hb
      exact ha.trans hb.symm
    · cases hreg : k.isRegister with
      | true => exact hdrawn.regularAt_register hreg
      | false =>
        obtain ⟨hcell, hconst⟩ := Draft.isCell_of_kindOfType? htype
        have hKk : K k := by
          simpa [NodeKind.isNamed_of_isCell hcell, hconst] using hp
        exact hdrawn.regularAt hreg hconst ((hK e he k htype hKk).resolve_left (by simp [hreg]))
  unmerged := h.unmerged
  single {n c c'} hn := by
    obtain ⟨k, hk, hp⟩ := hasKind_iff.mp hn
    rcases h.covers.cells hk with rfl | rfl | ⟨e, he, htype, -⟩
    · cases hp
    · cases hp
    · obtain ⟨hcell, -⟩ := Draft.isCell_of_kindOfType? htype
      rw [NodeKind.isNamed_of_isCell hcell] at hp
      cases hp
  driven := h.driven

/-- If no gates drive each other in a circle either, every driver has a value. -/
theorem Design.Built.fresh (h : d.Built g)
    (hK : ∀ e ∈ d.cells.entries, ∀ k, Library.kindOfType? e.2.type = some k → K k →
      k.isRegister ∨ e.2.isRegular)
    (hdesign : K .design = false) (hloops : g.checkLoops = .ok ()) : g.Fresh K :=
  ⟨h.raw hK hdesign,
    settled_of_wellFounded h.sound (wellFounded_feeds h.sound h.pins h.pinNodes hloops)⟩

/-! ## Computations on the network -/

/-- What a computation on the network of a design gives, if neither fails. -/
def Design.run? (d : Design) (name : String) (f : Network → Attempt α) : Option α :=
  (d.toNetwork name).toOption.bind fun g => (f g).toOption

theorem Design.run?_eq_some {f : Network → Attempt α} {a : α} :
    d.run? name f = some a ↔ ∃ g, d.toNetwork name = .ok g ∧ f g = .ok a := by
  simp only [run?, Option.bind_eq_some_iff, Attempt.toOption_eq_some]

end PldSynth
