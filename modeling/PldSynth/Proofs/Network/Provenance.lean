import PldSynth.Proofs.Network.Layers

/-!
# Where the inputs of a pin or pin node come from

A pin or pin node starts with one input of its own, which bears the name of the node or the one that
every pin node gives to its input. Whatever else stands on it at the end is an input of a register or a
buffer that it took over, and such an input keeps its name on the way. `Traced` states both, and the
passes keep it from the network of a design on.
-/

namespace PldSynth.Network

open PldSynth.NodeKind (isNamed isSequential)
open List

variable {K : NodeKind → Bool} {g g' h : Network} {n m t a b : NodeId}
  {c c' d x o p input output kept : ConnId} {s : String} {source : Node} {u : Takeover} {r : Bool × Network}

/-! ## Ports of cells -/

/-- `c` is the input `s` of the register or buffer `n`. -/
structure IsPort (g : Network) (n : NodeId) (c : ConnId) (s : String) : Prop where
  kind : g.hasKind isSequential n = true
  mem : c ∈ g.connsOf n
  isInput : g.isInput c = true
  name : g.connNameOf? c = some s

/-- `c` is an input of a register or buffer. -/
def FromCell (g : Network) (c : ConnId) : Prop :=
  ∃ n s, g.IsPort n c s

/-- `c` bears the name of the node `t` or the one that pin nodes give to their input. -/
def StandsFor (g : Network) (t : NodeId) (c : ConnId) : Prop :=
  g.connNameOf? c = g.nodeNameOf? t ∨ g.connNameOf? c = some pinNodeInput

theorem FromCell.conn_isSome (hc : g.FromCell c) : (g.conn? c).isSome := by
  rcases hc with ⟨n, s, hp⟩
  exact isSome_of_connNameOf? hp.name

/-- A connection that belongs to no register and no buffer is not an input of one. -/
theorem Owned.not_fromCell (hg : g.Owned) (hc : c ∈ g.connsOf n)
    (hk : g.hasKind isSequential n = false) : ¬ g.FromCell c := by
  rintro ⟨m, s, hp⟩
  rw [hg.eq_of_mem hc hp.mem, hp.kind] at hk
  cases hk

/-! ## What is kept -/

/-- `h` comes from `g`, and every input of a pin or pin node of `h` is one of a register or buffer of
`g`, with the name it has there, or stands for the node itself. Of the latter there is at most one. -/
structure Traced (g h : Network) : Prop where
  evolves : Evolves g h
  cell : ∀ {n}, h.hasKind isSequential n = true → g.hasKind isSequential n = true
  port : ∀ {n c s}, g.IsPort n c s → h.connNameOf? c = some s
  named : ∀ {t c}, h.hasKind isNamed t = true → c ∈ h.connsOf t → h.isSink c = true →
    g.FromCell c ∨ h.StandsFor t c
  single : ∀ {t c c'}, h.hasKind isNamed t = true → c ∈ h.connsOf t → c' ∈ h.connsOf t →
    h.isSink c = true → h.isSink c' = true → ¬ g.FromCell c → ¬ g.FromCell c' → c = c'

/-- No pin or pin node has taken anything over from a register or buffer of `g` yet. -/
def Untaken (g h : Network) : Prop :=
  ∀ ⦃t c⦄, h.hasKind isNamed t = true → c ∈ h.connsOf t → ¬ g.FromCell c

theorem Owned.not_isNamed (hg : g.Owned) (hpins : g.pins = []) (hpinNodes : g.pinNodes = [])
    (hc : c ∈ g.connsOf t) : g.hasKind isNamed t ≠ true := by
  intro hk
  have hmem := hg.mem_of_isNamed hc hk
  rw [hpins, hpinNodes] at hmem
  cases hmem

theorem Traced.refl (hg : g.Owned) (hpins : g.pins = []) (hpinNodes : g.pinNodes = []) : Traced g g where
  evolves := .refl g
  cell hk := hk
  port hp := hp.name
  named hk hc _ := absurd hk (hg.not_isNamed hpins hpinNodes hc)
  single hk hc := absurd hk (hg.not_isNamed hpins hpinNodes hc)

namespace Traced

variable (ht : Traced g h)
include ht

/-- An input that still belongs to a register or buffer has belonged to it from the start. -/
theorem isPort (hg : g.Owned) (hk : h.hasKind isSequential n) (hc : c ∈ h.connsOf n) (hi : h.isInput c) :
    ∃ s, g.IsPort n c s := by
  have hcell := ht.cell hk
  have hmem := ht.evolves.shrinks (isSome_of_hasKind hcell) (not_isNamed_of_isSequential hcell) hc
  have hsome := hg.conn_isSome hmem
  rcases Option.isSome_iff_exists.mp hsome with ⟨y, hy⟩
  refine ⟨y.name, hcell, hmem, ?_, ?_⟩
  · rwa [isInput_congr (ht.evolves.direction hsome)] at hi
  · rw [connNameOf?, hy]
    rfl

/-- An edit keeps this if every input of a pin or pin node was an input of a register or buffer, was on
the node before and keeps its name, or is the only input of the node. -/
theorem step (hh : h.Owned) (he : Evolves h g')
    (hkind : ∀ {n}, g'.hasKind isSequential n → h.hasKind isSequential n)
    (hname : ∀ {c}, g.FromCell c → g'.connNameOf? c = h.connNameOf? c)
    (hcases : ∀ {t c}, g'.hasKind isNamed t → c ∈ g'.connsOf t → g'.isSink c →
      g.FromCell c ∨ (c ∈ h.connsOf t ∧ g'.connNameOf? c = h.connNameOf? c) ∨
        (g'.StandsFor t c ∧ ∀ c' ∈ g'.connsOf t, g'.isSink c' → c' = c)) : Traced g g' where
  evolves := ht.evolves.trans he
  cell hk := ht.cell (hkind hk)
  port hp := (hname ⟨_, _, hp⟩).trans (ht.port hp)
  named {t c} hk hc hs := by
    rcases hcases hk hc hs with hcell | ⟨hold, hsame⟩ | ⟨hown, -⟩
    · exact .inl hcell
    · have hsome := isSome_of_mem_connsOf hold
      rw [he.hasKind hsome] at hk
      rw [he.isSink (hh.conn_isSome hold)] at hs
      rw [StandsFor, hsame, he.name hsome]
      exact ht.named hk hold hs
    · exact .inr hown
  single {t c c'} hk hc hc' hs hs' hcell hcell' := by
    rcases hcases hk hc hs with h1 | ⟨hold, -⟩ | ⟨-, honly⟩
    · exact absurd h1 hcell
    · rcases hcases hk hc' hs' with h2 | ⟨hold', -⟩ | ⟨-, honly⟩
      · exact absurd h2 hcell'
      · rw [he.hasKind (isSome_of_mem_connsOf hold)] at hk
        rw [he.isSink (hh.conn_isSome hold)] at hs
        rw [he.isSink (hh.conn_isSome hold')] at hs'
        exact ht.single hk hold hold' hs hs' hcell hcell'
      · exact honly c hc hs
    · exact (honly c' hc' hs').symm

/-- An input that is new is none of `g`. -/
theorem not_fromCell (hc : h.conn? c = none) : ¬ g.FromCell c := by
  intro hcell
  have hsome := ht.evolves.conn_isSome hcell.conn_isSome
  rw [hc] at hsome
  cases hsome

end Traced

theorem Untaken.step (hu : Untaken g h) (he : Evolves h g')
    (hcases : ∀ {t c}, g'.hasKind isNamed t → c ∈ g'.connsOf t →
      ¬ g.FromCell c ∨ c ∈ h.connsOf t) : Untaken g g' := by
  intro t c hk hc
  rcases hcases hk hc with hnot | hold
  · exact hnot
  · rw [he.hasKind (isSome_of_mem_connsOf hold)] at hk
    exact hu hk hold

/-! ## The edits of the first two passes -/

/-- A port on its pin stands for the pin. -/
theorem Exposes.traced (hx : Exposes p h g') (hh : h.Owned) (ht : Traced g h) : Traced g g' := by
  refine ht.step hh hx.evolves (fun {n} hk => ?_) (fun _ => hx.connNameOf? _) fun {t c} _ hc _ => ?_
  · rw [hasKind, hx.kindOf?] at hk
    split at hk
    · cases hk
    · exact hk
  · rw [hx.connsOf] at hc
    split at hc
    · -- the port stands for the new pin, which is named after it
      rename_i hnew
      right
      right
      rw [mem_singleton] at hc
      constructor
      · left
        rw [hnew, hc, hx.name, hx.connNameOf?]
      · intro c' hc' _
        rw [hx.connsOf, if_pos hnew, mem_singleton] at hc'
        rw [hc', hc]
    · exact .inr (.inl ⟨(mem_filter.mp hc).1, hx.connNameOf? c⟩)

/-- Exposing a port takes nothing over. -/
theorem Exposes.untaken (hx : Exposes p h g') (hg : g.Owned) (he : Evolves g h)
    (hmem : p ∈ h.connsOf designId) (hu : Untaken g h) : Untaken g g' := by
  refine hu.step hx.evolves fun {t c} _ hc => ?_
  rw [hx.connsOf] at hc
  split at hc
  · left
    rw [mem_singleton.mp hc]
    -- the port belongs to the design from the start
    have hport : p ∈ g.connsOf designId := by
      apply he.shrinks (isSome_of_kindOf? hg.design_kind) _ hmem
      rw [hasKind, hg.design_kind]
      rfl
    apply hg.not_fromCell hport
    rw [hasKind, hg.design_kind]
    rfl
  · exact .inr (mem_filter.mp hc).1

/-- A new pin node has an input that stands for it. -/
theorem PutsPinNode.traced (hx : PutsPinNode o source h g') (hh : h.Owned) (ht : Traced g h) :
    Traced g g' := by
  refine ht.step hh hx.evolves (fun {n} hk => ?_)
    (fun hcell => hx.connNameOf? (ht.evolves.conn_isSome hcell.conn_isSome)) fun {t c} _ hc hs => ?_
  · rw [hasKind, hx.kindOf?] at hk
    split at hk
    · cases hk
    · exact hk
  · rw [hx.connsOf] at hc
    split at hc
    · rename_i hnew
      -- of the two connections of the new pin node one is an output
      have honly : ∀ {c'}, c' ∈ [h.putOut, h.putIn] → g'.isSink c' → c' = h.putIn := by
        intro c' hc' hs'
        rcases mem_cons.mp hc' with rfl | hc'
        · rw [hx.isSink, if_pos rfl] at hs'
          cases hs'
        · exact mem_singleton.mp hc'
      right
      right
      rw [honly hc hs]
      constructor
      · right
        rw [Network.connNameOf?, hx.conn?, if_neg putOut_ne_putIn.symm, if_pos rfl]
        rfl
      · intro c' hc' hs'
        rw [hx.connsOf, if_pos hnew] at hc'
        exact honly hc' hs'
    · exact .inr (.inl ⟨hc, hx.connNameOf? (hh.conn_isSome hc)⟩)

theorem PutsPinNode.untaken (hx : PutsPinNode o source h g') (ht : Traced g h) (hu : Untaken g h) :
    Untaken g g' := by
  refine hu.step hx.evolves fun {t c} _ hc => ?_
  rw [hx.connsOf] at hc
  split at hc
  · left
    apply ht.not_fromCell
    rcases mem_cons.mp hc with rfl | hc
    · exact conn?_putOut
    · rw [mem_singleton.mp hc]
      exact conn?_putIn
  · exact .inr hc

theorem Retires.traced (hr : Retires K h g') (hh : h.Owned) (ht : Traced g h) : Traced g g' := by
  refine ht.step hh hr.evolves (fun {n} hk => ?_) (fun _ => hr.connNameOf? _) fun {t c} _ hc _ => ?_
  · rwa [hasKind, hr.kindOf?] at hk
  · right
    left
    rw [hr.connsOf (hr.tidy.inUse hc)] at hc
    exact ⟨hc, hr.connNameOf? c⟩

theorem Retires.untaken (hr : Retires K h g') (hu : Untaken g h) : Untaken g g' := by
  refine hu.step hr.evolves fun {t c} _ hc => .inr ?_
  rwa [hr.connsOf (hr.tidy.inUse hc)] at hc

section Fusion

variable (hf : Fuses input output kept a b h g') (hw : Forwarded h input output a b) (hh : h.Raw K)
  (ht : Traced g h) (hu : Untaken g h)
include hf hw hh ht hu

omit hf hh ht in
theorem Untaken.forwarded (hk : kept ∈ h.connsOf b) : ¬ g.FromCell kept :=
  hu (hasKind_of hw.kind rfl) hk

/-- A fusion leaves inputs that stand for their nodes. -/
theorem Fuses.traced (hraw : g'.Raw K) : Traced g g' := by
  have hkept := hu.forwarded hw hf.kept_mem
  have hname : ∀ {c}, (h.conn? c).isSome → c ≠ kept → g'.connNameOf? c = h.connNameOf? c := by
    intro c hc hne
    rw [hf.connNameOf? hc, if_neg hne]
  refine ht.step hh.toOwned hf.evolves (fun {n} hk => ?_) (fun {c} hcell => ?_) fun {t c} hk hc hs => ?_
  · rwa [hasKind, hf.kindOf?] at hk
  · apply hname (ht.evolves.conn_isSome hcell.conn_isSome)
    rintro rfl
    exact hkept hcell
  · rcases hf.mem_connsOf hc with hold | ⟨rfl, rfl | ⟨-, hout⟩⟩
    · by_cases hck : c = kept
      · -- the input of the pin node that goes is on no other node
        have htb := hh.eq_of_mem (hck ▸ hold) hf.kept_mem
        rw [htb, hf.connsOf_source] at hc
        cases hc
      · exact .inr (.inl ⟨hold, hname (hh.conn_isSome hold) hck⟩)
    · -- it bears the name of the input in whose place it stands
      right
      right
      refine ⟨?_, fun c' hc' hs' => hraw.single hk hc' hc hs' hs⟩
      have hinput : h.StandsFor t input :=
        (ht.named hw.named hw.mem hw.isSink).resolve_left (hu hw.named hw.mem)
      rw [StandsFor, hf.connNameOf? (hh.conn_isSome hf.kept_mem), if_pos rfl,
        hf.evolves.name (isSome_of_mem_connsOf hw.mem)]
      exact hinput
    · exact absurd rfl (ne_of_isSink hs hout)

omit hh in
theorem Fuses.untaken : Untaken g g' := by
  refine hu.step hf.evolves fun {t c} _ hc => ?_
  rcases hf.mem_connsOf hc with hold | ⟨-, rfl | ⟨hnone, -⟩⟩
  · exact .inr hold
  · exact .inl (hu.forwarded hw hf.kept_mem)
  · exact .inl (ht.not_fromCell hnone)

end Fusion

/-- An edit of the pass keeps both. -/
theorem Trims.traced (htrim : Trims h g') (hh : h.Raw K) (ht : Traced g h) (hu : Untaken g h) :
    Traced g g' ∧ Untaken g g' := by
  have hretire : Retires K h g' → Traced g g' ∧ Untaken g g' := fun hr =>
    ⟨hr.traced hh.toOwned ht, hr.untaken hu⟩
  have hraw := htrim.raw hh
  cases htrim with
  | fuse hw hf => exact ⟨hf.traced hw hh ht hu hraw, hf.untaken hw ht hu⟩
  | drop _ _ _ hd =>
    have hmem : ∀ {t c}, c ∈ g'.connsOf t → c ∈ h.connsOf t := by
      intro t c hc
      rw [connsOf_detached hd] at hc
      exact (mem_filter.mp hc).1
    constructor
    · refine ht.step hh.toOwned (evolves_detached hd) (fun {n} hk => ?_) (fun _ => hd.connNameOf?)
        fun _ hc _ => .inr (.inl ⟨hmem hc, hd.connNameOf?⟩)
      rwa [hasKind, hd.kindOf?] at hk
    · exact hu.step (evolves_detached hd) fun _ hc => .inr (hmem hc)
  | retire hk hun hr => exact hretire (retires_retired hr hh.toTidy hk (by decide) hun)
  | rebuild hr => exact hretire (retires_rebuildTop hh.toTidy hr)

/-! ## Takeovers -/

/-- A pin or pin node that takes a cell over gets inputs of the cell and perhaps a first output. -/
theorem Takeover.Applies.traced (ha : u.Applies h g') (hg : g.Owned) (hh : h.Owned) (ht : Traced g h) :
    Traced g g' := by
  refine ht.step hh ha.evolves (fun {n} hk => ?_)
    (fun hcell => ha.connNameOf? (ht.evolves.conn_isSome hcell.conn_isSome)) fun {t c} _ hc hs => ?_
  · rwa [hasKind, ha.kindOf?] at hk
  rcases ha.mem_connsOf hc with hc | hc | hout
  · exact .inr (.inl ⟨hc, ha.connNameOf? (hh.conn_isSome hc)⟩)
  · rcases ha.isInput hc with ⟨hmem, hin⟩
    rcases ht.isPort hg ha.cell_kind hmem hin with ⟨s, hp⟩
    exact .inl ⟨_, s, hp⟩
  · exact absurd rfl (ne_of_isSink hs hout)

theorem TakesOver.traced {g1 g2 : Network} (hover : TakesOver u h g1 g2 g') (hg : g.Owned)
    (hh : h.Poised K) (ht : Traced g h) : Traced g g' := by
  have ht1 : Traced g g1 := by
    have hseats := hover.seats
    generalize u.target = t, u.slot = slot at hseats
    cases hseats with
    | existing => exact ht
    | fresh hx => exact hx.traced hh.toOwned ht
  have ht2 := hover.applies.traced hg (hover.poised1 hh).toOwned ht1
  exact (hover.retires hh).traced (hover.poised2 hh).toOwned ht2

/-! ## The passes -/

/-- What the first pass leaves. -/
theorem traced_branch (hg : g.Raw K) (hpins : g.pins = []) (hpinNodes : g.pinNodes = [])
    (hdata : ∀ {n}, g.kindOf? n = some .triState → g.OneDataAt n) (hrun : g.branch = .ok r) :
    Layered K g r.2 ∧ Traced g r.2 ∧ Untaken g r.2 := by
  have hlayer := layered_branch hg hpins hpinNodes hdata hrun
  have hstart : Traced g g ∧ Untaken g g :=
    ⟨.refl hg.toOwned hpins hpinNodes, fun t c hk hc =>
      absurd hk (hg.toOwned.not_isNamed hpins hpinNodes hc)⟩
  have hall := branch_invariant
    (Q := fun h => h.Raw K ∧ Traced g h ∧ Untaken g h) (fun hh => hh.1.toSound) ?_ id ?_ ?_
    ⟨hg, hstart⟩ hrun
  · exact ⟨hlayer, hall.1.2⟩
  · rintro p h h' ⟨hh, ht, hu⟩ hmem hx
    exact ⟨hx.raw hh, hx.traced hh.toOwned ht, hx.untaken hg.toOwned ht.evolves hmem hu⟩
  · rintro o n source h h' - ⟨hh, ht, hu⟩ hs
    exact ⟨hs.puts.raw hh hs.isOutput ⟨n, hs.mem⟩, hs.puts.traced hh.toOwned ht, hs.puts.untaken ht hu⟩
  · rintro h h' ⟨hh, ht, hu⟩ hr
    exact ⟨(Trims.rebuild hr).raw hh, (Trims.rebuild hr).traced hh ht hu⟩

theorem traced_simplify (hlayer : Layered K g h) (ht : Traced g h) (hu : Untaken g h)
    (hrun : h.simplify = .ok r) : Layered K g r.2 ∧ Traced g r.2 ∧ r.2.Collected := by
  have hall := simplify_invariant (P := fun s => Layered K g s ∧ Traced g s ∧ Untaken g s)
    (fun hs => ⟨hs.1.toRaw, hs.1.anchored.selfless⟩)
    (fun hs htrim => ⟨htrim.layered hs.1, htrim.traced hs.1.toRaw hs.2.1 hs.2.2⟩) ⟨hlayer, ht, hu⟩ hrun
  exact ⟨hall.1.1, hall.1.2.1, hall.2⟩

theorem traced_collapse (hg : g.Owned) (hh : h.Poised K) (ht : Traced g h) (htop : h.Collected)
    (hrun : h.collapse = .ok r) : r.2.Poised K ∧ Traced g r.2 ∧ r.2.Collected := by
  have hstep : ∀ {u s g1 g2 s'}, s.Poised K → Traced g s → TakesOver u s g1 g2 s' →
      Traced g s' ∧ s'.Collected := fun hs ht hover =>
    ⟨hover.traced hg hs ht, collected_rebuildTop hover.rebuilt⟩
  have hall := collapse_keeps hh ⟨ht, htop⟩
    (fun hs hP _ hover => hstep hs hP.1 hover) id (fun hs hP _ hover => hstep hs hP.1 hover) hrun
  exact ⟨hall.1, hall.2.2⟩

end PldSynth.Network
