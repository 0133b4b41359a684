import PldSynth.Proofs.Network.Sharing
import PldSynth.Proofs.Network.Takeover

/-!
# Taking over all registers and buffers

A run of takeovers. Each one finds a node for a cell (`Seats`), merges the cell into it
(`Takeover.Applies`), and brings the list of equations up to date. What all of these steps rely on is
`Poised`, and they keep it. `collapse_keeps` is the induction over the whole run: what one takeover
keeps, the run keeps. If every driver has a value, that stays so too (`Ready`).
-/

namespace PldSynth.Network

open Attempt List
open PldSynth.NodeKind (isNamed isRegister isSequential)

variable {K : NodeKind → Bool} {g g' g1 g2 : Network} {n m t cell : NodeId} {c d x o slot : ConnId}
  {v : ConnId → Bool}
  {k : NodeKind} {f : Network → NodeId → Attempt (Bool × Network)} {r s s' : Bool × Network}
  {P Q : Network → Prop}

/-- Every driver has a value only if nothing runs in a circle. -/
theorem Settled.wellFounded (hg : g.Sound) (h : g.Settled v) : WellFounded g.Feeds := by
  refine ⟨fun o => ⟨o, ?_⟩⟩
  rintro d ⟨n, -, -, hd⟩
  obtain ⟨c, -, hs, hhead⟩ := mem_driversAt.mp hd
  obtain ⟨b, hb⟩ := h hs (mem_of_head? hhead)
  exact hb.acc hg.toOwned

/-- What a takeover relies on: the network is tidy, a node that has taken over nothing can be driven at
one connection at most, and a buffer has one data input. -/
structure Poised (K : NodeKind → Bool) (g : Network) : Prop extends Tidy K g where
  undivided : g.Undivided
  data : ∀ {n}, g.kindOf? n = some .triState → g.OneDataAt n

/-- Such a network in which every driver has a value. -/
structure Ready (K : NodeKind → Bool) (g : Network) : Prop extends Poised K g where
  settled : ∀ v, g.Settled v

/-- Data inputs do not multiply. -/
theorem OneDataAt.evolves (h : g.OneDataAt n) (hg : g.Owned) (hk : g.kindOf? n = some .triState)
    (he : Evolves g g') : g'.OneDataAt n := by
  have hn := isSome_of_kindOf? hk
  have hnamed : g.hasKind isNamed n = false := by
    rw [hasKind, hk]
    rfl
  have hback : ∀ {c}, c ∈ g'.connsOf n → g'.isData c → c ∈ g.connsOf n ∧ g.isData c := by
    intro c hc hd
    have hc0 := he.shrinks hn hnamed hc
    rw [isData, he.connName hn hnamed (hg.conn_isSome hc0) hc] at hd
    exact ⟨hc0, hd⟩
  intro c c' hc hc' hd hd'
  obtain ⟨hc, hd⟩ := hback hc hd
  obtain ⟨hc', hd'⟩ := hback hc' hd'
  exact h hc hc' hd hd'

theorem Raw.poised (hg : g.Raw K) (hdata : ∀ {n}, g.kindOf? n = some .triState → g.OneDataAt n) :
    g.Poised K where
  toTidy := hg.toTidy
  undivided _ _ _ hk _ hc hc' hs hs' := hg.single hk hc hc' hs hs'
  data := hdata

theorem Fresh.ready (hg : g.Fresh K) (hdata : ∀ {n}, g.kindOf? n = some .triState → g.OneDataAt n) :
    g.Ready K :=
  ⟨hg.poised hdata, hg.settled⟩

/-! ## Finding a node -/

/-- A pin node can be put in before a takeover. -/
theorem PutsPinNode.poised {source : Node} (h : PutsPinNode o source g g') (hg : g.Poised K)
    (ho : g.isOutput o) (hl : ∃ n, o ∈ g.connsOf n) : g'.Poised K where
  toTidy := h.tidy hg.toTidy ho hl
  undivided n c c' hk ha hc hc' hs hs' := by
    apply h.eq_of_isSink hg.toSound hc hc' hs hs'
    intro hn
    rw [h.evolves.hasKind hn] at hk
    rw [h.absorbedOf] at ha
    exact hg.undivided hk ha
  data {n} hk := by
    rw [h.kindOf?] at hk
    split at hk
    · cases hk
    · exact (hg.data hk).evolves hg.toOwned hk h.evolves

theorem Seats.poised (h : Seats g o t slot g1) (hg : g.Poised K) (ho : g.isOutput o)
    (hl : ∃ n, o ∈ g.connsOf n) : g1.Poised K := by
  cases h with
  | existing => exact hg
  | fresh h => exact h.poised hg ho hl

theorem Seats.settled (h : Seats g o t slot g1) (hg : g.Sound) (ho : g.isOutput o)
    (hl : ∃ n, o ∈ g.connsOf n) (hne : g.refsOf o ≠ []) (hset : g.Settled v) : g1.Settled v := by
  cases h with
  | existing => exact hset
  | fresh h => exact (h.preserves hg hset ho hl hne).settled

/-! ## Merging the cell -/

theorem Absorbed.union_ne_nothing {b : Absorbed} (a : Absorbed) (h : b ≠ .nothing) :
    a.union b ≠ .nothing := by
  intro hu
  apply h
  cases a with
  | mk r s =>
    cases b with
    | mk r' s' => cases r <;> cases s <;> cases r' <;> cases s' <;> first | rfl | cases hu

namespace Takeover.Applies

variable {s : Takeover} (h : s.Applies g g')
include h

theorem ne_cell : s.cell ≠ s.target :=
  h.seat.ne_cell h.cell_kind

theorem connsOf_cell : g'.connsOf s.cell = [] := by
  obtain ⟨new, hconns, -⟩ := h.connsOf
  rw [hconns, if_pos rfl]

theorem connsOf_of_ne (hc : n ≠ s.cell) (ht : n ≠ s.target) : g'.connsOf n = g.connsOf n := by
  obtain ⟨new, hconns, -⟩ := h.connsOf
  rw [hconns, if_neg hc, if_neg ht]

/-- What the target has afterwards: connections of its own, inputs of the cell, or a first output. -/
theorem mem_target (hc : c ∈ g'.connsOf s.target) : c ∈ s.kept ∨ c ∈ s.moved ∨
    g.conn? c = none ∧ g'.isOutput c ∧ g'.connsOf s.target = s.kept ++ s.moved ++ [c] ∧
      ∀ x ∈ g.connsOf s.target, g.isOutput x = false := by
  obtain ⟨new, hconns, hcase⟩ := h.connsOf
  rw [hconns, if_neg h.ne_cell.symm, if_pos rfl] at hc ⊢
  rcases mem_append.mp hc with hc | hc
  · rcases mem_append.mp hc with hc | hc
    · exact .inl hc
    · exact .inr (.inl hc)
  · rcases hcase with rfl | ⟨e, rfl, hnone, hout, hall⟩
    · cases hc
    · obtain rfl := mem_singleton.mp hc
      exact .inr (.inr ⟨hnone, hout, rfl, hall⟩)

/-- A node has the connections it had, and the target receives inputs of the cell and perhaps a first
output. -/
theorem mem_connsOf (hc : c ∈ g'.connsOf n) : c ∈ g.connsOf n ∨ c ∈ s.moved ∨ g'.isOutput c := by
  by_cases hnc : n = s.cell
  · rw [hnc, h.connsOf_cell] at hc
    cases hc
  by_cases hnt : n = s.target
  · subst hnt
    rcases h.mem_target hc with hc | hc | ⟨-, hout, -⟩
    · exact .inl (h.kept_sub hc)
    · exact .inr (.inl hc)
    · exact .inr (.inr hout)
  · rw [h.connsOf_of_ne hnc hnt] at hc
    exact .inl hc

theorem named : g'.hasKind isNamed s.target := by
  rw [hasKind, h.kindOf?]
  exact h.seat.named

/-- The target stays regular. -/
theorem regularAt_target (hg : g.Tidy K) : g'.RegularAt s.target := by
  obtain ⟨k, hk, hnamed⟩ := hasKind_iff.mp h.seat.named
  have hreg := hg.regular (hasKind_of hk (by simp [hnamed]))
  have hdir : ∀ {x}, x ∈ g.connsOf s.target → g'.directionOf? x = g.directionOf? x := fun hx =>
    h.evolves.direction (hg.conn_isSome hx)
  have hmoved : ∀ {x}, x ∈ s.moved → g'.isInput x ∧ g'.isOutput x = false := by
    intro x hx
    obtain ⟨hmem, hin⟩ := h.isInput hx
    have hxs := hg.conn_isSome hmem
    have hs := isSink_of_isInput hin
    rw [isInput_congr (h.evolves.direction hxs), h.evolves.isOutput hxs]
    rw [isSink_eq_not_isOutput hxs] at hs
    exact ⟨hin, by simpa using hs⟩
  refine ⟨fun e e' he he' hout hout' => ?_, fun hpin x hx => ?_, fun hc => ?_⟩
  · -- an output of its own excludes a new one
    have hown : ∀ {x}, x ∈ g'.connsOf s.target → g'.isOutput x →
        (x ∈ g.connsOf s.target ∧ g.isOutput x) ∨
          (∀ y ∈ g.connsOf s.target, g.isOutput y = false) ∧ g'.connsOf s.target = s.kept ++ s.moved ++ [x] := by
      intro x hx hox
      rcases h.mem_target hx with hx | hx | ⟨-, -, hconns, hall⟩
      · have hx := h.kept_sub hx
        exact .inl ⟨hx, (isOutput_congr (hdir hx)).symm.trans hox⟩
      · simp [(hmoved hx).2] at hox
      · exact .inr ⟨hall, hconns⟩
    rcases hown he hout with ⟨he, hout⟩ | ⟨hall, hconns⟩
    · rcases hown he' hout' with ⟨he', hout'⟩ | ⟨hall, -⟩
      · exact hreg.lone he he' hout hout'
      · simp [hall e he] at hout
    · rcases hown he' hout' with ⟨he', hout'⟩ | ⟨-, hconns'⟩
      · simp [hall e' he'] at hout'
      · simpa using hconns.symm.trans hconns'
  · rw [h.kindOf?] at hpin
    rcases h.mem_target hx with hx | hx | ⟨-, hout, -⟩
    · have hx := h.kept_sub hx
      rw [isInput_congr (hdir hx), isOutput_congr (hdir hx)]
      exact hreg.plain hpin hx
    · exact .inl (hmoved hx).1
    · exact .inr hout
  · rw [h.kindOf?, hk] at hc
    cases hc
    cases hnamed

theorem tidy (hg : g.Tidy K) : g'.Tidy K := by
  apply hg.of_nodes h.sound h.evolves.direction
  intro n
  by_cases hc : n = s.cell
  · left
    rw [hc, h.connsOf_cell]
    exact ⟨h.kindOf? _, nofun⟩
  by_cases ht : n = s.target
  · exact .inr (ht ▸ h.regularAt_target hg)
  · left
    rw [h.connsOf_of_ne hc ht]
    exact ⟨h.kindOf? n, fun _ hx => hx⟩

variable (hmark : s.mark ≠ .nothing)
include hmark

theorem absorbedOf_target : g'.absorbedOf s.target ≠ .nothing := by
  rw [h.absorbedOf, if_pos rfl]
  exact Absorbed.union_ne_nothing _ hmark

theorem isDerived_target : g'.isDerived s.target = false := by
  obtain ⟨k, hk, hnamed⟩ := hasKind_iff.mp h.named
  have hcomb : k.isCombinational = false := by
    cases k <;> first | rfl | cases hnamed
  have hnot : (g'.absorbedOf s.target).isNothing = false := by
    rw [Bool.eq_false_iff]
    exact fun hn => h.absorbedOf_target hmark ((Absorbed.isNothing_iff _).mp hn)
  simp [isDerived, hasKind, hk, hcomb, hnot]

theorem undivided (hg : g.Sound) (hone : g.Undivided) : g'.Undivided := by
  intro n c c' hk ha hc hc' hs hs'
  have hnt : n ≠ s.target := by
    rintro rfl
    exact h.absorbedOf_target hmark ha
  have hnc : n ≠ s.cell := by
    rintro rfl
    rw [h.connsOf_cell] at hc
    cases hc
  rw [h.connsOf_of_ne hnc hnt] at hc hc'
  rw [h.evolves.isSink (hg.conn_isSome hc)] at hs
  rw [h.evolves.isSink (hg.conn_isSome hc')] at hs'
  rw [hasKind, h.kindOf?] at hk
  rw [h.absorbedOf, if_neg hnt] at ha
  exact hone hk ha hc hc' hs hs'

/-- What a derived output depends on is the same as before, or it is given. -/
theorem feeds (hg : g.Sound) (hf : g'.Feeds d x) : g.Feeds d x ∨ d ∈ g'.connsOf s.target := by
  obtain ⟨n, hn, hx, hd⟩ := hf
  have hnt : n ≠ s.target := by
    rintro rfl
    simp [h.isDerived_target hmark] at hn
  have hnc : n ≠ s.cell := by
    rintro rfl
    rw [h.connsOf_cell] at hx
    cases hx
  have hconns := h.connsOf_of_ne hnc hnt
  have hder : g'.isDerived n = g.isDerived n := by
    apply isDerived_eq (h.kindOf? n)
    · rw [h.absorbedOf, if_neg hnt]
    · rw [hconns]
      exact forall₂_same.mpr fun c hc => h.evolves.isSink (hg.conn_isSome hc)
  obtain ⟨c, hc, hs, hhead⟩ := mem_driversAt.mp hd
  have hc0 := hconns ▸ hc
  have hs0 := (h.evolves.isSink (hg.conn_isSome hc0)).symm.trans hs
  have hslot : c ≠ s.slot := by
    rintro rfl
    exact hnt (hg.eq_of_mem hc0 h.seat.mem)
  -- what read the cell reads the target now
  by_cases hmem : c ∈ g.refsOf s.output
  · have hmoved : c ∉ s.moved := fun hm => hnc (hg.eq_of_mem hc0 (h.isInput hm).1)
    obtain ⟨out, hout, -, hrefs⟩ := h.consumer hmem hslot hmoved hc
    rw [hrefs, head?_cons, Option.some.injEq] at hhead
    exact .inr (hhead ▸ hout)
  · have hdc : d ∈ g.refsOf c := by
      have := mem_of_head? hhead
      rw [h.frame hs0 hslot hmem hc] at this
      exact (mem_filter.mp this).1
    refine .inl ⟨n, hder.symm.trans hn, hconns ▸ hx, mem_driversAt.mpr ⟨c, hc0, hs0, ?_⟩⟩
    rw [hg.refsOf_eq_singleton hs0 hdc, head?_cons]

/-- Every driver still has a value. -/
theorem settled (hg : g.Sound) (hset : g.Settled v) : g'.Settled v := by
  have hwf := hset.wellFounded hg
  have hstop : ∀ d ∈ g'.connsOf s.target, Acc g'.Feeds d := by
    intro d hd
    constructor
    rintro e ⟨n, hn, hdn, -⟩
    rw [h.sound.eq_of_mem hdn hd, h.isDerived_target hmark] at hn
    cases hn
  refine settled_of_wellFounded h.sound ⟨fun x => ?_⟩ v
  induction x using hwf.induction with
  | h x ih =>
    constructor
    intro d hd
    rcases h.feeds hmark hg hd with hd | hd
    · exact ih d hd
    · exact hstop d hd

theorem poised (hg : g.Poised K) : g'.Poised K where
  toTidy := h.tidy hg.toTidy
  undivided := h.undivided hmark hg.toSound hg.undivided
  data {n} hk := by
    rw [h.kindOf?] at hk
    exact (hg.data hk).evolves hg.toOwned hk h.evolves

end Takeover.Applies

theorem Retires.poised (h : Retires K g g') (hg : g.Poised K) : g'.Poised K where
  toTidy := h.tidy
  undivided n c c' hk ha hc hc' hs hs' := by
    have hconns := h.connsOf (h.tidy.inUse hc)
    rw [hconns] at hc hc'
    rw [h.evolves.isSink (hg.conn_isSome hc)] at hs
    rw [h.evolves.isSink (hg.conn_isSome hc')] at hs'
    rw [hasKind, h.kindOf?] at hk
    rw [h.absorbedOf] at ha
    exact hg.undivided hk ha hc hc' hs hs'
  data {n} hk := by
    rw [h.kindOf?] at hk
    exact (hg.data hk).evolves hg.toOwned hk h.evolves

/-! ## One takeover -/

/-- A register goes where a register may go, a buffer to a node without a buffer. -/
inductive Takeover.Role (s : Takeover) (g g1 : Network) : Prop
  | register (hk : g.hasKind isRegister s.cell = true)
    (hv : Vacant g s.output s.target s.slot)
    (hs : s = .ofRegister g1 s.cell s.target s.output s.slot)
  | buffer (hk : g.kindOf? s.cell = some .triState) (hfree : (g.absorbedOf s.target).buffer = false)
    (hs : s = .ofBuffer g1 s.cell s.target s.output s.slot)
    (htarget : g.takeoverTarget s.output = .ok (s.target, g1))

/-- One cell of `g` is taken over. The target is in place in `g1`, the cell is merged in `g2`, and in
`g'` the list of equations is up to date. -/
structure TakesOver (s : Takeover) (g g1 g2 g' : Network) : Prop where
  mem : s.output ∈ g.connsOf s.cell
  isOutput : g.isOutput s.output = true
  read : g.refsOf s.output ≠ []
  seats : Seats g s.output s.target s.slot g1
  role : s.Role g g1
  applies : s.Applies g1 g2
  rebuilt : g2.rebuildTop = .ok g'

theorem NodeKind.isSequential_of_isRegister (h : k.isRegister) : k.isSequential := by
  cases k <;> first | rfl | cases h

theorem kindOf?_of_hasKind (h : g.hasKind (· = k) n) : g.kindOf? n = some k := by
  obtain ⟨k', hk, hp⟩ := hasKind_iff.mp h
  rw [hk, of_decide_eq_true hp]

theorem not_isNamed_of_isSequential (h : g.hasKind isSequential n) : g.hasKind isNamed n = false := by
  rcases hasKind_iff.mp h with ⟨k, hk, hp⟩
  rw [hasKind, hk]
  cases k <;> first | rfl | cases hp

theorem hasKind_isSequential_of_isRegister (h : g.hasKind isRegister n) : g.hasKind isSequential n := by
  obtain ⟨k, hk, hp⟩ := hasKind_iff.mp h
  exact hasKind_of hk (NodeKind.isSequential_of_isRegister hp)

namespace TakesOver

variable {s : Takeover}

/-- What the target reads off the takeover holds of the network before. -/
theorem of_applies (hg : g.Sound) (hcell : (g.node? s.cell).isSome) (hread : g.refsOf s.output ≠ [])
    (hseats : Seats g s.output s.target s.slot g1) (hrole : s.Role g g1) (h : s.Applies g1 g2)
    (hr : g2.rebuildTop = .ok g') : TakesOver s g g1 g2 g' := by
  have hmem : s.output ∈ g.connsOf s.cell := hseats.connsOf hcell ▸ h.output_mem
  refine ⟨hmem, ?_, hread, hseats, hrole, h, hr⟩
  rw [← hseats.evolves.isOutput (hg.conn_isSome hmem)]
  exact h.isOutput

variable (h : TakesOver s g g1 g2 g')
include h

theorem mark : s.mark ≠ .nothing := by
  cases h.role with
  | register _ _ hs =>
    rw [hs]
    nofun
  | buffer _ _ hs =>
    rw [hs]
    nofun

theorem poised1 (hg : g.Poised K) : g1.Poised K :=
  h.seats.poised hg h.isOutput ⟨_, h.mem⟩

theorem poised2 (hg : g.Poised K) : g2.Poised K :=
  h.applies.poised h.mark (h.poised1 hg)

theorem retires (hg : g.Poised K) : Retires K g2 g' :=
  retires_rebuildTop (h.poised2 hg).toTidy h.rebuilt

theorem poised (hg : g.Poised K) : g'.Poised K :=
  (h.retires hg).poised (h.poised2 hg)

theorem evolves (hg : g.Poised K) : Evolves g g' :=
  (h.seats.evolves.trans h.applies.evolves).trans (h.retires hg).evolves

theorem settled2 (hg : g.Poised K) (hset : g.Settled v) : g2.Settled v := by
  have hset1 := h.seats.settled hg.toSound h.isOutput ⟨_, h.mem⟩ h.read hset
  exact h.applies.settled h.mark (h.poised1 hg).toSound hset1

theorem settled (hg : g.Poised K) (hset : g.Settled v) : g'.Settled v :=
  ((h.retires hg).preserves (h.settled2 hg hset)).settled

end TakesOver

theorem takeOverWith_eq_ok (h : takeOverWith f s cell = .ok s') : ∃ r, f s.2 cell = .ok r ∧
      ((r.1 = false ∧ s' = (s.1, r.2)) ∨ (r.1 ∧ r.2.rebuildTop = .ok s'.2)) := by
  simp only [takeOverWith, bind_eq_ok] at h
  obtain ⟨⟨merged, g'⟩, hrun, h⟩ := h
  refine ⟨_, hrun, ?_⟩
  cases merged with
  | false => exact .inl ⟨rfl, (pure_eq_ok.mp h).symm⟩
  | true =>
    simp only [if_true, bind_eq_ok, pure_eq_ok] at h
    obtain ⟨g'', hr, -, -, rfl⟩ := h
    exact .inr ⟨rfl, hr⟩

/-- A register is left alone or taken over. -/
theorem takesOver_register (hg : s.2.Poised K)
    (hcell : s.2.hasKind isRegister cell) (h : takeOverWith takeOverRegister s cell = .ok s') :
    s' = s ∧ s.2.liveOutput? cell = .ok none ∨
      ∃ u g1 g2, u.cell = cell ∧ TakesOver u s.2 g1 g2 s'.2 := by
  obtain ⟨r, hrun, hcase⟩ := takeOverWith_eq_ok h
  rcases takeOverRegister_spec hg.toSound hg.undivided (hasKind_isSequential_of_isRegister hcell) hrun with
    ⟨rfl, hidle⟩ | ⟨o, t, slot, g1, htrue, hread, hseats, hvacant, happ⟩
  · rcases hcase with ⟨-, rfl⟩ | ⟨hf, -⟩
    · exact .inl ⟨rfl, hidle⟩
    · cases hf
  · rcases hcase with ⟨hf, -⟩ | ⟨-, hr⟩
    · rw [htrue] at hf
      cases hf
    · obtain ⟨k, hk, -⟩ := hasKind_iff.mp hcell
      exact .inr ⟨_, g1, r.2, rfl, .of_applies hg.toSound (isSome_of_kindOf? hk) hread hseats
        (.register hcell hvacant rfl) happ hr⟩

/-- A buffer is left alone or taken over. -/
theorem takesOver_buffer (hg : s.2.Poised K)
    (hcell : s.2.kindOf? cell = some .triState) (h : takeOverWith takeOverBuffer s cell = .ok s') :
    s' = s ∧ s.2.liveOutput? cell = .ok none ∨
      ∃ u g1 g2, u.cell = cell ∧ TakesOver u s.2 g1 g2 s'.2 := by
  obtain ⟨r, hrun, hcase⟩ := takeOverWith_eq_ok h
  rcases takeOverBuffer_spec hg.toSound (hasKind_of hcell rfl) (hg.data hcell) hrun with
    ⟨rfl, hidle⟩ | ⟨o, t, slot, g1, htrue, hread, hseats, hfree, htarget, happ⟩
  · rcases hcase with ⟨-, rfl⟩ | ⟨hf, -⟩
    · exact .inl ⟨rfl, hidle⟩
    · cases hf
  · rcases hcase with ⟨hf, -⟩ | ⟨-, hr⟩
    · rw [htrue] at hf
      cases hf
    · exact .inr ⟨_, g1, r.2, rfl, .of_applies hg.toSound (isSome_of_kindOf? hcell) hread hseats
        (.buffer hcell hfree rfl htarget) happ hr⟩

/-! ## The whole run -/

/-- What holds at the start of a run over the cells in `l`, and is kept where a cell is left alone and
where it is taken over, holds at the end. -/
theorem takeOverAll_keeps {P : List NodeId → Network → Prop} {p : NodeKind → Bool} {l : List NodeId}
    (hg : s.2.Poised K) (hP : P [] s.2) (hl : ∀ n ∈ l, s.2.hasKind p n)
    (hf : ∀ {n} {s s' : Bool × Network}, s.2.Poised K → s.2.hasKind p n →
      takeOverWith f s n = .ok s' → s' = s ∧ s.2.liveOutput? n = .ok none ∨
        ∃ u g1 g2, u.cell = n ∧ TakesOver u s.2 g1 g2 s'.2)
    (idle : ∀ {pre n g}, g.Poised K → P pre g → g.hasKind p n → g.liveOutput? n = .ok none →
      P (pre ++ [n]) g) (keeps : ∀ {pre u g g1 g2 g'}, g.Poised K → P pre g → g.hasKind p u.cell →
      TakesOver u g g1 g2 g' → P (pre ++ [u.cell]) g')
    (h : l.foldlM (takeOverWith f) s = .ok s') : s'.2.Poised K ∧ Evolves s.2 s'.2 ∧ P l s'.2 := by
  refine foldlM_inits
    (P := fun pre (t : Bool × Network) => t.2.Poised K ∧ Evolves s.2 t.2 ∧ P pre t.2) ?_
    ⟨hg, .refl _, hP⟩ h
  rintro pre n post t t' heq ⟨hpoised, he, hPt⟩ hstep
  have hk : t.2.hasKind p n := by
    have hk := hl n (by simp [heq])
    exact he.keeps_kind hk
  rcases hf hpoised hk hstep with ⟨rfl, hidle⟩ | ⟨u, g1, g2, rfl, hu⟩
  · exact ⟨hpoised, he, idle hpoised hPt hk hidle⟩
  · exact ⟨hu.poised hpoised, he.trans (hu.evolves hpoised), keeps hpoised hPt hk hu⟩

/-- What holds at the start, is kept while buffers are taken over, and then is kept while registers
are, holds at the end. -/
theorem collapse_keeps (hg : g.Poised K) (hP : P g)
    (buffer : ∀ {u g g1 g2 g'}, g.Poised K → P g → g.hasKind (· = .triState) u.cell →
      TakesOver u g g1 g2 g' → P g') (switch : ∀ {g}, P g → Q g)
    (register : ∀ {u g g1 g2 g'}, g.Poised K → Q g → g.hasKind isRegister u.cell →
      TakesOver u g g1 g2 g' → Q g') (h : g.collapse = .ok r) : r.2.Poised K ∧ Evolves g r.2 ∧ Q r.2 := by
  simp only [collapse, bind_eq_ok] at h
  obtain ⟨s, hbuffers, hregisters⟩ := h
  obtain ⟨hs, he, hPs⟩ := takeOverAll_keeps hg hP
    (fun n hn => (mem_filter.mp hn).2)
    (fun hpoised hk => takesOver_buffer hpoised (kindOf?_of_hasKind hk)) (fun _ hP _ _ => hP) buffer
    hbuffers
  obtain ⟨hr, he', hQ⟩ := takeOverAll_keeps hs (switch hPs)
    (fun n hn => (mem_filter.mp hn).2) takesOver_register (fun _ hQ _ _ => hQ) register hregisters
  exact ⟨hr, he.trans he', hQ⟩

/-- The same where every driver has a value. -/
theorem collapse_invariant (hg : g.Ready K) (hP : P g)
    (buffer : ∀ {u g g1 g2 g'}, g.Ready K → P g → g.hasKind (· = .triState) u.cell →
      TakesOver u g g1 g2 g' → P g') (switch : ∀ {g}, P g → Q g)
    (register : ∀ {u g g1 g2 g'}, g.Ready K → Q g → g.hasKind isRegister u.cell →
      TakesOver u g g1 g2 g' → Q g') (h : g.collapse = .ok r) : r.2.Ready K ∧ Evolves g r.2 ∧ Q r.2 := by
  obtain ⟨hr, he, hset, hQ⟩ := collapse_keeps (P := fun s => (∀ v, s.Settled v) ∧ P s)
    (Q := fun s => (∀ v, s.Settled v) ∧ Q s) hg.toPoised ⟨hg.settled, hP⟩
    (fun hs hP hk ht => ⟨fun v => ht.settled hs (hP.1 v), buffer ⟨hs, hP.1⟩ hP.2 hk ht⟩)
    (fun hP => ⟨hP.1, switch hP.2⟩)
    (fun hs hQ hk ht => ⟨fun v => ht.settled hs (hQ.1 v), register ⟨hs, hQ.1⟩ hQ.2 hk ht⟩) h
  exact ⟨⟨hr, hset⟩, he, hQ⟩

end PldSynth.Network
