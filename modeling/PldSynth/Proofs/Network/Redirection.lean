import PldSynth.Proofs.Network.Rehosting

/-!
# Where the wires go when one cell is taken over

A takeover gives inputs of the cell to another node, and what read the cell reads that node instead.
`Takeover.Redirects` is what a connection reads afterwards if it is known what it read before. The
exception is an input of the cell that read the cell itself: on a pin, it is cut off.
-/

namespace PldSynth.Network

open List

variable {K : NodeKind → Bool} {g g' g1 g2 h : Network} {n m t cell : NodeId} {c d x e o slot : ConnId}
  {s : Takeover}

/-! ## What a connection reads -/

/-- What is read after the takeover `s` where `d` was read before: `d` itself, or an output of the
target if `d` was the output of the cell. -/
def Takeover.Redirects (s : Takeover) (g' : Network) (d e : ConnId) : Prop :=
  (d ≠ s.output ∧ e = d) ∨ (d = s.output ∧ e ∈ g'.connsOf s.target ∧ g'.isOutput e = true)

/-- While a node is found, everything keeps its driver, unless a pin node was put behind it. -/
theorem Seats.reads (h : Seats g o t slot g1) (hg : g.Sound) (ho : g.isOutput o) (hs : g.isSink c)
    (hd : g.refsOf c = [d]) : (g1.refsOf c = [d] ∧ (d = o → Seat g o t slot)) ∨
      (d = o ∧ g1.kindOf? t = some .pinNode ∧
        ∃ e ∈ g1.connsOf t, g1.isOutput e ∧ e ≠ o ∧ g1.refsOf c = [e]) := by
  cases h with
  | existing h => exact .inl ⟨hd, fun _ => h⟩
  | fresh h =>
    have hrefs := h.refsOf_sink hg ho hs
    by_cases hc : c ∈ g.refsOf o
    · have hdo : d = o := singleton_inj.mp (hd.symm.trans (hg.refsOf_consumer ho hc))
      refine .inr ⟨hdo, by simp [h.kindOf?], g.putOut, by simp [h.connsOf], by simp [h.isOutput],
        (ne_put (isSome_of_isOutput ho)).1.symm, ?_⟩
      rw [hrefs, if_pos hc]
    · refine .inl ⟨by rw [hrefs, if_neg hc, hd], ?_⟩
      rintro rfl
      exact absurd (hg.mirror (by simp [hd])) hc

namespace Takeover.Applies

variable (happ : s.Applies g g') (hg : g.Sound) (hlone : g.LoneAt s.cell)
include happ hg

omit hg in
theorem mem_of_ne (hc : c ∈ g.connsOf m) (hm : m ≠ s.cell) (hslot : c ≠ s.slot) : c ∈ g'.connsOf m := by
  obtain ⟨new, hconns, -⟩ := happ.connsOf
  rw [hconns, if_neg hm]
  split
  · rename_i ht
    subst ht
    simp [happ.kept_of_ne hc hslot]
  · exact hc

omit hg in
theorem mem_of_moved (hc : c ∈ s.moved) : c ∈ g'.connsOf s.target := by
  obtain ⟨new, hconns, -⟩ := happ.connsOf
  rw [hconns, if_neg happ.ne_cell.symm, if_pos rfl]
  simp [hc]

theorem ne_slot_of_moved (hc : c ∈ s.moved) : c ≠ s.slot := by
  rintro rfl
  exact happ.ne_cell (hg.eq_of_mem (happ.isInput hc).1 happ.seat.mem)

/-- A connection that reads nothing goes on reading nothing. -/
theorem refsOf_eq_nil (hc : c ∈ g.connsOf m) (hm : m ≠ s.cell) (hs : g.isSink c) (hnil : g.refsOf c = []) :
    c ∈ g'.connsOf m ∧ g'.refsOf c = [] := by
  have hslot : c ≠ s.slot := by
    rintro rfl
    simp [happ.seat.refs] at hnil
  have hmem := happ.mem_of_ne hc hm hslot
  refine ⟨hmem, ?_⟩
  rw [happ.frame hs hslot _ hmem, hnil, filter_nil]
  intro hr
  simp [hg.refsOf_consumer happ.isOutput hr] at hnil

/-- A driver that does not belong to the cell is kept. -/
theorem keeps_driver (hs : g.isSink c) (hslot : c ≠ s.slot) (hd : g.refsOf c = [d])
    (hown : d ∉ g.connsOf s.cell) (hc : c ∈ g'.connsOf m) : g'.refsOf c = [d] := by
  have hnot : c ∉ g.refsOf s.output := by
    intro hr
    have hdo : d = s.output :=
      singleton_inj.mp (hd.symm.trans (hg.refsOf_consumer happ.isOutput hr))
    exact hown (hdo ▸ happ.output_mem)
  rw [happ.frame hs hslot hnot hc, hd]
  simp [hown]

omit hg in
/-- The driver of the data input is all that goes to the slot. -/
theorem mem_sources_iff (hs : s = .ofBuffer g s.cell s.target s.output s.slot)
    (hone : g.OneDataAt s.cell) (hc : c ∈ g.connsOf s.cell) (hin : g.isInput c) (hdata : g.isData c)
    (hd : g.refsOf c = [d]) : s.slot ∈ g'.connsOf s.target ∧ ∀ {x}, x ∈ s.sources ↔ x = d := by
  have hkept : s.kept = g.connsOf s.target := by rw [hs]; rfl
  have hsources : s.sources =
      ((g.connsOf s.cell).filter fun c => g.isInput c && g.isData c).flatMap g.refsOf := by rw [hs]; rfl
  constructor
  · obtain ⟨new, hconns, -⟩ := happ.connsOf
    rw [hconns, if_neg happ.ne_cell.symm, if_pos rfl, hkept]
    simp [happ.seat.mem]
  · intro x
    rw [hsources, mem_flatMap]
    constructor
    · rintro ⟨c', hc', hx⟩
      simp only [mem_filter, Bool.and_eq_true] at hc'
      rw [hone hc'.1 hc hc'.2.2 hdata, hd] at hx
      exact mem_singleton.mp hx
    · rintro rfl
      exact ⟨c, by simp [hc, hin, hdata], by simp [hd]⟩

omit hg in
/-- A driver of the data input that does not belong to the buffer drives the slot. -/
theorem slot_driver (hs : s = .ofBuffer g s.cell s.target s.output s.slot) (hone : g.OneDataAt s.cell)
    (hc : c ∈ g.connsOf s.cell) (hin : g.isInput c) (hdata : g.isData c) (hd : g.refsOf c = [d])
    (hown : d ∉ g.connsOf s.cell) : g'.refsOf s.slot = [d] := by
  obtain ⟨hmem, hall⟩ := happ.mem_sources_iff hs hone hc hin hdata hd
  have hds : d ∈ g'.refsOf s.slot := by
    rw [happ.slot_refs hmem, mem_filter]
    exact ⟨hall.mpr rfl, by simpa using hown⟩
  have hsink := happ.evolves.keeps_sink happ.seat.sink
  exact happ.sound.refsOf_eq_singleton hsink hds

include hlone

theorem not_mem_cell (hs : g.isSink c) (hd : g.refsOf c = [d]) (hne : d ≠ s.output) :
    d ∉ g.connsOf s.cell := fun hm =>
  hne (hlone hm happ.output_mem (hg.output_of_sink (by simp [hd]) hs) happ.isOutput)

theorem frame_eq (hs : g.isSink c) (hslot : c ≠ s.slot) (hd : g.refsOf c = [d]) (hne : d ≠ s.output)
    (hc : c ∈ g'.connsOf m) : g'.refsOf c = [d] :=
  happ.keeps_driver hg hs hslot hd (happ.not_mem_cell hg hlone hs hd hne) hc

theorem other (hc : c ∈ g.connsOf m) (hm : m ≠ s.cell) (hs : g.isSink c) (hslot : c ≠ s.slot)
    (hd : g.refsOf c = [d]) : c ∈ g'.connsOf m ∧ ∃ e, g'.refsOf c = [e] ∧ s.Redirects g' d e := by
  have hmem := happ.mem_of_ne hc hm hslot
  refine ⟨hmem, ?_⟩
  by_cases hdo : d = s.output
  · have hmoved : c ∉ s.moved := fun hmv => hm (hg.eq_of_mem hc (happ.isInput hmv).1)
    obtain ⟨out, hout, ho, hrefs⟩ := happ.consumer (hdo ▸ hg.mirror (by simp [hd])) hslot hmoved hmem
    exact ⟨out, hrefs, .inr ⟨hdo, hout, ho⟩⟩
  · exact ⟨d, happ.frame_eq hg hlone hs hslot hd hdo hmem, .inl ⟨hdo, rfl⟩⟩

theorem own (hc : c ∈ s.moved) (hd : g.refsOf c = [d]) : c ∈ g'.connsOf s.target ∧
    (d = s.output ∧ g'.refsOf c = [] ∨ d ≠ s.output ∧ g'.refsOf c = [d]) := by
  have hmem := happ.mem_of_moved hc
  refine ⟨hmem, ?_⟩
  by_cases hdo : d = s.output
  · exact .inl ⟨hdo, happ.loop hc (hdo ▸ hg.mirror (by simp [hd]))⟩
  · exact .inr ⟨hdo, happ.frame_eq hg hlone (isSink_of_isInput (happ.isInput hc).2)
      (happ.ne_slot_of_moved hg hc) hd hdo hmem⟩

/-- The data input of a buffer leaves its driver to the slot. -/
theorem data (hs : s = .ofBuffer g s.cell s.target s.output s.slot) (hone : g.OneDataAt s.cell)
    (hc : c ∈ g.connsOf s.cell) (hin : g.isInput c) (hdata : g.isData c) (hd : g.refsOf c = [d]) :
    s.slot ∈ g'.connsOf s.target ∧
      (d = s.output ∧ g'.refsOf s.slot = [] ∨ d ≠ s.output ∧ g'.refsOf s.slot = [d]) := by
  obtain ⟨hmem, hall⟩ := happ.mem_sources_iff hs hone hc hin hdata hd
  refine ⟨hmem, ?_⟩
  by_cases hdo : d = s.output
  · refine .inl ⟨hdo, ?_⟩
    rw [happ.slot_refs hmem, filter_eq_nil_iff]
    intro x hx
    rw [hall.mp hx, hdo]
    simp [happ.output_mem]
  · exact .inr ⟨hdo, happ.slot_driver hs hone hc hin hdata hd
      (happ.not_mem_cell hg hlone (isSink_of_isInput hin) hd hdo)⟩

end Takeover.Applies

namespace TakesOver

variable (ht : TakesOver s g g1 g2 g') (hg : g.Poised K)
  (hK : ∀ k, k.isSequential → K k)
include ht

theorem hasKind_cell : g.hasKind NodeKind.isSequential s.cell := by
  have hs := isSome_of_mem_connsOf ht.mem
  rw [← ht.seats.evolves.hasKind hs]
  exact ht.applies.cell_kind

theorem mem_cells (hg : g.Owned) : s.cell ∈ g.cells :=
  hg.mem_cells_of_isCell ht.mem (isCell_of_isSequential ht.hasKind_cell)

/-- An output of the target stays with it. -/
theorem mem_target (he : e ∈ g1.connsOf s.target) (heo : g1.isOutput e) :
    e ∈ g2.connsOf s.target ∧ g2.isOutput e := by
  have hes := ne_of_isSink ht.applies.seat.sink heo
  exact ⟨ht.applies.mem_of_ne he ht.applies.ne_cell.symm hes.symm,
    ht.applies.evolves.keeps_output heo⟩

/-- A node that was there before is not the new target. -/
theorem connsOf1 (hn : (g.node? n).isSome) : g1.connsOf n = g.connsOf n :=
  ht.seats.connsOf hn

include hg hK

theorem regularAt1 : g1.RegularAt s.cell := by
  obtain ⟨k, hk, hseq⟩ := hasKind_iff.mp ht.applies.cell_kind
  exact (ht.poised1 hg).regular (hasKind_of hk (by simp [hK k hseq]))

/-- What is not an input of the cell stays where it is and reads the target in place of the cell. -/
theorem other (hc : c ∈ g.connsOf m) (hm : m ≠ s.cell) (hs : g.isSink c) (hslot : c ≠ s.slot)
    (hd : g.refsOf c = [d]) : c ∈ g2.connsOf m ∧ ∃ e, g2.refsOf c = [e] ∧ s.Redirects g2 d e := by
  have hlone := (ht.regularAt1 hg hK).lone
  have hg1 := (ht.poised1 hg).toSound
  have hc1 : c ∈ g1.connsOf m := by rwa [ht.connsOf1 (isSome_of_mem_connsOf hc)]
  have hs1 := ht.seats.evolves.keeps_sink hs
  rcases ht.seats.reads hg.toSound ht.isOutput hs hd with ⟨hd1, -⟩ | ⟨hdo, -, e, he, heo, hne, hd1⟩
  · exact ht.applies.other hg1 hlone hc1 hm hs1 hslot hd1
  · obtain ⟨hmem, e', he', hr⟩ := ht.applies.other hg1 hlone hc1 hm hs1 hslot hd1
    rcases hr with ⟨-, rfl⟩ | ⟨heq, -⟩
    · exact ⟨hmem, e', he', .inr ⟨hdo, ht.mem_target he heo⟩⟩
    · exact absurd heq hne

omit hK in
/-- An input of the cell that is driven by `d` reads the same on the target, wherever it ends up. A loop
is cut if the target is a pin. -/
theorem redirects_or_loop (hc : c ∈ g.connsOf s.cell) (hs : g.isSink c) (hd : g.refsOf c = [d])
    (hrun : ∀ d1, g1.refsOf c = [d1] → c ∈ g1.connsOf s.cell → x ∈ g2.connsOf s.target ∧
      (d1 = s.output ∧ g2.refsOf x = [] ∨ d1 ≠ s.output ∧ g2.refsOf x = [d1])) : x ∈ g2.connsOf s.target ∧
      (d = s.output ∧ g2.kindOf? s.target = some .pin ∧ g2.refsOf x = [] ∨
        (d = s.output → g2.kindOf? s.target = some .pinNode) ∧
          ∃ e, g2.refsOf x = [e] ∧ s.Redirects g2 d e) := by
  have hc1 : c ∈ g1.connsOf s.cell := by rwa [ht.connsOf1 (isSome_of_mem_connsOf hc)]
  rw [ht.applies.kindOf?]
  rcases ht.seats.reads hg.toSound ht.isOutput hs hd with ⟨hd1, hseat⟩ | ⟨hdo, hk, e, he, heo, hne, hd1⟩
  · obtain ⟨hmem, ⟨hdo, hnil⟩ | ⟨hdo, hr⟩⟩ := hrun d hd1 hc1
    · refine ⟨hmem, .inl ⟨hdo, ?_, hnil⟩⟩
      -- the cell itself is a consumer besides the slot
      have hseat := hseat hdo
      have hkt : g1.kindOf? s.target = g.kindOf? s.target :=
        ht.seats.evolves.kind (isSome_of_mem_connsOf hseat.mem)
      rw [hkt]
      refine hseat.pin.resolve_right fun hsole => ?_
      have hcr : c ∈ g.refsOf s.output := hdo ▸ hg.mirror (by simp [hd])
      rw [hsole, mem_singleton] at hcr
      rw [hcr] at hc
      exact ht.applies.ne_cell (hg.eq_of_mem hc hseat.mem)
    · exact ⟨hmem, .inr ⟨fun hd => absurd hd hdo, d, hr, .inl ⟨hdo, rfl⟩⟩⟩
  · obtain ⟨hmem, ⟨heq, -⟩ | ⟨-, hr⟩⟩ := hrun e hd1 hc1
    · exact absurd heq hne
    · exact ⟨hmem, .inr ⟨fun _ => hk, e, hr, .inr ⟨hdo, ht.mem_target he heo⟩⟩⟩

theorem own (hc : c ∈ s.moved) (hd : g.refsOf c = [d]) : c ∈ g2.connsOf s.target ∧
    (d = s.output ∧ g2.kindOf? s.target = some .pin ∧ g2.refsOf c = [] ∨
      (d = s.output → g2.kindOf? s.target = some .pinNode) ∧
          ∃ e, g2.refsOf c = [e] ∧ s.Redirects g2 d e) := by
  obtain ⟨hmem, hin⟩ := ht.applies.isInput hc
  have hcell := isSome_of_mem_connsOf ht.mem
  rw [ht.connsOf1 hcell] at hmem
  have hs : g.isSink c := by
    rw [← ht.seats.evolves.isSink (hg.conn_isSome hmem)]
    exact isSink_of_isInput hin
  exact ht.redirects_or_loop hg hmem hs hd fun d1 hd1 _ =>
    ht.applies.own (ht.poised1 hg).toSound (ht.regularAt1 hg hK).lone hc hd1

/-- What becomes of the data of a buffer. -/
theorem data (hk : g.kindOf? s.cell = some .triState) (hc : c ∈ g.connsOf s.cell)
    (hin : g.isInput c) (hdata : g.isData c) (hd : g.refsOf c = [d]) : s.slot ∈ g2.connsOf s.target ∧
      (d = s.output ∧ g2.kindOf? s.target = some .pin ∧ g2.refsOf s.slot = [] ∨
        (d = s.output → g2.kindOf? s.target = some .pinNode) ∧
          ∃ e, g2.refsOf s.slot = [e] ∧ s.Redirects g2 d e) := by
  cases ht.role with
  | register hreg =>
    rw [hasKind, hk] at hreg
    cases hreg
  | buffer _ _ hs =>
    have hcs := hg.conn_isSome hc
    have hk1 := (ht.seats.evolves.kind (isSome_of_mem_connsOf hc)).trans hk
    refine ht.redirects_or_loop hg hc (isSink_of_isInput hin) hd fun d1 hd1 hc1 => ?_
    refine ht.applies.data (ht.poised1 hg).toSound (ht.regularAt1 hg hK).lone hs
      ((ht.poised1 hg).data hk1) hc1 ?_ ?_ hd1
    · exact (isInput_congr (ht.seats.evolves.direction hcs)).trans hin
    · rw [isData, ht.seats.connNameOf? hcs]
      exact hdata

end TakesOver

/-! ## What stays where it is -/

theorem Seats.cells (hs : Seats g o t slot g1) : g1.cells = g.cells := by
  cases hs with
  | existing => rfl
  | fresh hp => exact hp.cells

theorem Seats.pins (hs : Seats g o t slot g1) : g1.pins = g.pins := by
  cases hs with
  | existing => rfl
  | fresh hp => exact hp.pins

theorem Seats.mem_pinNodes (hs : Seats g o t slot g1) (hn : n ∈ g.pinNodes) : n ∈ g1.pinNodes := by
  cases hs with
  | existing => exact hn
  | fresh hp =>
    rw [hp.pinNodes]
    exact mem_append_left _ hn

theorem Seats.mem_pinNodes_of_ne (hs : Seats g o t slot g1) (hn : n ∈ g1.pinNodes) (hne : n ≠ t) :
    n ∈ g.pinNodes := by
  cases hs with
  | existing => exact hn
  | fresh hp =>
    rw [hp.pinNodes, mem_append, mem_singleton] at hn
    exact hn.resolve_right hne

/-- A slot that was there before belongs to a target that was there before. -/
theorem Seats.mem_slot (hs : Seats g o t slot g1) (hc : (g.conn? slot).isSome) : Seat g o t slot := by
  cases hs with
  | existing hseat => exact hseat
  | fresh => exact absurd rfl (ne_put hc).2

theorem TakesOver.ne_cell_of_named (ht : TakesOver s g g1 g2 g')
    (hn : g.hasKind NodeKind.isNamed n) : n ≠ s.cell :=
  (ne_of_isCell (isCell_of_isSequential ht.hasKind_cell) hn).symm

/-- The slot is the input of a pin or pin node. -/
theorem TakesOver.ne_slot (ht : TakesOver s g g1 g2 g') (hg : g.Sound) (hc : c ∈ g.connsOf s.cell) :
    c ≠ s.slot := by
  rintro rfl
  have hseat := ht.seats.mem_slot (hg.conn_isSome hc)
  exact ht.ne_cell_of_named hseat.named (hg.eq_of_mem hseat.mem hc)

/-- An output of a pin or pin node stays where it is. -/
theorem TakesOver.mem_output (ht : TakesOver s g g1 g2 g') (hn : g.hasKind NodeKind.isNamed n) (hd : d ∈ g.connsOf n)
    (hout : g.isOutput d) : d ∈ g2.connsOf n ∧ g2.isOutput d := by
  have hd1 : d ∈ g1.connsOf n := by rwa [ht.connsOf1 (isSome_of_mem_connsOf hd)]
  have hout1 := ht.seats.evolves.keeps_output hout
  refine ⟨ht.applies.mem_of_ne hd1 (ht.ne_cell_of_named hn) ?_, ?_⟩
  · exact (ne_of_isSink ht.applies.seat.sink hout1).symm
  · exact ht.applies.evolves.keeps_output hout1

theorem Seats.mem_before (hs : Seats g o t slot g1) (hc : (g.conn? c).isSome) (hm : c ∈ g1.connsOf n) :
    c ∈ g.connsOf n := by
  cases hs with
  | existing => exact hm
  | fresh hp =>
    rw [hp.connsOf] at hm
    split at hm
    · have hne := ne_put hc
      simp [hne] at hm
    · exact hm

theorem NodeKind.isRegister_or_eq {k : NodeKind} (hk : k.isSequential) : k.isRegister ∨ k = .triState := by
  cases k <;> first | exact .inl rfl | exact .inr rfl | cases hk

theorem isRegister_or_triState (hn : g.hasKind NodeKind.isSequential n) :
    g.hasKind NodeKind.isRegister n ∨ g.kindOf? n = some .triState := by
  obtain ⟨k, hk, hseq⟩ := hasKind_iff.mp hn
  rcases NodeKind.isRegister_or_eq hseq with hreg | rfl
  · exact .inl (hasKind_of hk hreg)
  · exact .inr hk

/-- The target receives every input of the cell but the data input of a buffer. -/
theorem TakesOver.moved_or_data (ht : TakesOver s g g1 g2 g') (hc : c ∈ g1.connsOf s.cell)
    (hin : g1.isInput c) : c ∈ s.moved ∨ g.kindOf? s.cell = some .triState ∧ g1.isData c := by
  cases ht.role with
  | register _ _ hs =>
    left
    rw [hs]
    exact mem_filter.mpr ⟨hc, hin⟩
  | buffer hk _ hs =>
    cases hd : g1.isData c with
    | true => exact .inr ⟨hk, rfl⟩
    | false =>
      left
      rw [hs]
      exact mem_filter.mpr ⟨hc, by simp [hin, hd]⟩

theorem TakesOver.not_data_of_moved (ht : TakesOver s g g1 g2 g') (hc : c ∈ s.moved)
    (hk : g.kindOf? s.cell = some .triState) : g1.isData c = false := by
  cases ht.role with
  | register hreg =>
    rw [hasKind, hk] at hreg
    cases hreg
  | buffer _ _ hs =>
    rw [hs] at hc
    have hd := (mem_filter.mp hc).2
    simp only [Bool.and_eq_true, Bool.not_eq_true'] at hd
    exact hd.2

/-- No register or buffer has a bidirectional connection. -/
def OneWay (g : Network) : Prop :=
  ∀ ⦃n c⦄, g.hasKind NodeKind.isSequential n = true → c ∈ g.connsOf n → g.isSink c = true →
    g.isInput c = true

theorem Tidy.oneWay (hg : g.Tidy K) (hK : ∀ k, k.isSequential → K k) : g.OneWay := by
  intro n c hk hc hs
  obtain ⟨k, hk, hseq⟩ := hasKind_iff.mp hk
  have hreg := hg.regular (hasKind_of hk (by simp [hK k hseq]))
  have hplain : g.kindOf? n ≠ some .pin := by
    rw [hk]
    rintro ⟨⟩
    cases hseq
  refine (hreg.plain hplain hc).resolve_right fun ho => ?_
  rw [not_isSink_of_isOutput ho] at hs
  cases hs

/-- Registers and buffers gain no connections. -/
theorem OneWay.evolves (h : g.OneWay) (hg : g.Owned) (hg' : g'.Owned) (he : Evolves g g')
    (hcells : ∀ n ∈ g'.cells, n ∈ g.cells) : g'.OneWay := by
  intro n c hk hc hs
  have hn := hg.cell_isSome (hcells n (hg'.mem_cells_of_isCell hc (isCell_of_isSequential hk)))
  rw [he.hasKind hn] at hk
  have hc0 : c ∈ g.connsOf n := he.shrinks hn (not_isNamed_of_isSequential hk) hc
  have hcs := hg.conn_isSome hc0
  rw [he.isSink hcs] at hs
  exact (isInput_congr (he.direction hcs)).trans (h hk hc0 hs)

section

variable (ht : TakesOver s g g1 g2 g') (hg : g.Poised K)
include ht hg

theorem TakesOver.oneWay (h : g.OneWay) : g'.OneWay := by
  refine h.evolves hg.toOwned (ht.poised hg).toOwned (ht.evolves hg) fun n hn => ?_
  have hn2 : n ∈ g2.cells := (ht.retires hg).cells.subset hn
  rw [ht.applies.cells, mem_filter] at hn2
  exact ht.seats.cells ▸ hn2.1

/-- Every pin node that was read is read: what read it is still there, except that the driver of a data
input is left to the slot. -/
theorem TakesOver.pinNodesRead_of_oneWay (hone : g.OneWay) (hread : g.PinNodesRead) : g2.PinNodesRead := by
  have hread1 : g1.PinNodesRead := by
    have hs := ht.seats
    generalize s.target = t, s.slot = slot at hs
    cases hs with
    | existing => exact hread
    | fresh hp => exact hp.pinNodesRead hg.toSound ht.isOutput ht.read hread
  have hg1 := ht.poised1 hg
  have hone1 : g1.OneWay :=
    hone.evolves hg.toOwned hg1.toOwned ht.seats.evolves fun n hn => ht.seats.cells ▸ hn
  intro n hn
  rw [ht.applies.pinNodes] at hn
  obtain ⟨c, d, hs, hd, hmem⟩ := hread1 n hn
  have hdc : d ∈ g1.refsOf c := by simp [hd]
  have hout := hg1.output_of_sink hdc hs
  have hnc : n ≠ s.cell := by
    rintro rfl
    have hcell := ht.applies.cell_kind
    rw [hasKind, hg1.pinNode_kind hn] at hcell
    cases hcell
  have hown : d ∉ g1.connsOf s.cell := fun hm => hnc (hg1.eq_of_mem hmem hm)
  have hmem2 : d ∈ g2.connsOf n :=
    ht.applies.mem_of_ne hmem hnc (ne_of_isSink ht.applies.seat.sink hout).symm
  have hsink : ∀ {x}, g1.isSink x → g2.isSink x := fun hx =>
    ht.applies.evolves.keeps_sink hx
  -- the slot reads the cell, so this is another connection
  have hslot : c ≠ s.slot := by
    rintro rfl
    have hdo := singleton_inj.mp (hd.symm.trans ht.applies.seat.refs)
    exact hown (hdo ▸ ht.applies.output_mem)
  have hkeeps : ∀ {m}, c ∈ g2.connsOf m → g2.refsOf c = [d] := fun hc =>
    ht.applies.keeps_driver hg1.toSound hs hslot hd hown hc
  obtain ⟨e, he⟩ := hg1.listed hdc
  by_cases hec : e = s.cell
  · -- an input of the cell, which goes to the target or leaves its driver to the slot
    subst hec
    have hin := hone1 ht.applies.cell_kind he hs
    rcases ht.moved_or_data he hin with hmv | ⟨hk, hdata⟩
    · exact ⟨c, d, hsink hs, hkeeps (ht.applies.mem_of_moved hmv), hmem2⟩
    · cases ht.role with
      | register hreg =>
        rw [hasKind, hk] at hreg
        cases hreg
      | buffer _ _ hsb =>
        have hk1 := (ht.seats.evolves.kind (isSome_of_kindOf? hk)).trans hk
        exact ⟨s.slot, d, hsink ht.applies.seat.sink,
          ht.applies.slot_driver hsb (hg1.data hk1) he hin hdata hd hown, hmem2⟩
  · exact ⟨c, d, hsink hs, hkeeps (ht.applies.mem_of_ne he hec hslot), hmem2⟩

theorem TakesOver.pinNodesRead (hK : ∀ k, k.isSequential → K k) (hread : g.PinNodesRead) :
    g2.PinNodesRead :=
  ht.pinNodesRead_of_oneWay hg (hg.oneWay hK) hread

/-- A node that is neither the cell nor the target keeps a driver that is not on the cell. -/
theorem TakesOver.keeps_driver (hc : c ∈ g.connsOf n) (hcell : n ≠ s.cell) (htarget : n ≠ s.target)
    (hs : g.isSink c) (hd : g.refsOf c = [d]) (hm : d ∈ g.connsOf m) (hmc : m ≠ s.cell) :
    c ∈ g2.connsOf n ∧ g2.refsOf c = [d] ∧ d ∈ g2.connsOf m := by
  have hg1 := ht.poised1 hg
  have hc1 : c ∈ g1.connsOf n := by rwa [ht.connsOf1 (isSome_of_mem_connsOf hc)]
  have hm1 : d ∈ g1.connsOf m := by rwa [ht.connsOf1 (isSome_of_mem_connsOf hm)]
  have hs1 := ht.seats.evolves.keeps_sink hs
  -- a pin node is put behind the output of the cell only
  have hd1 : g1.refsOf c = [d] := by
    rcases ht.seats.reads hg.toSound ht.isOutput hs hd with ⟨hd1, -⟩ | ⟨hdo, -⟩
    · exact hd1
    · exact absurd (hg.eq_of_mem hm (hdo ▸ ht.mem)) hmc
  have hslot : c ≠ s.slot := by
    rintro rfl
    exact htarget (hg1.eq_of_mem hc1 ht.applies.seat.mem)
  have hmem := ht.applies.mem_of_ne hc1 hcell hslot
  refine ⟨hmem, ?_, ht.applies.mem_of_ne hm1 hmc ?_⟩
  · exact ht.applies.keeps_driver hg1.toSound hs1 hslot hd1
      (fun hmem => hmc (hg1.eq_of_mem hm1 hmem)) hmem
  · exact (ne_of_isSink ht.applies.seat.sink (hg1.output_of_sink (by simp [hd1]) hs1)).symm

end

/-- A connection that reads nothing goes on reading nothing. -/
theorem TakesOver.refsOf_eq_nil (ht : TakesOver s g g1 g2 g') (hg : g.Poised K) (hc : c ∈ g.connsOf m)
    (hm : m ≠ s.cell) (hs : g.isSink c) (hnil : g.refsOf c = []) :
    c ∈ g2.connsOf m ∧ g2.refsOf c = [] := by
  have hc1 : c ∈ g1.connsOf m := by rwa [ht.connsOf1 (isSome_of_mem_connsOf hc)]
  have hs1 := ht.seats.evolves.keeps_sink hs
  refine ht.applies.refsOf_eq_nil (ht.poised1 hg).toSound hc1 hm hs1 ?_
  have hseats := ht.seats
  generalize s.target = t, s.slot = slot at hseats
  cases hseats with
  | existing => exact hnil
  | fresh hp => exact hp.refsOf_eq_nil hg.toSound ht.isOutput hs hnil

theorem TakesOver.target_mem (ht : TakesOver s g g1 g2 g') (hg : g.Poised K) :
    s.target ∈ g2.pins ++ g2.pinNodes := by
  rw [ht.applies.pins, ht.applies.pinNodes]
  exact (ht.poised1 hg).mem_of_isNamed ht.applies.seat.mem ht.applies.seat.named

theorem TakesOver.mem_pins (ht : TakesOver s g g1 g2 g') (hg : g.Poised K)
    (hk : g2.kindOf? s.target = some .pin) : s.target ∈ g2.pins := by
  refine (mem_append.mp (ht.target_mem hg)).resolve_right fun hn => ?_
  rw [ht.applies.sound.pinNode_kind hn] at hk
  cases hk

end PldSynth.Network
