import PldSynth.Proofs.Network.Hosting

/-!
# What a node inherits from the cells that it took over

When registers and buffers are taken over, their inputs go to other nodes and their consumers read
other outputs. `Inherits` says where everything went, for a map `host` from the merged cells to the
nodes that took them over, and every takeover extends it.

One thing is lost. If a cell reads its own output and goes to a pin, then that input ends up on the pin
without a wire. `Inherits.keepsWiring_iff_no_loop` says that this is the only loss.
-/

namespace PldSynth.Network

variable {K : NodeKind → Bool} {g g' g1 g2 h : Network} {n m : NodeId} {c d x e : ConnId} {s : Takeover}

/-! ## What a run of takeovers does -/

/-- `d'` carries the signal of `d`: it is `d`, or if `d` belonged to a merged cell, it is an output of
the host of that cell. -/
def Carries (host : NodeId → NodeId) (g g' : Network) (d d' : ConnId) : Prop :=
  (∃ m, Merged g g' m ∧ d ∈ g.connsOf m ∧ d' ∈ g'.connsOf (host m) ∧ g'.isOutput d' = true) ∨
    (d' = d ∧ ∀ m, d ∈ g.connsOf m → ¬ Merged g g' m)

/-- A merged cell on a pin drives one of its own inputs, by its output `d`. -/
def Looped (host : NodeId → NodeId) (g g' : Network) (n : NodeId) (d : ConnId) : Prop :=
  Merged g g' n ∧ d ∈ g.connsOf n ∧ host n ∈ g.pins

/-- What an input of `n` reads in `g'` if it was driven by `d` in `g`. -/
def Still (host : NodeId → NodeId) (g g' : Network) (n : NodeId) (d : ConnId) (l : List ConnId) : Prop :=
  (Looped host g g' n d ∧ l = []) ∨
    (¬ Looped host g g' n d ∧ ∃ d', l = [d'] ∧ Carries host g g' d d')

/-- A connection of the host of `n` that can be driven and is no connection of a merged cell. -/
structure OwnSlot (host : NodeId → NodeId) (g g' : Network) (n : NodeId) (s : ConnId) : Prop where
  mem : s ∈ g'.connsOf (host n)
  sink : g'.isSink s = true
  own : ∀ m, Merged g g' m → s ∉ g.connsOf m

/-- No signal gets lost on the way from `g` to `g'`, but for loops on pins. -/
structure Inherits (host : NodeId → NodeId) (g g' : Network) : Prop extends Houses host g g' where
  /-- Apart from data inputs and the slots that gave way, every connection that can be driven is there
  and reads the same signal. -/
  kept : ∀ {n c d}, c ∈ g.connsOf n → g.isSink c = true → g.refsOf c = [d] →
    MergedData g g' n c ∨ (∃ m, Merged g g' m ∧ d ∈ g.connsOf m ∧ n = host m) ∨
      (c ∈ g'.connsOf (host n) ∧ Still host g g' n d (g'.refsOf c))
  /-- The driver of a data input drives the host, or was merged into it. -/
  data : ∀ {n c d}, MergedData g g' n c → c ∈ g.connsOf n → g.isInput c = true → g.refsOf c = [d] →
    (∃ s, OwnSlot host g g' n s ∧ Still host g g' n d (g'.refsOf s)) ∨
      ∃ r, Merged g g' r ∧ g.hasKind NodeKind.isRegister r = true ∧ d ∈ g.connsOf r ∧ host r = host n

theorem Inherits.refl (hg : g.Owned) (hread : g.PinNodesRead) : Inherits id g g where
  toHouses := .refl hg hread
  kept {_ _ d} hc _ hd :=
    .inr (.inr ⟨hc, .inr ⟨fun hl => not_merged_self hl.1, d, hd, .inr ⟨rfl, fun _ _ => not_merged_self⟩⟩⟩)
  data hd := absurd hd.1 not_merged_self

namespace Inherits

variable {host : NodeId → NodeId} (hi : Inherits host g h) (hg : g.Tidy K) (hh : h.Poised K)
  (ht : TakesOver s h g1 g2 g')
include hi hg hh ht

/-- What carried a signal before the takeover leads to what carries it afterwards. -/
theorem carries (hlone : g.LoneAt s.cell) (hout : g.isOutput d) (hc : Carries host g h d x)
    (hr : s.Redirects g2 x e) : Carries (Function.update host s.cell s.target) g g2 d e := by
  obtain ⟨-, -, hcell, hconns, -⟩ := hi.cell_spec hg hh ht
  have hcell_out : s.output ∈ g.connsOf s.cell := hconns ▸ ht.mem
  rcases hc with ⟨m, hm, hd, hx, hxo⟩ | ⟨rfl, hnot⟩
  · -- the host of a merged cell is a pin or pin node, so it is not what is taken over now
    have hnamed := hi.named_host hh hm
    have hmc : m ≠ s.cell := fun heq => hm.2.2 (heq ▸ hcell)
    have hxs : x ≠ s.output := by
      rintro rfl
      exact ht.ne_cell_of_named hnamed (hh.eq_of_mem hx ht.mem)
    rcases hr with ⟨-, rfl⟩ | ⟨heq, -⟩
    · obtain ⟨hx2, hxo2⟩ := ht.mem_output hnamed hx hxo
      refine .inl ⟨m, (hi.merged_of_ne hg hh ht hmc).mpr hm, hd, ?_, hxo2⟩
      rwa [Function.update_of_ne hmc]
    · exact absurd heq hxs
  · -- `d` still carries itself: it goes over to the target if it is the output of the cell
    rcases hr with ⟨hne, rfl⟩ | ⟨rfl, he, heo⟩
    · refine .inr ⟨rfl, fun m hm hmerged => ?_⟩
      rcases (hi.merged_iff hg hh ht).mp hmerged with hmerged | rfl
      · exact hnot m hm hmerged
      · apply hne
        refine hlone hm hcell_out hout ?_
        rw [← hi.evolves.isOutput (hg.conn_isSome hcell_out)]
        exact ht.isOutput
    · refine .inl ⟨s.cell, (hi.merged_iff hg hh ht).mpr (.inr rfl), hcell_out, ?_, heo⟩
      rwa [Function.update_self]

theorem looped_iff (hn : n ≠ s.cell) :
    Looped (Function.update host s.cell s.target) g g2 n d ↔ Looped host g h n d := by
  rw [Looped, Looped, hi.merged_of_ne hg hh ht hn, Function.update_of_ne hn]

omit hg in
/-- What an unmerged cell carries is its own output. -/
theorem eq_output (hc : Carries host g h d s.output) : d = s.output := by
  rcases hc with ⟨m, hm, -, hx, -⟩ | ⟨heq, -⟩
  · exact absurd (hh.eq_of_mem hx ht.mem) (ht.ne_cell_of_named (hi.named_host hh hm))
  · exact heq.symm

/-- An input that went from the cell to the target reads the same, unless it read the cell itself and
the target is a pin. -/
theorem still_own {l : List ConnId} (hlone : g.LoneAt s.cell) (hout : g.isOutput d)
    (hx : Carries host g h d x) (hl : x = s.output ∧ g2.kindOf? s.target = some .pin ∧ l = [] ∨
      (x = s.output → g2.kindOf? s.target = some .pinNode) ∧ ∃ e, l = [e] ∧ s.Redirects g2 x e) :
    Still (Function.update host s.cell s.target) g g2 s.cell d l := by
  obtain ⟨-, -, hcell, hconns, -⟩ := hi.cell_spec hg hh ht
  have hmerged : Merged g g2 s.cell := (hi.merged_iff hg hh ht).mpr (.inr rfl)
  have hpins : g2.pins = g.pins := by rw [ht.applies.pins, ht.seats.pins, hi.pins]
  rcases hl with ⟨rfl, hpin, hnil⟩ | ⟨hpin, e, he, hr⟩
  · -- the input read the cell itself and was cut off on the pin
    have hd := hi.eq_output hh ht hx
    refine .inl ⟨⟨hmerged, hd ▸ hconns ▸ ht.mem, ?_⟩, hnil⟩
    rw [Function.update_self, ← hpins]
    exact ht.mem_pins hh hpin
  · refine .inr ⟨fun ⟨_, hd, htarget⟩ => ?_, e, he, hi.carries hg hh ht hlone hout hx hr⟩
    -- then `d` is the output of the cell, and nothing carried it yet
    rw [Function.update_self, ← hpins] at htarget
    have hxd : x = d := by
      rcases hx with ⟨m, hm, hdm, -⟩ | ⟨heq, -⟩
      · exact absurd hcell (hg.eq_of_mem hdm hd ▸ hm.2.2)
      · exact heq
    have hdo : d = s.output := by
      refine hlone hd (hconns ▸ ht.mem) hout ?_
      rw [← hi.evolves.isOutput (hg.conn_isSome (hconns ▸ ht.mem))]
      exact ht.isOutput
    have hk := hpin (hxd.trans hdo)
    rw [ht.applies.sound.pin_kind htarget] at hk
    cases hk

/-- A connection that is neither an input of the cell nor the slot stays and reads the same. -/
theorem still_other (hK : ∀ k, k.isSequential → K k) (hn : n ≠ s.cell) (hc : c ∈ h.connsOf (host n))
    (hs : h.isSink c) (hslot : c ≠ s.slot) (hout : g.isOutput d)
    (hstill : Still host g h n d (h.refsOf c)) : c ∈ g2.connsOf (host n) ∧
      Still (Function.update host s.cell s.target) g g2 n d (g2.refsOf c) := by
  have hne := hi.host_ne_cell hh ht hn
  have hloop := hi.looped_iff hg hh ht (d := d) hn
  rcases hstill with ⟨hl, hnil⟩ | ⟨hl, x, hx, hcar⟩
  · obtain ⟨hmem, hnil⟩ := ht.refsOf_eq_nil hh hc hne hs hnil
    exact ⟨hmem, .inl ⟨hloop.mpr hl, hnil⟩⟩
  · obtain ⟨hmem, e, he, hr⟩ := ht.other hh hK hc hne hs hslot hx
    exact ⟨hmem, .inr ⟨fun hl' => hl (hloop.mp hl'), e, he,
      hi.carries hg hh ht (hi.loneAt_cell hg hh ht hK) hout hcar hr⟩⟩

/-- The slot of a node that took over nothing gives way to the cell that drives it. -/
theorem slot_given (hn : ¬ Merged g h n) (hc : c ∈ h.connsOf (host n)) (hslot : c = s.slot)
    (hstill : Still host g h n d (h.refsOf c)) :
    Merged g g2 s.cell ∧ d ∈ g.connsOf s.cell ∧ n = s.target := by
  obtain ⟨-, -, -, hconns, -⟩ := hi.cell_spec hg hh ht
  subst hslot
  have hseat := ht.seats.mem_slot (hh.conn_isSome hc)
  obtain ⟨x, hx, hcar⟩ := (hstill.resolve_left fun hl => hn hl.1.1).2
  obtain rfl : s.output = x := List.singleton_inj.mp (hseat.refs.symm.trans hx)
  refine ⟨(hi.merged_iff hg hh ht).mpr (.inr rfl), ?_, ?_⟩
  · rw [hi.eq_output hh ht hcar, ← hconns]
    exact ht.mem
  · rw [← hi.fixed hn]
    exact hh.eq_of_mem hc hseat.mem

section

variable (hK : ∀ k, k.isSequential → K k)
  (hbuf : ∀ {n c}, g.kindOf? n = some .triState → c ∈ g.connsOf n → g.isSink c →
    g.isData c ∨ g.connNameOf? c = some bufferEnable)
  (hphase : h.kindOf? s.cell = some .triState → ∀ n, Merged g h n → g.kindOf? n = some .triState)
include hK

/-- An input of the cell goes to the target with its wire, or it is data. -/
theorem kept_cell (hc : c ∈ g.connsOf s.cell) (hs : g.isSink c) (hout : g.isOutput d)
    (hstill : Still host g h s.cell d (h.refsOf c)) : MergedData g g2 s.cell c ∨
      (c ∈ g2.connsOf s.target ∧
        Still (Function.update host s.cell s.target) g g2 s.cell d (g2.refsOf c)) := by
  obtain ⟨hseq, -, hcell, -, -⟩ := hi.cell_spec hg hh ht
  obtain ⟨x, hx, hcar⟩ := (hstill.resolve_left fun hl => hl.1.1.2.2 hcell).2
  rcases hi.moved_or_data hg hh ht hc (hg.oneWay hK hseq hc hs) with hmv | hdata
  · obtain ⟨hmem, hl⟩ := ht.own hh hK hmv hx
    exact .inr ⟨hmem, hi.still_own hg hh ht (hi.loneAt_cell hg hh ht hK) hout hcar hl⟩
  · exact .inl ⟨(hi.merged_iff hg hh ht).mpr (.inr rfl), hdata⟩

include hbuf hphase

/-- What becomes of an input in one takeover. -/
theorem kept_step (hc : c ∈ g.connsOf n) (hs : g.isSink c) (hd : g.refsOf c = [d]) : MergedData g g2 n c ∨
      (∃ m, Merged g g2 m ∧ d ∈ g.connsOf m ∧ n = Function.update host s.cell s.target m) ∨
      (c ∈ g2.connsOf (Function.update host s.cell s.target n) ∧
        Still (Function.update host s.cell s.target) g g2 n d (g2.refsOf c)) := by
  obtain ⟨-, -, hcell, -, hhost⟩ := hi.cell_spec hg hh ht
  have hout := hg.output_of_sink (d := d) (by simp [hd]) hs
  have hgrow : ∀ {m}, Merged g h m → Merged g g2 m ∧ m ≠ s.cell := fun hm =>
    ⟨(hi.merged_iff hg hh ht).mpr (.inl hm), fun heq => hm.2.2 (heq ▸ hcell)⟩
  -- what was given up before stays given up, so only the last case needs the takeover
  rcases hi.kept hc hs hd with hdata | ⟨m, hm, hdm, hn⟩ | ⟨hmem, hstill⟩
  · exact .inl ⟨(hgrow hdata.1).1, hdata.2⟩
  · refine .inr (.inl ⟨m, (hgrow hm).1, hdm, ?_⟩)
    rwa [Function.update_of_ne (hgrow hm).2]
  by_cases hnc : n = s.cell
  · subst hnc
    rw [Function.update_self]
    exact (hi.kept_cell hg hh ht hK hc hs hout hstill).imp_right .inr
  rw [Function.update_of_ne hnc]
  by_cases hslot : c = s.slot
  · -- a merged cell does not have the slot
    have hn : ¬ Merged g h n := fun hm => hi.slot_own hg ht hbuf hphase hm (hslot ▸ hc)
    obtain ⟨hmerged, hdc, hnt⟩ := hi.slot_given hg hh ht hn hmem hslot hstill
    exact .inr (.inl ⟨s.cell, hmerged, hdc, by rwa [Function.update_self]⟩)
  · have hs' := hi.evolves.keeps_sink hs
    exact .inr (.inr (hi.still_other hg hh ht hK hnc hmem hs' hslot hout hstill))

/-- The buffer that is taken over now leaves its driver to the slot. -/
theorem data_cell (hdata : MergedData g g2 s.cell c) (hc : c ∈ g.connsOf s.cell)
    (hin : g.isInput c) (hd : g.refsOf c = [d]) :
    OwnSlot (Function.update host s.cell s.target) g g2 s.cell s.slot ∧
      Still (Function.update host s.cell s.target) g g2 s.cell d (g2.refsOf s.slot) := by
  obtain ⟨-, -, hcell, hconns, -⟩ := hi.cell_spec hg hh ht
  have hs := isSink_of_isInput hin
  have hnot : ¬ Merged g h s.cell := fun hm => hm.2.2 hcell
  -- until now the buffer had its data
  have hstill : Still host g h s.cell d (h.refsOf c) := by
    rcases hi.kept hc hs hd with hdata' | ⟨m, hm, -, heq⟩ | ⟨-, hstill⟩
    · exact absurd hdata'.1 hnot
    · exact absurd heq.symm (ht.ne_cell_of_named (hi.named_host hh hm))
    · exact hstill
  obtain ⟨x, hx, hcar⟩ := (hstill.resolve_left fun hl => hnot hl.1.1).2
  have hk := (hi.evolves.kind (isSome_of_mem_connsOf hc)).trans hdata.2.1
  have hdata' : h.isData c := by
    rw [isData, hi.names (hg.conn_isSome hc)]
    exact hdata.2.2
  have hin' := (isInput_congr (hi.evolves.direction (hg.conn_isSome hc))).trans hin
  obtain ⟨hmem, hl⟩ := ht.data hh hK hk (hconns ▸ hc) hin' hdata' hx
  have hout := hg.output_of_sink (d := d) (by simp [hd]) hs
  refine ⟨⟨by rwa [Function.update_self], ?_, fun m hm => ?_⟩,
    hi.still_own hg hh ht (hi.loneAt_cell hg hh ht hK) hout hcar hl⟩
  · have hsink := ht.applies.seat.sink
    exact ht.applies.evolves.keeps_sink hsink
  · rcases (hi.merged_iff hg hh ht).mp hm with hm | rfl
    · exact hi.slot_own hg ht hbuf hphase hm
    · exact fun hslot => ht.ne_slot hh.toSound (hconns ▸ hslot) rfl

omit hbuf hphase in
/-- The slot that a buffer left to its driver stays, unless that driver is a register which is taken
over now: a node does not take over two buffers. -/
theorem data_slot {y : ConnId} (hn : Merged g h n) (hk : g.kindOf? n = some .triState)
    (hout : g.isOutput d) (hy : OwnSlot host g h n y) (hstill : Still host g h n d (h.refsOf y)) :
    (OwnSlot (Function.update host s.cell s.target) g g2 n y ∧
      Still (Function.update host s.cell s.target) g g2 n d (g2.refsOf y)) ∨
    g.hasKind NodeKind.isRegister s.cell ∧ d ∈ g.connsOf s.cell ∧ s.target = host n := by
  obtain ⟨-, -, hcell, hconns, -⟩ := hi.cell_spec hg hh ht
  have hnc : n ≠ s.cell := fun heq => hn.2.2 (heq ▸ hcell)
  by_cases hslot : y = s.slot
  · -- the cell drives the slot, so the cell carries `d`
    right
    have hseat := ht.seats.mem_slot (hh.conn_isSome (hslot ▸ hy.mem))
    have htarget : s.target = host n := hh.eq_of_mem hseat.mem (hslot ▸ hy.mem)
    rw [hslot, hseat.refs] at hstill
    obtain ⟨x, hx, hcar⟩ := (hstill.resolve_left fun hl => nomatch hl.2).2
    obtain rfl : s.output = x := List.singleton_inj.mp hx
    refine ⟨?_, ?_, htarget⟩
    · cases ht.role with
      | register hreg => rwa [← hi.evolves.hasKind (hg.cell_isSome (hi.cells _ hcell))]
      | buffer _ hfree =>
        have hb := hi.buffer hn hk
        rw [← htarget, hfree] at hb
        cases hb
    · rw [hi.eq_output hh ht hcar, ← hconns]
      exact ht.mem
  · left
    obtain ⟨hmem, hstill⟩ := hi.still_other hg hh ht hK hnc hy.mem hy.sink hslot hout hstill
    refine ⟨⟨by rwa [Function.update_of_ne hnc], ?_, fun m hm hym => ?_⟩, hstill⟩
    · have hsome := ht.seats.evolves.conn_isSome (isSome_of_isSink hy.sink)
      rw [ht.applies.evolves.isSink hsome, ht.seats.evolves.isSink (isSome_of_isSink hy.sink)]
      exact hy.sink
    · rcases (hi.merged_iff hg hh ht).mp hm with hm | rfl
      · exact hy.own m hm hym
      · exact hi.host_ne_cell hh ht hnc (hh.eq_of_mem hy.mem (hconns ▸ hym))

/-- What becomes of the data of a buffer in one takeover. -/
theorem data_step (hdata : MergedData g g2 n c) (hc : c ∈ g.connsOf n) (hin : g.isInput c)
    (hd : g.refsOf c = [d]) : (∃ y, OwnSlot (Function.update host s.cell s.target) g g2 n y ∧
      Still (Function.update host s.cell s.target) g g2 n d (g2.refsOf y)) ∨
    ∃ r, Merged g g2 r ∧ g.hasKind NodeKind.isRegister r ∧ d ∈ g.connsOf r ∧
      Function.update host s.cell s.target r = Function.update host s.cell s.target n := by
  have hcell := (hi.cell_spec hg hh ht).2.2.1
  by_cases hnc : n = s.cell
  · subst hnc
    exact .inl ⟨s.slot, hi.data_cell hg hh ht hK hbuf hphase hdata hc hin hd⟩
  have hn := (hi.merged_of_ne hg hh ht hnc).mp hdata.1
  have hout := hg.output_of_sink (d := d) (by simp [hd]) (isSink_of_isInput hin)
  rw [Function.update_of_ne hnc]
  rcases hi.data ⟨hn, hdata.2⟩ hc hin hd with ⟨y, hy, hstill⟩ | ⟨r, hr, hreg, hdr, heq⟩
  · rcases hi.data_slot hg hh ht hK hn hdata.2.1 hout hy hstill with hown | ⟨hreg, hdc, htarget⟩
    · exact .inl ⟨y, hown⟩
    · refine .inr ⟨s.cell, (hi.merged_iff hg hh ht).mpr (.inr rfl), hreg, hdc, ?_⟩
      rw [Function.update_self, htarget]
  · have hrc : r ≠ s.cell := fun heq => hr.2.2 (heq ▸ hcell)
    refine .inr ⟨r, (hi.merged_iff hg hh ht).mpr (.inl hr), hreg, hdr, ?_⟩
    rwa [Function.update_of_ne hrc]

/-- One takeover: the new host leads the cell to the target. -/
theorem takeover : Inherits (Function.update host s.cell s.target) g g2 where
  toHouses := hi.toHouses.takeover hg hh ht hK
  kept := hi.kept_step hg hh ht hK hbuf hphase
  data := hi.data_step hg hh ht hK hbuf hphase

end

end Inherits

/-- The list of equations has no part in it. -/
theorem Inherits.setTop {host : NodeId → NodeId} (hi : Inherits host g g') (l : List ConnId) :
    Inherits host g { g' with top := l } where
  toHouses := hi.toHouses.setTop l
  kept := hi.kept
  data hd hc hin hrefs :=
    (hi.data hd hc hin hrefs).imp_left fun ⟨y, hy, hstill⟩ => ⟨y, ⟨hy.mem, hy.sink, hy.own⟩, hstill⟩

/-- Every register and buffer that is taken over has a host. -/
theorem inherits_collapse {r : Bool × Network} (hg : g.Ready K) (hread : g.PinNodesRead)
    (hK : ∀ k, k.isSequential → K k)
    (hbuf : ∀ {n c}, g.kindOf? n = some .triState → c ∈ g.connsOf n → g.isSink c →
      g.isData c ∨ g.connNameOf? c = some bufferEnable)
    (hrun : g.collapse = .ok r) : r.2.Ready K ∧ ∃ host, Inherits host g r.2 := by
  rcases hosts_collapse (P := fun host h => Inherits host g h) hg.toPoised (.refl hg.toOwned hread)
    (fun hi => hi.toHouses) (fun hh hi ht hphase => hi.takeover hg.toTidy hh ht hK hbuf hphase)
    (fun l hi => hi.setTop l) hrun with ⟨-, hhost⟩
  rcases collapse_invariant hg trivial
    (fun _ _ _ _ => trivial) (fun _ => trivial) (fun _ _ _ _ => trivial) hrun with ⟨hready, -⟩
  exact ⟨hready, hhost⟩

/-! ## What is lost -/

/-- `host` leads from the merged cells to the pins and pin nodes that took them over: they are marked,
and have what there still is of the connections of the cell. -/
structure Hosts (host : NodeId → NodeId) (g g' : Network) : Prop where
  mem : ∀ {n}, Merged g g' n → host n ∈ g'.pins ++ g'.pinNodes
  register : ∀ {n}, Merged g g' n → g.hasKind NodeKind.isRegister n = true →
    (g'.absorbedOf (host n)).register = true
  buffer : ∀ {n}, Merged g g' n → g.kindOf? n = some .triState →
    (g'.absorbedOf (host n)).buffer = true
  placed : ∀ {n m c}, c ∈ g.connsOf n → c ∈ g'.connsOf m → m = host n

/-- No wire of a merged cell is lost. -/
structure KeepsWiring (host : NodeId → NodeId) (g g' : Network) : Prop where
  /-- Every wired input but the data of a buffer goes to the host under its name and reads the same
  signal. -/
  inputs : ∀ {n c d}, Merged g g' n → c ∈ g.connsOf n → g.isInput c = true → g.refsOf c = [d] →
    ¬ MergedData g g' n c → c ∈ g'.connsOf (host n) ∧ g'.connNameOf? c = g.connNameOf? c ∧
      ∃ d', g'.refsOf c = [d'] ∧ Carries host g g' d d'
  /-- What drove the data of a buffer drives the host, or it is a register that was merged into it. -/
  data : ∀ {n c d}, MergedData g g' n c → c ∈ g.connsOf n → g.isInput c = true → g.refsOf c = [d] →
    (∃ s, OwnSlot host g g' n s ∧ ∃ d', g'.refsOf s = [d'] ∧ Carries host g g' d d') ∨
      ∃ r, Merged g g' r ∧ g.hasKind NodeKind.isRegister r = true ∧ d ∈ g.connsOf r ∧ host r = host n
  /-- What read a merged cell reads its host, except on the host itself. -/
  consumers : ∀ {m n c d}, Merged g g' m → d ∈ g.connsOf m → c ∈ g.connsOf n → g.isSink c = true →
    g.refsOf c = [d] → n ≠ host m → ¬ MergedData g g' n c →
      c ∈ g'.connsOf (host n) ∧ ∃ d' ∈ g'.connsOf (host m), g'.isOutput d' = true ∧ g'.refsOf c = [d']

/-- The node drives one of its own inputs. -/
def ReadsItself (g : Network) (n : NodeId) : Prop :=
  ∃ c ∈ g.connsOf n, g.isInput c = true ∧ ∃ d ∈ g.connsOf n, g.refsOf c = [d]

instance (g : Network) (n : NodeId) : Decidable (g.ReadsItself n) :=
  inferInstanceAs (Decidable (∃ c ∈ g.connsOf n, g.isInput c = true ∧ ∃ d ∈ g.connsOf n, g.refsOf c = [d]))

namespace Inherits

variable {host : NodeId → NodeId} (hi : Inherits host g g')
include hi

theorem hosts : Hosts host g g' where
  mem := hi.hosted
  register := hi.register
  buffer := hi.buffer
  placed hc hc' := (hi.placed hc hc').1

variable (hg : g.Fresh K) (hg' : g'.Owned)
include hg

/-- A pin has one slot of its own, the one that it had before. -/
theorem slot_unique {y y' : ConnId} (hpin : host n ∈ g.pins) (hy : OwnSlot host g g' n y)
    (hy' : OwnSlot host g g' n y') : y = y' := by
  have hold : ∀ {y}, OwnSlot host g g' n y → y ∈ g.connsOf (host n) ∧ g.isSink y := by
    intro y hy
    have hs := hi.old (isSome_of_kindOf? (hg.pin_kind hpin)) hy.mem hy.sink
    refine ⟨?_, by rw [← hi.evolves.isSink hs]; exact hy.sink⟩
    obtain ⟨m, hm⟩ := hi.evolves.attached hs hy.mem
    have hm' := (hi.placed hm hy.mem).1
    rwa [hm', hi.fixed fun hmerged => hy.own m hmerged hm]
  have hk : g.hasKind NodeKind.isNamed (host n) := hasKind_of (hg.pin_kind hpin) rfl
  exact hg.single hk (hold hy).1 (hold hy').1 (hold hy).2 (hold hy').2

include hg'

omit hg in
/-- A cell is nobody's host. -/
theorem ne_host (hn : Merged g g' n) (hm : Merged g g' m) : n ≠ host m := by
  refine ne_of_isCell (isCell_of_isSequential ?_) (hg'.isNamed_of_mem (hi.hosted hm))
  rw [hi.evolves.hasKind (isSome_of_hasKind hn.1)]
  exact hn.1

omit hg in
/-- Where an input of a merged cell is now. -/
theorem kept_of_merged (hn : Merged g g' n) (hc : c ∈ g.connsOf n) (hs : g.isSink c)
    (hd : g.refsOf c = [d]) (hdata : ¬ MergedData g g' n c) :
    c ∈ g'.connsOf (host n) ∧ Still host g g' n d (g'.refsOf c) := by
  rcases hi.kept hc hs hd with hdata' | ⟨m, hm, -, heq⟩ | hkept
  · exact absurd hdata' hdata
  · exact absurd heq (hi.ne_host hg' hn hm)
  · exact hkept

/-- A cell that reads itself loses that wire on a pin. -/
theorem not_keepsWiring (hn : Merged g g' n) (hpin : host n ∈ g.pins) (hloop : g.ReadsItself n) :
    ¬ KeepsWiring host g g' := by
  intro hkeeps
  rcases hloop with ⟨c, hc, hin, d, hdn, hd⟩
  have hs := isSink_of_isInput hin
  -- what is read there now is nothing
  have hnil : ∀ {l}, Still host g g' n d l → l = [] := fun hstill =>
    (hstill.resolve_right fun h => h.1 ⟨hn, hdn, hpin⟩).2
  by_cases hdata : MergedData g g' n c
  · -- a buffer is no register, so its slot would have to read the lost signal
    have hreg : ∀ {r}, g.hasKind NodeKind.isRegister r → d ∉ g.connsOf r := by
      intro r hr hdr
      rw [hg.eq_of_mem hdr hdn, hasKind, hdata.2.1] at hr
      cases hr
    rcases hi.data hdata hc hin hd with ⟨y, hy, hstill⟩ | ⟨r, -, hr, hdr, -⟩
    · rcases hkeeps.data hdata hc hin hd with ⟨y', hy', d', hd', -⟩ | ⟨r, -, hr, hdr, -⟩
      · rw [hi.slot_unique hg hpin hy' hy, hnil hstill] at hd'
        cases hd'
      · exact hreg hr hdr
    · exact hreg hr hdr
  · have hstill := (hi.kept_of_merged hg' hn hc hs hd hdata).2
    obtain ⟨-, -, d', hd', -⟩ := hkeeps.inputs hn hc hin hd hdata
    rw [hnil hstill] at hd'
    cases hd'

/-- The wires are kept exactly if no merged cell on a pin reads itself. -/
theorem keepsWiring_iff_no_loop (hK : ∀ k, k.isSequential → K k) : KeepsWiring host g g' ↔
    ∀ n, Merged g g' n → host n ∈ g.pins → ¬ g.ReadsItself n := by
  refine ⟨fun hkeeps n hn hpin hloop => hi.not_keepsWiring hg hg' hn hpin hloop hkeeps, fun hnone => ?_⟩
  -- without a loop, whatever is still there reads what carries its signal
  have hread : ∀ {n c d l}, c ∈ g.connsOf n → g.isSink c → g.refsOf c = [d] →
      Still host g g' n d l → ∃ d', l = [d'] ∧ Carries host g g' d d' := by
    intro n c d l hc hs hd hstill
    rcases hstill with ⟨⟨hn, hdn, hpin⟩, -⟩ | ⟨-, hcar⟩
    · have hin := hg.oneWay hK hn.1 hc hs
      exact absurd ⟨c, hc, hin, d, hdn, hd⟩ (hnone n hn hpin)
    · exact hcar
  constructor
  · intro n c d hn hc hin hd hdata
    have hs := isSink_of_isInput hin
    obtain ⟨hmem, hstill⟩ := hi.kept_of_merged hg' hn hc hs hd hdata
    exact ⟨hmem, hi.names (hg.conn_isSome hc), hread hc hs hd hstill⟩
  · intro n c d hdata hc hin hd
    rcases hi.data hdata hc hin hd with ⟨y, hy, hstill⟩ | hreg
    · exact .inl ⟨y, hy, hread hc (isSink_of_isInput hin) hd hstill⟩
    · exact .inr hreg
  · intro m n c d hm hdm hc hs hd hne hdata
    rcases hi.kept hc hs hd with hdata' | ⟨m', hm', hdm', heq⟩ | ⟨hmem, hstill⟩
    · exact absurd hdata' hdata
    · exact absurd (hg.eq_of_mem hdm' hdm ▸ heq) hne
    · refine ⟨hmem, ?_⟩
      rcases hread hc hs hd hstill with ⟨d', hd', ⟨m', -, hdm', hd'm, hout⟩ | ⟨-, hnot⟩⟩
      · rw [hg.eq_of_mem hdm' hdm] at hd'm
        exact ⟨d', hd'm, hout, hd'⟩
      · exact absurd hm (hnot m hdm)

end Inherits

end PldSynth.Network
