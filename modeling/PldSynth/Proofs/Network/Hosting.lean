import PldSynth.Proofs.Network.Redirection

/-!
# The nodes that take over

A run of takeovers leads every cell that it merges to a pin or pin node, its host. `Houses` says which
connections a host has and how it is marked, and every takeover extends it. A host has one register at
most and one buffer at most, and it has all inputs of its register and the enable of its buffer
(`Allots`).
-/

namespace PldSynth.Network

open PldSynth.NodeKind (isRegister isSequential)

variable {K : NodeKind → Bool} {g g' g1 g2 h : Network} {n m : NodeId} {c d x e : ConnId} {s : Takeover}
  {p : Absorbed → Bool} {host : NodeId → NodeId} {r : Bool × Network} {q : NodeId → Prop}

/-! ## What a host has -/

/-- The cell of `g` was taken over on the way to `g'`. -/
def Merged (g g' : Network) (n : NodeId) : Prop :=
  g.hasKind isSequential n = true ∧ n ∈ g.cells ∧ n ∉ g'.cells

/-- The connection is the data input of a buffer that was merged. -/
def MergedData (g g' : Network) (n : NodeId) (c : ConnId) : Prop :=
  Merged g g' n ∧ g.kindOf? n = some .triState ∧ g.isData c = true

/-- `g'` is `g` after some cells were merged into other nodes; `host` leads from a node of `g` to the
node of `g'` that has its connections. -/
structure Houses (host : NodeId → NodeId) (g g' : Network) : Prop where
  evolves : Evolves g g'
  read : g'.PinNodesRead
  pins : g'.pins = g.pins
  cells : ∀ n ∈ g'.cells, n ∈ g.cells
  names : ∀ {c}, (g.conn? c).isSome → g'.connNameOf? c = g.connNameOf? c
  fixed : ∀ {n}, ¬ Merged g g' n → host n = n
  hosted : ∀ {n}, Merged g g' n → host n ∈ g'.pins ++ g'.pinNodes
  register : ∀ {n}, Merged g g' n → g.hasKind isRegister n = true →
    (g'.absorbedOf (host n)).register = true
  buffer : ∀ {n}, Merged g g' n → g.kindOf? n = some .triState →
    (g'.absorbedOf (host n)).buffer = true
  /-- A cell that was not merged yet is as it was. -/
  waiting : ∀ {n}, g.hasKind isSequential n = true → n ∈ g'.cells → g'.connsOf n = g.connsOf n
  /-- A connection that is still there stands on the host of its node. -/
  placed : ∀ {n m c}, c ∈ g.connsOf n → c ∈ g'.connsOf m → m = host n ∧ ¬ MergedData g g' n c
  /-- A node of `g` gets no new connection that can be driven. -/
  old : ∀ {n c}, (g.node? n).isSome → c ∈ g'.connsOf n → g'.isSink c = true → (g.conn? c).isSome

/-- At the start nothing is merged. -/
theorem not_merged_self : ¬ Merged g g n :=
  fun hn => hn.2.2 hn.2.1

theorem Houses.refl (hg : g.Owned) (hread : g.PinNodesRead) : Houses id g g where
  evolves := .refl g
  read := hread
  pins := rfl
  cells _ hn := hn
  names _ := rfl
  fixed _ := rfl
  hosted hn := absurd hn not_merged_self
  register hn := absurd hn not_merged_self
  buffer hn := absurd hn not_merged_self
  waiting _ _ := rfl
  placed hc hc' := ⟨hg.eq_of_mem hc' hc, fun hd => not_merged_self hd.1⟩
  old _ hc _ := hg.conn_isSome hc

namespace Houses

variable {host : NodeId → NodeId} (hi : Houses host g h) (hg : g.Tidy K) (hh : h.Poised K)
  (ht : TakesOver s h g1 g2 g')
include hi hg hh ht

omit hg ht in
theorem named_host (hn : Merged g h n) : h.hasKind NodeKind.isNamed (host n) :=
  hh.isNamed_of_mem (hi.hosted hn)

theorem cell_spec : g.hasKind isSequential s.cell ∧ s.cell ∈ g.cells ∧
    s.cell ∈ h.cells ∧ h.connsOf s.cell = g.connsOf s.cell ∧ host s.cell = s.cell := by
  have hcell := ht.mem_cells hh.toOwned
  have hcell0 := hi.cells _ hcell
  have hk : g.hasKind isSequential s.cell := by
    rw [← hi.evolves.hasKind (hg.cell_isSome hcell0)]
    exact ht.hasKind_cell
  exact ⟨hk, hcell0, hcell, hi.waiting hk hcell, hi.fixed fun hm => hm.2.2 hcell⟩

omit hg in
theorem host_ne_cell (hn : n ≠ s.cell) : host n ≠ s.cell := by
  by_cases hm : Merged g h n
  · exact ht.ne_cell_of_named (hi.named_host hh hm)
  · rwa [hi.fixed hm]

/-- One more cell is merged. -/
theorem merged_iff : Merged g g2 n ↔ Merged g h n ∨ n = s.cell := by
  obtain ⟨hk, hcell0, hcell, -⟩ := hi.cell_spec hg hh ht
  have hcells : n ∈ g2.cells ↔ n ∈ h.cells ∧ n ≠ s.cell := by
    rw [ht.applies.cells, ht.seats.cells, List.mem_filter, decide_eq_true_eq]
  rw [Merged, hcells]
  constructor
  · rintro ⟨hseq, hn, hnot⟩
    by_cases hnc : n = s.cell
    · exact .inr hnc
    · exact .inl ⟨hseq, hn, fun hnh => hnot ⟨hnh, hnc⟩⟩
  · rintro (⟨hseq, hn, hnot⟩ | rfl)
    · exact ⟨hseq, hn, fun hnh => hnot hnh.1⟩
    · exact ⟨hk, hcell0, fun hnh => hnh.2 rfl⟩

theorem merged_of_ne (hn : n ≠ s.cell) : Merged g g2 n ↔ Merged g h n := by
  rw [hi.merged_iff hg hh ht]
  exact or_iff_left hn

theorem loneAt_cell (hK : ∀ k, k.isSequential → K k) : g.LoneAt s.cell := by
  obtain ⟨k, hk, hseq⟩ := hasKind_iff.mp (hi.cell_spec hg hh ht).1
  exact (hg.regular (hasKind_of hk (by simp [hK k hseq]))).lone

/-- Where a connection stands after the takeover. -/
theorem placed_step (hc : c ∈ g.connsOf n) (hm : c ∈ g2.connsOf m) :
    m = Function.update host s.cell s.target n ∧ ¬ MergedData g g2 n c := by
  obtain ⟨hseq, -, -, hconns, hhost⟩ := hi.cell_spec hg hh ht
  have hcs := hi.evolves.conn_isSome (hg.conn_isSome hc)
  have hcs1 := ht.seats.evolves.conn_isSome hcs
  -- what stood on another node than the cell is where it was
  have hother : ∀ {e}, e ≠ s.cell → c ∈ h.connsOf e →
      e = Function.update host s.cell s.target n ∧ ¬ MergedData g g2 n c := by
    intro e hec he
    obtain ⟨heq, hnot⟩ := hi.placed hc he
    have hnc : n ≠ s.cell := by
      rintro rfl
      exact hec (heq.trans hhost)
    rw [Function.update_of_ne hnc]
    refine ⟨heq, fun hd => hnot ⟨(hi.merged_of_ne hg hh ht hnc).mp hd.1, hd.2⟩⟩
  have hmc : m ≠ s.cell := by
    rintro rfl
    rw [ht.applies.connsOf_cell] at hm
    cases hm
  by_cases hmt : m = s.target
  · subst hmt
    rcases ht.applies.mem_target hm with hk | hmv | ⟨hnone, -⟩
    · exact hother hmc (ht.seats.mem_before hcs (ht.applies.kept_sub hk))
    · -- it came with the cell, and the data of a buffer does not come along
      have hcell := ht.seats.mem_before hcs (ht.applies.isInput hmv).1
      obtain rfl : n = s.cell := hg.eq_of_mem hc (hconns ▸ hcell)
      rw [Function.update_self]
      refine ⟨rfl, fun ⟨_, hk, hd⟩ => ?_⟩
      have hk' : h.kindOf? s.cell = some .triState :=
        (hi.evolves.kind (isSome_of_mem_connsOf hc)).trans hk
      have hdata := ht.not_data_of_moved hmv hk'
      rw [isData, ht.seats.connNameOf? hcs, hi.names (hg.conn_isSome hc), ← isData, hd] at hdata
      cases hdata
    · simp [hnone] at hcs1
  · rw [ht.applies.connsOf_of_ne hmc hmt] at hm
    exact hother hmc (ht.seats.mem_before hcs hm)

/-- A takeover puts no new connection on an old node that can be driven. -/
theorem old_step (hn : (g.node? n).isSome) (hc : c ∈ g2.connsOf n) (hs : g2.isSink c) :
    (g.conn? c).isSome := by
  obtain ⟨-, -, -, hconns, -⟩ := hi.cell_spec hg hh ht
  have hold : ∀ {e}, (g.node? e).isSome → c ∈ g1.connsOf e → (g.conn? c).isSome := by
    intro e he hce
    have hcs : g1.isSink c := by
      rw [← ht.applies.evolves.isSink ((ht.poised1 hh).conn_isSome hce)]
      exact hs
    rw [ht.connsOf1 (hi.evolves.node_isSome he)] at hce
    refine hi.old he hce ?_
    rw [← ht.seats.evolves.isSink (hh.conn_isSome hce)]
    exact hcs
  have hnc : n ≠ s.cell := by
    rintro rfl
    rw [ht.applies.connsOf_cell] at hc
    cases hc
  by_cases hnt : n = s.target
  · -- what the target has now it kept, received from the cell, or got as its output
    subst hnt
    rcases ht.applies.mem_target hc with hk | hmv | ⟨-, hout, -⟩
    · exact hold hn (ht.applies.kept_sub hk)
    · have hcell := (ht.applies.isInput hmv).1
      rw [ht.connsOf1 (isSome_of_mem_connsOf ht.mem), hconns] at hcell
      exact hg.conn_isSome hcell
    · rw [not_isSink_of_isOutput hout] at hs
      cases hs
  · rw [ht.applies.connsOf_of_ne hnc hnt] at hc
    exact hold hn hc

omit hh in
/-- The slot does not belong to a merged cell: the enable of a buffer is never given up, and no node
takes over two registers or two buffers. -/
theorem slot_own (hbuf : ∀ {n c}, g.kindOf? n = some .triState → c ∈ g.connsOf n → g.isSink c →
      g.isData c ∨ g.connNameOf? c = some bufferEnable)
    (hphase : h.kindOf? s.cell = some .triState → ∀ n, Merged g h n → g.kindOf? n = some .triState)
    (hn : Merged g h n) : s.slot ∉ g.connsOf n := by
  intro hc
  have hcs := hg.conn_isSome hc
  have hseat := ht.seats.mem_slot (hi.evolves.conn_isSome hcs)
  obtain ⟨heq, hnot⟩ := hi.placed hc hseat.mem
  cases ht.role with
  | register _ hv _ =>
    rcases isRegister_or_triState hn.1 with hreg | hk
    · have := hi.register hn hreg
      rw [← heq, hv.register] at this
      cases this
    · -- a register only takes the place of what drives the data of a buffer
      have hb := hi.buffer hn hk
      rw [← heq] at hb
      have hs : g.isSink s.slot := by
        rw [← hi.evolves.isSink hcs]
        exact hseat.sink
      rcases hbuf hk hc hs with hd | hname
      · exact hnot ⟨hn, hk, hd⟩
      · exact (hv.buffer hb).2 ((hi.names hcs).trans hname)
  | buffer hk hfree _ =>
    have hb := hi.buffer hn (hphase hk n hn)
    rw [← heq, hfree] at hb
    cases hb

/-- What a host has taken over stays taken over, and the target of this takeover is marked too. -/
theorem marked_step (hp : ∀ a b : Absorbed, p (a.union b) = (p a || p b))
    (hold : Merged g h n → p (h.absorbedOf (host n))) (hnew : n = s.cell → p s.mark) (hn : Merged g g2 n) :
    p (g2.absorbedOf (Function.update host s.cell s.target n)) := by
  by_cases hnc : n = s.cell
  · rw [hnc, Function.update_self, ht.applies.absorbedOf, if_pos rfl, hp, hnew hnc, Bool.or_true]
  · have hmark := hold ((hi.merged_of_ne hg hh ht hnc).mp hn)
    rw [Function.update_of_ne hnc, ht.applies.absorbedOf, ht.seats.absorbedOf]
    split
    · rw [hp, hmark, Bool.true_or]
    · exact hmark

/-- One takeover: the new host leads the cell to the target. -/
theorem takeover (hK : ∀ k, k.isSequential → K k) :
    Houses (Function.update host s.cell s.target) g g2 where
  evolves := hi.evolves.trans (ht.seats.evolves.trans ht.applies.evolves)
  read := ht.pinNodesRead hh hK hi.read
  pins := by rw [ht.applies.pins, ht.seats.pins, hi.pins]
  cells n hn := by
    rw [ht.applies.cells, ht.seats.cells] at hn
    exact hi.cells n (List.mem_filter.mp hn).1
  names hc := by
    have hcs := hi.evolves.conn_isSome hc
    rw [ht.applies.connNameOf? (ht.seats.evolves.conn_isSome hcs), ht.seats.connNameOf? hcs, hi.names hc]
  fixed hn := by
    rw [hi.merged_iff hg hh ht, not_or] at hn
    rw [Function.update_of_ne hn.2]
    exact hi.fixed hn.1
  hosted {n} hn := by
    by_cases hnc : n = s.cell
    · rw [hnc, Function.update_self]
      exact ht.target_mem hh
    · rw [Function.update_of_ne hnc, ht.applies.pins, ht.applies.pinNodes, ht.seats.pins,
        List.mem_append]
      have hmem := hi.hosted ((hi.merged_of_ne hg hh ht hnc).mp hn)
      exact (List.mem_append.mp hmem).imp_right ht.seats.mem_pinNodes
  register {n} hn hreg := by
    refine hi.marked_step hg hh ht (fun _ _ => rfl) (fun hn => hi.register hn hreg) ?_ hn
    rintro rfl
    cases ht.role with
    | register _ _ hs => rw [hs]; rfl
    | buffer hk _ _ =>
      rw [hi.evolves.kind (isSome_of_hasKind hreg)] at hk
      rw [hasKind, hk] at hreg
      cases hreg
  buffer {n} hn hk := by
    refine hi.marked_step hg hh ht (fun _ _ => rfl) (fun hn => hi.buffer hn hk) ?_ hn
    rintro rfl
    cases ht.role with
    | register hreg _ _ =>
      rw [hi.evolves.hasKind (isSome_of_kindOf? hk), hasKind, hk] at hreg
      cases hreg
    | buffer _ _ hs => rw [hs]; rfl
  waiting {n} hk hn := by
    rw [ht.applies.cells, ht.seats.cells, List.mem_filter, decide_eq_true_eq] at hn
    have hs := hi.evolves.node_isSome (isSome_of_hasKind hk)
    have hnt : n ≠ s.target := by
      refine ne_of_isCell (isCell_of_isSequential ?_) ht.applies.seat.named
      rw [ht.seats.evolves.hasKind hs, hi.evolves.hasKind (isSome_of_hasKind hk)]
      exact hk
    rw [ht.applies.connsOf_of_ne hn.2 hnt, ht.connsOf1 hs, hi.waiting hk hn.1]
  placed := hi.placed_step hg hh ht
  old := hi.old_step hg hh ht

/-- An input of the cell moves, unless it is the data of a buffer. -/
theorem moved_or_data (hc : c ∈ g.connsOf s.cell) (hin : g.isInput c) :
    c ∈ s.moved ∨ g.kindOf? s.cell = some .triState ∧ g.isData c := by
  rcases hi.cell_spec hg hh ht with ⟨-, -, -, hconns, -⟩
  have hcs := hi.evolves.conn_isSome (hg.conn_isSome hc)
  have hc1 : c ∈ g1.connsOf s.cell := by
    rwa [ht.connsOf1 (isSome_of_mem_connsOf ht.mem), hconns]
  have hin1 : g1.isInput c := by
    rw [isInput_congr (ht.seats.evolves.direction hcs),
      isInput_congr (hi.evolves.direction (hg.conn_isSome hc)), hin]
  refine (ht.moved_or_data hc1 hin1).imp_right fun ⟨hk, hd⟩ => ⟨?_, ?_⟩
  · rwa [← hi.evolves.kind (isSome_of_mem_connsOf hc)]
  · rwa [isData, ht.seats.connNameOf? hcs, hi.names (hg.conn_isSome hc)] at hd

end Houses

/-- The list of equations has no part in it. -/
theorem Houses.setTop (hi : Houses host g g') (l : List ConnId) : Houses host g { g' with top := l } where
  evolves := hi.evolves.trans ((alike_setTop l).evolves (fun _ => rfl) fun _ _ => rfl)
  read := hi.read
  pins := hi.pins
  cells := hi.cells
  names := hi.names
  fixed := hi.fixed
  hosted := hi.hosted
  register := hi.register
  buffer := hi.buffer
  waiting := hi.waiting
  placed := hi.placed
  old := hi.old

/-- What holds of the first host map, and is kept with every takeover and when the list of equations is
brought up to date, holds of the host map of the whole run. Buffers are taken over before registers. -/
theorem hosts_collapse {P : (NodeId → NodeId) → Network → Prop} (hg : g.Poised K)
    (hstart : P id g) (houses : ∀ {host h}, P host h → Houses host g h)
    (step : ∀ {host u h g1 g2 h'}, h.Poised K → P host h → TakesOver u h g1 g2 h' →
      (h.kindOf? u.cell = some .triState → ∀ n, Merged g h n → g.kindOf? n = some .triState) →
      P (Function.update host u.cell u.target) g2)
    (setTop : ∀ {host h} l, P host h → P host { h with top := l })
    (hrun : g.collapse = .ok r) : r.2.Poised K ∧ ∃ host, P host r.2 := by
  have hstep : ∀ {host u h g1 g2 h'}, h.Poised K → P host h → TakesOver u h g1 g2 h' →
      (h.kindOf? u.cell = some .triState → ∀ n, Merged g h n → g.kindOf? n = some .triState) →
      P (Function.update host u.cell u.target) h' ∧ ∀ n, Merged g h' n → Merged g h n ∨ n = u.cell := by
    intro host u h g1 g2 h' hh hP ht hphase
    have hP' := step hh hP ht hphase
    have hr := ht.rebuilt
    rw [(houses hP').read.rebuildTop (ht.poised2 hh).toTidy] at hr
    cases hr
    exact ⟨setTop _ hP', fun n hn => ((houses hP).merged_iff hg.toTidy hh ht).mp hn⟩
  -- until the registers' turn only buffers are merged
  have hall := collapse_keeps
    (P := fun h => ∃ host, P host h ∧ ∀ n, Merged g h n → g.kindOf? n = some .triState)
    (Q := fun h => ∃ host, P host h) hg ⟨id, hstart, fun n hn => absurd hn not_merged_self⟩ ?_
    (fun ⟨host, hP, _⟩ => ⟨host, hP⟩) ?_ hrun
  · exact ⟨hall.1, hall.2.2⟩
  · rintro u h g1 g2 h' hh ⟨host, hP, hphase⟩ hk ht
    rcases hstep hh hP ht fun _ => hphase with ⟨hP', hmerged⟩
    refine ⟨_, hP', fun n hn => ?_⟩
    rcases hmerged n hn with hn | rfl
    · exact hphase n hn
    · have hi := houses hP
      rw [← hi.evolves.kind (hg.cell_isSome (hi.cells _ (ht.mem_cells hh.toOwned)))]
      exact kindOf?_of_hasKind hk
  · rintro u h g1 g2 h' hh ⟨host, hP⟩ hk ht
    refine ⟨_, (hstep hh hP ht fun hbuf => ?_).1⟩
    rw [hasKind, hbuf] at hk
    cases hk

/-! ## One register and one buffer -/

theorem TakesOver.target_of_slot (ht : TakesOver s h g1 g2 g') (hh : h.Owned)
    (hc : s.slot ∈ h.connsOf m) : s.target = m :=
  hh.eq_of_mem (ht.seats.mem_slot (hh.conn_isSome hc)).mem hc

/-- A host is marked for the cells that it took over and for no other, it took over one register and one
buffer at most, and it has the inputs of its register and the enable of its buffer. -/
structure Allots (host : NodeId → NodeId) (g g' : Network) : Prop extends Houses host g g' where
  register_iff : ∀ {t}, (g'.absorbedOf t).register = true ↔
    ∃ n, Merged g g' n ∧ g.hasKind isRegister n = true ∧ host n = t
  buffer_iff : ∀ {t}, (g'.absorbedOf t).buffer = true ↔
    ∃ n, Merged g g' n ∧ g.kindOf? n = some .triState ∧ host n = t
  sole_register : ∀ {n m}, Merged g g' n → Merged g g' m → g.hasKind isRegister n = true →
    g.hasKind isRegister m = true → host n = host m → n = m
  sole_buffer : ∀ {n m}, Merged g g' n → Merged g g' m → g.kindOf? n = some .triState →
    g.kindOf? m = some .triState → host n = host m → n = m
  inputs : ∀ {n c}, Merged g g' n → g.hasKind isRegister n = true → c ∈ g.connsOf n →
    g.isInput c = true → c ∈ g'.connsOf (host n)
  enable : ∀ {n c}, Merged g g' n → g.kindOf? n = some .triState → c ∈ g.connsOf n →
    g.isInput c = true → g.connNameOf? c = some bufferEnable → c ∈ g'.connsOf (host n)

/-- Before any takeover every node is its own host. -/
theorem Allots.refl (hg : g.Owned) (hread : g.PinNodesRead) (hnone : ∀ n, g.absorbedOf n = .nothing) :
    Allots id g g where
  toHouses := .refl hg hread
  register_iff {t} := by
    rw [hnone]
    constructor
    · nofun
    · rintro ⟨n, hn, -⟩
      exact absurd hn not_merged_self
  buffer_iff {t} := by
    rw [hnone]
    constructor
    · nofun
    · rintro ⟨n, hn, -⟩
      exact absurd hn not_merged_self
  sole_register hn := absurd hn not_merged_self
  sole_buffer hn := absurd hn not_merged_self
  inputs hn := absurd hn not_merged_self
  enable hn := absurd hn not_merged_self

namespace Allots

variable {host : NodeId → NodeId} (hi : Allots host g h) (hg : g.Tidy K) (hh : h.Poised K)
  (ht : TakesOver s h g1 g2 g')
include hi hg hh ht

/-- The role of the cell, said of the network that the run began with. -/
theorem role : (g.hasKind isRegister s.cell ∧ s.mark = .oneRegister ∧
      Vacant h s.output s.target s.slot) ∨ (g.kindOf? s.cell = some .triState ∧ s.mark = .oneBuffer ∧
      (h.absorbedOf s.target).buffer = false) := by
  have hcell : (g.node? s.cell).isSome := hg.cell_isSome (hi.cell_spec hg hh ht).2.1
  cases ht.role with
  | register hk hv hs =>
    left
    rw [hi.evolves.hasKind hcell] at hk
    exact ⟨hk, by rw [hs]; rfl, hv⟩
  | buffer hk hfree hs =>
    right
    rw [hi.evolves.kind hcell] at hk
    exact ⟨hk, by rw [hs]; rfl, hfree⟩

theorem ne_cell_of_merged (hn : Merged g h n) : n ≠ s.cell :=
  fun heq => hn.2.2 (heq ▸ (hi.cell_spec hg hh ht).2.2.1)

/-- A host stays marked for its own cells only; `p` is one of the marks, `q` the cells that it is for. -/
theorem marked_iff {t : NodeId}
    (hp : ∀ a b : Absorbed, p (a.union b) = (p a || p b)) (hmark : p s.mark ↔ q s.cell)
    (hold : ∀ {t}, p (h.absorbedOf t) ↔ ∃ n, Merged g h n ∧ q n ∧ host n = t) : p (g2.absorbedOf t) ↔
      ∃ n, Merged g g2 n ∧ q n ∧ Function.update host s.cell s.target n = t := by
  rw [ht.applies.absorbedOf, ht.seats.absorbedOf]
  constructor
  · intro hpt
    have hcase : p (h.absorbedOf t) ∨ t = s.target ∧ p s.mark := by
      split at hpt
      · rename_i htt
        rw [hp, Bool.or_eq_true] at hpt
        exact hpt.imp_right fun hpm => ⟨htt, hpm⟩
      · exact .inl hpt
    rcases hcase with hpt | ⟨rfl, hpm⟩
    · rcases hold.mp hpt with ⟨n, hn, hq, heq⟩
      refine ⟨n, (hi.merged_iff hg hh ht).mpr (.inl hn), hq, ?_⟩
      rwa [Function.update_of_ne (hi.ne_cell_of_merged hg hh ht hn)]
    · exact ⟨s.cell, (hi.merged_iff hg hh ht).mpr (.inr rfl), hmark.mp hpm, Function.update_self ..⟩
  · rintro ⟨n, hn, hq, heq⟩
    rcases (hi.merged_iff hg hh ht).mp hn with hn | rfl
    · rw [Function.update_of_ne (hi.ne_cell_of_merged hg hh ht hn)] at heq
      have hpt := hold.mpr ⟨n, hn, hq, heq⟩
      split
      · rw [hp, hpt, Bool.true_or]
      · exact hpt
    · rw [Function.update_self] at heq
      rw [if_pos heq.symm, hp, hmark.mpr hq, Bool.or_true]

/-- A cell of the sort `q` goes to a node that has none of that sort. -/
theorem sole_step (hfree : q s.cell → ∀ {n}, Merged g h n → q n → host n ≠ s.target)
    (hold : ∀ {n m}, Merged g h n → Merged g h m → q n → q m → host n = host m → n = m)
    (hn : Merged g g2 n) (hm : Merged g g2 m) (hqn : q n) (hqm : q m)
    (heq : Function.update host s.cell s.target n = Function.update host s.cell s.target m) : n = m := by
  have hne : ∀ {k}, Merged g h k → Function.update host s.cell s.target k = host k := fun hk =>
    Function.update_of_ne (hi.ne_cell_of_merged hg hh ht hk) ..
  rcases (hi.merged_iff hg hh ht).mp hn with hn | rfl
  · rcases (hi.merged_iff hg hh ht).mp hm with hm | rfl
    · rw [hne hn, hne hm] at heq
      exact hold hn hm hqn hqm heq
    · rw [hne hn, Function.update_self] at heq
      exact absurd heq (hfree hqm hn hqn)
  · rcases (hi.merged_iff hg hh ht).mp hm with hm | rfl
    · rw [hne hm, Function.update_self] at heq
      exact absurd heq.symm (hfree hqn hm hqm)
    · rfl

/-- What a host has received it keeps, unless that is the slot of the next takeover. -/
theorem mem_host (hn : Merged g h n) (hc : c ∈ h.connsOf (host n)) (hslot : c ≠ s.slot) :
    c ∈ g2.connsOf (Function.update host s.cell s.target n) := by
  have hnc := hi.ne_cell_of_merged hg hh ht hn
  rw [Function.update_of_ne hnc]
  refine ht.applies.mem_of_ne ?_ (hi.host_ne_cell hh ht hnc) hslot
  rwa [ht.connsOf1 (isSome_of_mem_connsOf hc)]

/-- An input of the cell stands on the target, except for the data of a buffer. -/
theorem mem_target (hc : c ∈ g.connsOf s.cell) (hin : g.isInput c)
    (hdata : g.kindOf? s.cell = some .triState → g.isData c = false) :
    c ∈ g2.connsOf (Function.update host s.cell s.target s.cell) := by
  rw [Function.update_self]
  rcases hi.moved_or_data hg hh ht hc hin with hmv | ⟨hk, hd⟩
  · exact ht.applies.mem_of_moved hmv
  · cases (hdata hk).symm.trans hd

section

variable (hphase : h.kindOf? s.cell = some .triState → ∀ n, Merged g h n → g.kindOf? n = some .triState)
include hphase

/-- A node that has a register takes over no other cell. -/
theorem slot_register (hn : Merged g h n) (hreg : g.hasKind isRegister n) :
    s.slot ∉ h.connsOf (host n) := by
  intro hc
  have hmark := hi.register hn hreg
  rw [← ht.target_of_slot hh.toOwned hc] at hmark
  rcases hi.role hg hh ht with ⟨-, -, hv⟩ | ⟨hk, -, -⟩
  · rw [hv.register] at hmark
    cases hmark
  · -- buffers come first
    have hk' : h.kindOf? s.cell = some .triState :=
      (hi.evolves.kind (isSome_of_kindOf? hk)).trans hk
    rw [hasKind, hphase hk' n hn] at hreg
    cases hreg

omit hphase in
/-- The enable of a buffer never gives way. -/
theorem slot_enable (hn : Merged g h n) (hk : g.kindOf? n = some .triState)
    (hname : h.connNameOf? s.slot = some bufferEnable) : s.slot ∉ h.connsOf (host n) := by
  intro hc
  have hmark := hi.buffer hn hk
  rw [← ht.target_of_slot hh.toOwned hc] at hmark
  rcases hi.role hg hh ht with ⟨-, -, hv⟩ | ⟨-, -, hfree⟩
  · exact (hv.buffer hmark).2 hname
  · rw [hfree] at hmark
    cases hmark

/-- One takeover: the new host leads the cell to the target. -/
theorem takeover (hK : ∀ k, k.isSequential → K k) :
    Allots (Function.update host s.cell s.target) g g2 where
  toHouses := hi.toHouses.takeover hg hh ht hK
  register_iff {t} := by
    refine hi.marked_iff hg hh ht (fun _ _ => rfl) ?_ hi.register_iff
    rcases hi.role hg hh ht with ⟨hreg, hmark, -⟩ | ⟨hk, hmark, -⟩
    · simp [hmark, hreg, Absorbed.oneRegister]
    · simp [hmark, hasKind, hk, isRegister, Absorbed.oneBuffer]
  buffer_iff {t} := by
    refine hi.marked_iff hg hh ht (fun _ _ => rfl) ?_ hi.buffer_iff
    rcases hi.role hg hh ht with ⟨hreg, hmark, -⟩ | ⟨hk, hmark, -⟩
    · have hk : g.kindOf? s.cell ≠ some .triState := by
        intro hk
        rw [hasKind, hk] at hreg
        cases hreg
      simp [hmark, hk, Absorbed.oneRegister]
    · simp [hmark, hk, Absorbed.oneBuffer]
  sole_register := by
    -- the target of a register has none yet
    refine hi.sole_step hg hh ht (fun hq n hn hreg heq => ?_) hi.sole_register
    have hmark := hi.register hn hreg
    rw [heq] at hmark
    rcases hi.role hg hh ht with ⟨-, -, hv⟩ | ⟨hk, -⟩
    · rw [hv.register] at hmark
      cases hmark
    · rw [hasKind, hk] at hq
      cases hq
  sole_buffer := by
    refine hi.sole_step hg hh ht (fun hq n hn hk heq => ?_) hi.sole_buffer
    have hmark := hi.buffer hn hk
    rw [heq] at hmark
    rcases hi.role hg hh ht with ⟨hreg, -⟩ | ⟨-, -, hfree⟩
    · rw [hasKind, hq] at hreg
      cases hreg
    · rw [hfree] at hmark
      cases hmark
  inputs {n c} hn hreg hc hin := by
    rcases (hi.merged_iff hg hh ht).mp hn with hn | rfl
    · -- the slot of the next takeover is no input of a register
      have hmem := hi.inputs hn hreg hc hin
      refine hi.mem_host hg hh ht hn hmem ?_
      rintro rfl
      exact hi.slot_register hg hh ht hphase hn hreg hmem
    · refine hi.mem_target hg hh ht hc hin fun hk => ?_
      rw [hasKind, hk] at hreg
      cases hreg
  enable {n c} hn hk hc hin hname := by
    rcases (hi.merged_iff hg hh ht).mp hn with hn | rfl
    · have hmem := hi.enable hn hk hc hin hname
      refine hi.mem_host hg hh ht hn hmem ?_
      rintro rfl
      exact hi.slot_enable hg hh ht hn hk ((hi.names (hg.conn_isSome hc)).trans hname) hmem
    · refine hi.mem_target hg hh ht hc hin fun _ => ?_
      rw [isData, hname]
      rfl

end

end Allots

theorem Allots.setTop (hi : Allots host g g') (l : List ConnId) : Allots host g { g' with top := l } where
  toHouses := hi.toHouses.setTop l
  register_iff := hi.register_iff
  buffer_iff := hi.buffer_iff
  sole_register := hi.sole_register
  sole_buffer := hi.sole_buffer
  inputs := hi.inputs
  enable := hi.enable

/-- Every register and buffer that is taken over has a host of its own. -/
theorem allots_collapse (hg : g.Poised K) (hread : g.PinNodesRead)
    (hnone : ∀ n, g.absorbedOf n = .nothing) (hK : ∀ k, k.isSequential → K k) (hrun : g.collapse = .ok r) :
    r.2.Poised K ∧ ∃ host, Allots host g r.2 :=
  hosts_collapse hg (.refl hg.toOwned hread hnone)
    (fun hi => hi.toHouses) (fun hh hi ht hphase => hi.takeover hg.toTidy hh ht hphase hK)
    (fun l hi => hi.setTop l) hrun

end PldSynth.Network
