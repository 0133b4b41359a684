import PldSynth.Proofs.Network.Jams
import PldSynth.Proofs.Network.Success

/-!
# Registers, buffers and their readers before the takeovers

The first two passes put names between gates and what reads them, but they leave the wires of registers
and buffers to ports and to each other alone (`KeepsTaps`). So whether a register jams can be seen in the
network that the passes start from, and so can whether the controls of the latches are idle.
-/

namespace PldSynth.Network

variable {K : NodeKind → Bool} {g g' g'' h : Network} {n m r : NodeId} {c d o p x : ConnId} {source : Node}

/-! ## What stays -/

/-- The registers and buffers of `g` are those of `g'`, and the same ports, registers and buffers read
them. -/
structure KeepsTaps (g g' : Network) : Prop where
  evolves : Evolves g g'
  only : ∀ {n c}, g'.hasKind NodeKind.isSequential n = true → c ∈ g'.connsOf n → (g.node? n).isSome
  outputs : ∀ {n o}, g.hasKind NodeKind.isSequential n = true → g.isOutput o = true →
    o ∈ g.connsOf n → o ∈ g'.connsOf n
  ports : ∀ {n o c}, g.hasKind NodeKind.isSequential n = true → o ∈ g.connsOf n →
    g.isOutput o = true → (g'.PortReads o c ↔ g.PortReads o c)
  cells : ∀ {n m o c}, g.hasKind NodeKind.isSequential n = true → o ∈ g.connsOf n →
    g.isOutput o = true → g.hasKind NodeKind.isSequential m = true → (g'.ReadAt o c m ↔ g.ReadAt o c m)

namespace KeepsTaps

/-- An edit after which the same nodes read the registers and buffers. -/
theorem of_readers (he : Evolves g g')
    (only : ∀ {n c}, g'.hasKind NodeKind.isSequential n → c ∈ g'.connsOf n → (g.node? n).isSome)
    (outputs : ∀ {n o}, g.hasKind NodeKind.isSequential n → g.isOutput o →
      o ∈ g.connsOf n → o ∈ g'.connsOf n)
    (readers : ∀ {n o c m}, g.hasKind NodeKind.isSequential n → o ∈ g.connsOf n →
      g.isOutput o → (g'.ReadAt o c m ↔ g.ReadAt o c m)) : KeepsTaps g g' where
  evolves := he
  only := only
  outputs := outputs
  ports {n o c} hn ho hout := by
    constructor
    · rintro ⟨m, hm, hr⟩
      rw [readers hn ho hout] at hr
      rw [he.hasKind (isSome_of_mem_connsOf hr.mem)] at hm
      exact ⟨m, hm, hr⟩
    · rintro ⟨m, hm, hr⟩
      exact ⟨m, (he.hasKind (isSome_of_mem_connsOf hr.mem) _).trans hm, (readers hn ho hout).mpr hr⟩
  cells hn ho hout _ := readers hn ho hout

theorem setTop (l : List ConnId) : KeepsTaps g { g with top := l } :=
  .of_readers ((alike_setTop l).evolves (fun _ => rfl) fun _ _ => rfl)
    (fun _ hc => isSome_of_mem_connsOf hc) (fun _ _ ho => ho)
    fun _ _ _ => ⟨fun hr => ⟨hr.mem, hr.sink, hr.refs⟩, fun hr => ⟨hr.mem, hr.sink, hr.refs⟩⟩

theorem refl : KeepsTaps g g :=
  setTop g.top

/-- What is a register or buffer afterwards was one before. -/
theorem isSequential (h : KeepsTaps g g') {P : NodeKind → Bool} (hP : ∀ k, P k → k.isSequential)
    (hn : g'.hasKind P n) (hc : c ∈ g'.connsOf n) : g.hasKind P n := by
  have hseq : g'.hasKind NodeKind.isSequential n := by
    rcases hasKind_iff.mp hn with ⟨k, hk, hp⟩
    exact hasKind_of hk (hP k hp)
  rwa [← h.evolves.hasKind (h.only hseq hc)]

theorem trans (h : KeepsTaps g g') (h' : KeepsTaps g' g'') : KeepsTaps g g'' where
  evolves := h.evolves.trans h'.evolves
  only {n c} hn hc := by
    have hn' := h'.isSequential (fun _ hk => hk) hn hc
    have hsome := h'.only hn hc
    exact h.only hn' (h'.evolves.shrinks hsome (not_isNamed_of_isSequential hn') hc)
  outputs {n o} hn hout ho := by
    have hn' := h.evolves.keeps_kind hn
    have hout' := h.evolves.keeps_output hout
    exact h'.outputs hn' hout' (h.outputs hn hout ho)
  ports {n o c} hn ho hout := by
    have hn' := h.evolves.keeps_kind hn
    have hout' := h.evolves.keeps_output hout
    rw [h'.ports hn' (h.outputs hn hout ho) hout', h.ports hn ho hout]
  cells {n m o c} hn ho hout hm := by
    have hn' := h.evolves.keeps_kind hn
    have hm' := h.evolves.keeps_kind hm
    have hout' := h.evolves.keeps_output hout
    rw [h'.cells hn' (h.outputs hn hout ho) hout' hm', h.cells hn ho hout hm]

end KeepsTaps

/-- A port is read on its pin once it is exposed. -/
theorem Exposes.keepsTaps (hx : Exposes p g g') (hg : g.Owned) (hp : p ∈ g.connsOf designId) :
    KeepsTaps g g' := by
  have hdesign : ¬ g.hasKind NodeKind.isSequential designId := by
    simp [hasKind, hg.design_kind, NodeKind.isSequential]
  have hpin : g'.hasKind NodeKind.isOuter g.nextNode :=
    hasKind_of (by rw [hx.kindOf?, if_pos rfl]) rfl
  -- the port moves from the design to its pin; both are outside
  have hport : ∀ {n}, g.hasKind NodeKind.isSequential n → p ∉ g.connsOf n := by
    intro n hn hmem
    exact hdesign (hg.eq_of_mem hmem hp ▸ hn)
  refine ⟨hx.evolves, fun {n c} hn _ => ?_, fun {n o} hn _ ho => ?_, fun {n o c} _ _ _ => ?_,
    fun {n m o c} _ _ _ hm => ?_⟩
  · by_contra hnone
    rw [hasKind, hx.kindOf?] at hn
    split at hn
    · cases hn
    · exact hnone (isSome_of_hasKind hn)
  · rw [hx.connsOf, if_neg (ne_nextNode (isSome_of_hasKind hn)), List.mem_filter]
    refine ⟨ho, decide_eq_true ?_⟩
    rintro rfl
    exact hport hn ho
  · constructor
    · rintro ⟨m, hm, hr⟩
      have hr0 := hx.read_before hp hr
      refine ⟨_, ?_, hr0⟩
      split at hr0
      · rw [if_pos ‹_›]
        exact hasKind_of hg.design_kind rfl
      · rw [if_neg ‹_›]
        rwa [hx.evolves.hasKind (isSome_of_mem_connsOf hr0.mem)] at hm
    · rintro ⟨m, hm, hr⟩
      refine ⟨_, ?_, hx.read_after hr⟩
      split
      · exact hpin
      · exact (hx.evolves.hasKind (isSome_of_mem_connsOf hr.mem) _).trans hm
  · have hne : m ≠ g.nextNode := ne_nextNode (isSome_of_hasKind hm)
    constructor
    · intro hr
      simpa [hne] using hx.read_before hp hr
    · intro hr
      have hcp : c ≠ p := by
        rintro rfl
        exact hport hm hr.mem
      simpa [hcp] using hx.read_after hr

/-- A pin node comes only between gates or constants and what reads them. -/
theorem Shares.keepsTaps (hs : Shares d n source g g') (hg : g.Sound) : KeepsTaps g g' := by
  refine .of_readers hs.puts.evolves (fun {m c} hm _ => ?_) (fun {m o} hm _ ho => ?_)
    fun {m o c k} hm ho _ => hs.puts.readAt_iff hg hs.isOutput (hg.conn_isSome ho) ?_
  · by_contra hnone
    rw [hasKind, hs.puts.kindOf?] at hm
    split at hm
    · cases hm
    · exact hnone (isSome_of_hasKind hm)
  · rwa [hs.puts.connsOf_of_isSome (isSome_of_hasKind hm)]
  · rintro rfl
    rw [hg.eq_of_mem ho hs.mem, hasKind, hs.kind, Option.any_some, hs.given.1] at hm
    cases hm

/-- A pin node that goes reads no register and no buffer. -/
theorem Trims.keepsTaps (ht : Trims g g') (hg : g.Raw K) (ha : g.Anchored) (hread : g.PinNodesRead) :
    KeepsTaps g g' := by
  have hinner : ∀ {n}, g.hasKind NodeKind.isSequential n →
      g.hasKind NodeKind.isNamed n = false ∧ g.kindOf? n ≠ some .constant := by
    intro n hn
    refine ⟨not_isNamed_of_isSequential hn, fun hk => ?_⟩
    rw [hasKind, hk] at hn
    cases hn
  have he := ht.evolves hg.toTidy
  refine .of_readers he (fun {n c} hn _ => ?_) (fun {n o} hn hout ho => ?_) fun {n o c m} hn ho _ => ?_
  · rw [hasKind_congr (ht.kindOf? hg.toTidy)] at hn
    exact isSome_of_hasKind hn
  · rcases ht.connsOf_cases hg hread (hinner hn).1 (hinner hn).2 with heq | ⟨c, hs, -, heq⟩
    · rwa [heq]
    · rw [heq, List.mem_filter]
      refine ⟨ho, decide_eq_true ?_⟩
      rintro rfl
      rw [not_isSink_of_isOutput hout] at hs
      cases hs
  · rcases ht.read_cases hg hread ho (hinner hn).2 (hinner hn).1 with hiff | ⟨a, b, -, hb, hafter, hbefore⟩
    · exact hiff
    · -- a pin node is anchored at a gate or a constant
      have hnot : ∀ {c}, ¬ g.ReadAt o c b := by
        intro c hr
        rw [(ha hb hr.mem hr.sink hr.refs ho).2.1] at hn
        cases hn
      constructor
      · intro hr
        rcases hbefore hr with hr | ⟨-, hr⟩
        · exact hr
        · exact absurd hr hnot
      · intro hr
        have hmb : m ≠ b := by
          rintro rfl
          exact hnot hr
        simpa [hmb] using hafter hr

/-! ## Latch controls -/

/-- One connection at most reads a constant. -/
def ConstantsSole (g : Network) : Prop :=
  ∀ ⦃n o⦄, g.kindOf? n = some .constant → o ∈ g.connsOf n → (g.refsOf o).length ≤ 1

/-- A port that is exposed is not the output of a constant. -/
theorem Exposes.controlsIdle (hx : Exposes p g g') (hg : g.Owned) (hp : p ∈ g.connsOf designId)
    (hidle : g.ControlsIdle) : g'.ControlsIdle := by
  refine hidle.step hg hx.evolves (fun {n c} hk _ => ?_) fun {n c d m} _ _ hd hm hk =>
    ⟨(hx.refsOf c).trans hd, ?_⟩
  · rw [hx.kindOf?] at hk
    split at hk
    · cases hk
    · exact isSome_of_kindOf? hk
  · rw [hx.connsOf, if_neg (ne_nextNode (isSome_of_kindOf? hk)), List.mem_filter]
    refine ⟨hm, decide_eq_true ?_⟩
    rintro rfl
    rw [hg.eq_of_mem hm hp, hg.design_kind] at hk
    cases hk

theorem Exposes.constantsSole (hx : Exposes p g g') (hsole : g.ConstantsSole) : g'.ConstantsSole := by
  intro n o hk ho
  rw [hx.refsOf]
  rw [hx.kindOf?] at hk
  split at hk
  · cases hk
  · rename_i hne
    rw [hx.connsOf, if_neg hne] at ho
    exact hsole hk (List.mem_filter.mp ho).1

/-- A constant with one reader gets no pin node. -/
theorem Shares.controlsIdle (hs : Shares o n source g g') (hg : g.Sound)
    (hsole : g.ConstantsSole) (hidle : g.ControlsIdle) : g'.ControlsIdle := by
  refine hidle.step hg.toOwned hs.puts.evolves (fun {n c} hk _ => ?_) fun {k c d m} _ hsink hd hm hk => ⟨?_, ?_⟩
  · rw [hs.puts.kindOf?] at hk
    split at hk
    · cases hk
    · exact isSome_of_kindOf? hk
  · rw [hs.puts.refsOf_sink hg hs.isOutput hsink, if_neg, hd]
    intro hc
    have hod : o = d := by simpa [hd] using hg.mirror hc
    subst hod
    have := hsole hk hm
    have := hs.shared
    omega
  · rwa [hs.puts.connsOf_of_isSome (isSome_of_kindOf? hk)]

/-- A pin node does not make a constant read twice. -/
theorem Shares.constantsSole (hs : Shares o n source g g') (hg : g.Sound)
    (hsole : g.ConstantsSole) : g'.ConstantsSole := by
  intro m d hk hd
  rw [hs.puts.kindOf?] at hk
  split at hk
  · cases hk
  · rename_i hne
    rw [hs.puts.connsOf, if_neg hne] at hd
    have hput := ne_put (hg.conn_isSome hd)
    rw [hs.puts.refsOf (isSome_of_isOutput hs.isOutput) hg.mirror, if_neg hput.1, if_neg hput.2]
    split
    · rfl
    · split
      · rfl
      · exact hsole hk hd

/-- What the passes take from a network: the same ports, registers and buffers read the registers and
buffers, and a control that is idle stays so. -/
structure Tapped (K : NodeKind → Bool) (g h : Network) : Prop extends Layered K g h where
  taps : KeepsTaps g h
  constants : h.ConstantsSole
  idle : g.ControlsIdle → h.ControlsIdle

/-- What the first pass leaves. -/
theorem tapped_branch {r : Bool × Network} (hg : g.Raw K) (hpins : g.pins = [])
    (hpinNodes : g.pinNodes = []) (hdata : ∀ {n}, g.kindOf? n = some .triState → g.OneDataAt n)
    (hsole : g.ConstantsSole) (hrun : g.branch = .ok r) : Tapped K g r.2 := by
  refine (branch_invariant (P := fun h => Tapped K g h ∧ h.pinNodes = [])
    (fun hh => hh.1.toSound) ?_ (fun hh => hh.1) ?_ ?_
    ⟨⟨layered_refl hg hpins hpinNodes hdata, .refl, hsole, id⟩, hpinNodes⟩ hrun).1
  · rintro p h h' ⟨hh, hnone⟩ hmem hx
    exact ⟨⟨hx.layered hh.toLayered hnone hmem, hh.taps.trans (hx.keepsTaps hh.toOwned hmem),
      hx.constantsSole hh.constants, fun hidle => hx.controlsIdle hh.toOwned hmem (hh.idle hidle)⟩,
      hx.pinNodes.trans hnone⟩
  · intro o n source h h' _ hh hs
    exact ⟨hs.layered hh.toLayered, hh.taps.trans (hs.keepsTaps hh.toSound), hs.constantsSole hh.toSound hh.constants,
      fun hidle => hs.controlsIdle hh.toSound hh.constants (hh.idle hidle)⟩
  · intro h h' hh hr
    have ht := Trims.rebuild hr
    refine ⟨ht.layered hh.toLayered, hh.taps.trans (ht.keepsTaps hh.toRaw hh.anchored hh.read), ?_, ?_⟩
    all_goals
      rw [hh.read.rebuildTop hh.toTidy] at hr
      cases hr
    · exact hh.constants
    · exact fun hidle n c control hk hc hin hname =>
        ⟨hk, ⟨control, hname⟩, (hh.idle hidle hk hc hin hname).driver⟩

theorem keepsTaps_simplify {r : Bool × Network} (hh : Layered K g h) (hrun : h.simplify = .ok r) :
    KeepsTaps h r.2 := by
  refine (simplify_invariant (P := fun s => Layered K g s ∧ KeepsTaps h s)
    (fun hs => ⟨hs.1.toRaw, hs.1.anchored.selfless⟩) ?_ ⟨hh, .refl⟩ hrun).1.2
  rintro s s' ⟨hs, htaps⟩ ht
  exact ⟨ht.layered hs, htaps.trans (ht.keepsTaps hs.toRaw hs.anchored hs.read)⟩

/-! ## Jams -/

namespace KeepsTaps

variable (ht : KeepsTaps g g')
include ht

theorem onePort_iff (hn : g.hasKind NodeKind.isSequential n) (ho : o ∈ g.connsOf n) (hout : g.isOutput o) :
    g'.OnePort o ↔ g.OnePort o := by
  simp only [OnePort, ht.ports hn ho hout]

/-- Which connections belong to a register or buffer and are outputs. -/
theorem output_before (hg : g.Owned) (hn : g'.hasKind NodeKind.isSequential n) (ho : o ∈ g'.connsOf n)
    (hout : g'.isOutput o) : o ∈ g.connsOf n ∧ g.isOutput o := by
  have hsome := ht.only hn ho
  rw [ht.evolves.hasKind hsome] at hn
  have ho0 := ht.evolves.shrinks hsome (not_isNamed_of_isSequential hn) ho
  rw [ht.evolves.isOutput (hg.conn_isSome ho0)] at hout
  exact ⟨ho0, hout⟩

/-- As long as nothing was taken over, a register jams afterwards if and only if it did before. -/
theorem jams_iff (hg : g.Raw K) (hg' : g'.Raw K) (hr : g.hasKind NodeKind.isRegister r)
    (ho : o ∈ g.connsOf r) (hout : g.isOutput o) : g'.Jams o c ↔ g.Jams o c := by
  have hseq := hasKind_isSequential_of_isRegister hr
  have hbuf : ∀ {h : Network} {b}, h.kindOf? b = some .triState → h.hasKind NodeKind.isSequential b :=
    fun hb => hasKind_of hb rfl
  rw [jams_iff_of_nothing hg'.unmerged, jams_iff_of_nothing hg.unmerged]
  simp only [ht.ports hseq ho hout]
  refine and_congr_right fun hport => ?_
  have hsome : (g.conn? c).isSome := by
    rcases hport with ⟨n, -, hread⟩
    exact hg.conn_isSome hread.mem
  rw [ht.evolves.direction hsome]
  refine and_congr_right fun _ => and_congr_right fun _ => ?_
  constructor
  · intro h b x p hb hread hp hpo hone
    have hb' := (ht.evolves.kind (isSome_of_mem_connsOf hp)).trans hb
    have hpo' := ht.evolves.keeps_output hpo
    exact h b x p hb' ((ht.cells hseq ho hout (hbuf hb)).mpr hread) (ht.outputs (hbuf hb) hpo hp) hpo'
      ((ht.onePort_iff (hbuf hb) hp hpo).mpr hone)
  · intro h b x p hb hread hp hpo hone
    rcases ht.output_before hg.toOwned (hbuf hb) hp hpo with ⟨hp0, hpo0⟩
    rw [ht.evolves.kind (isSome_of_mem_connsOf hp0)] at hb
    exact h b x p hb ((ht.cells hseq ho hout (hbuf hb)).mp hread) hp0 hpo0
      ((ht.onePort_iff (hbuf hb) hp0 hpo0).mp hone)

theorem buffersApart (hg : g.Owned) (hapart : g.BuffersApart) : g'.BuffersApart := by
  intro b b' p x hb hp hpo hb' hx
  have hseq : g'.hasKind NodeKind.isSequential b := hasKind_of hb rfl
  have hseq' : g'.hasKind NodeKind.isSequential b' := hasKind_of hb' rfl
  have hsome' := ht.only hseq' hx.mem
  rcases ht.output_before hg hseq hp hpo with ⟨hp0, hpo0⟩
  rw [ht.evolves.kind (isSome_of_mem_connsOf hp0)] at hb
  rw [ht.evolves.hasKind (isSome_of_mem_connsOf hp0)] at hseq
  rw [ht.evolves.kind hsome'] at hb'
  rw [ht.evolves.hasKind hsome'] at hseq'
  exact hapart hb hp0 hpo0 hb' ((ht.cells hseq hp0 hpo0 hseq').mp hx)

theorem registersApart (hg : g.Raw K) (hapart : g.RegistersApart) : g'.RegistersApart := by
  intro r r' o c n x hr ho hout hn _ hc hdir hr' hx
  have hseq := hasKind_isSequential_of_isRegister hr
  have hseq' := hasKind_isSequential_of_isRegister hr'
  have hsome := ht.only hseq ho
  have hsome' := ht.only hseq' hx.mem
  rcases ht.output_before hg.toOwned hseq ho hout with ⟨ho0, hout0⟩
  rw [ht.evolves.hasKind hsome] at hr hseq
  rw [ht.evolves.hasKind hsome'] at hr' hseq'
  rcases (ht.ports hseq ho0 hout0).mp ⟨n, hn, hc⟩ with ⟨n0, hn0, hc0⟩
  rw [ht.evolves.direction (hg.conn_isSome hc0.mem)] at hdir
  exact hapart hr ho0 hout0 hn0 (hg.unmerged n0) hc0 hdir hr' ((ht.cells hseq ho0 hout0 hseq').mp hx)

end KeepsTaps

/-- No register jams afterwards if and only if none did before. -/
theorem KeepsTaps.noJams_iff (ht : KeepsTaps g g') (hg : g.Raw K) (hg' : g'.Raw K) :
    g'.NoJams ↔ g.NoJams := by
  constructor
  · intro h r o c hr ho hout hj
    have hr' := ht.evolves.keeps_kind hr
    refine h hr' (ht.outputs (hasKind_isSequential_of_isRegister hr) hout ho)
      (ht.evolves.keeps_output hout) ((ht.jams_iff hg hg' hr ho hout).mpr hj)
  · intro h r o c hr ho hout hj
    have hseq := hasKind_isSequential_of_isRegister hr
    rcases ht.output_before hg.toOwned hseq ho hout with ⟨ho0, hout0⟩
    rw [ht.evolves.hasKind (ht.only hseq ho)] at hr
    exact h hr ho0 hout0 ((ht.jams_iff hg hg' hr ho0 hout0).mp hj)

end PldSynth.Network
