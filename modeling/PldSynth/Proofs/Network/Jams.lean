import PldSynth.Proofs.Network.Completion
import PldSynth.Proofs.Network.Liveness
import PldSynth.Proofs.Network.Progress

/-!
# When all takeovers succeed

A register cannot be taken over if its output *jams*: the only port that reads it is bidirectional, so the
pin has no input that could give way. A buffer between the register and another port helps, because its
pin then reads the register too. Whether an output jams is kept by every takeover of another cell, provided
that no buffer reads another buffer and that no register reads a register on a bidirectional port. So the
order of the takeovers does not matter: they succeed exactly if no register jams at the start
(`exists_collapse_iff`).
-/

namespace PldSynth

open Attempt List

/-- The kinds of nodes that a port stands on: the module itself, or a pin. -/
def NodeKind.isOuter : NodeKind → Bool
  | .design | .pin => true
  | _ => false

theorem NodeKind.not_isOuter_of_isSequential {k : NodeKind} (h : k.isSequential) : k.isOuter = false := by
  cases k <;> first | rfl | cases h

namespace Network

open PldSynth.NodeKind (isNamed isOuter isRegister isSequential)

variable {K : NodeKind → Bool} {g g' g1 g2 : Network} {n m t b r cell : NodeId}
  {c d x o p slot : ConnId} {s : Takeover}

/-! ## Ports -/

theorem not_isOuter_of_isSequential (h : g.hasKind isSequential n) : ¬ g.hasKind isOuter n := by
  rcases hasKind_iff.mp h with ⟨k, hk, hseq⟩
  rw [hasKind, hk, Option.any_some, NodeKind.not_isOuter_of_isSequential hseq]
  exact Bool.false_ne_true

/-- A port reads the output at the connection `c`. -/
def PortReads (g : Network) (o c : ConnId) : Prop :=
  ∃ n, g.hasKind isOuter n = true ∧ g.ReadAt o c n

/-- Exactly one port reads the output. -/
def OnePort (g : Network) (o : ConnId) : Prop :=
  ∃ c, ∀ x, g.PortReads o x ↔ x = c

/-- Once the ports stand on pins, a port is a connection of a pin. -/
theorem portReads_iff (hg : g.Sound) (hdesign : g.connsOf designId = []) (ho : g.isOutput o) :
    g.PortReads o x ↔ x ∈ g.refsOf o ∧ (g.ownerOf? x).any (g.hasKind (· = .pin)) := by
  constructor
  · rintro ⟨n, hn, hr⟩
    refine ⟨hg.mirror hr.refs, ?_⟩
    rw [hg.owner hr.mem]
    rcases hasKind_iff.mp hn with ⟨k, hk, hp⟩
    cases k with
    | pin => exact hasKind_of hk rfl
    | design =>
      have hmem := hr.mem
      rw [hg.eq_designId (hg.inUse hmem) hk, hdesign] at hmem
      cases hmem
    | _ => cases hp
  · rintro ⟨hx, hp⟩
    rcases hg.listed (hg.mirror hx) with ⟨n, hn⟩
    rw [hg.owner hn] at hp
    rcases hasKind_iff.mp hp with ⟨k, hk, hp⟩
    exact ⟨n, hasKind_of hk (by rw [of_decide_eq_true hp]; rfl), hn, hg.sink_of_output hx ho,
      hg.mirror hx⟩

/-- A single slot is where the cell goes. -/
theorem existingTarget?_of_hostSlots (hg : g.Sound) (ho : (g.conn? o).isSome)
    (hslots : g.hostSlots o = [slot]) (hown : g.ownerOf? slot = some t) :
    g.existingTarget? o = .ok (some t) := by
  rcases Option.isSome_iff_exists.mp ho with ⟨y, hy⟩
  obtain ⟨ns, hns⟩ : ∃ ns, g.ownersOfKind (g.hostKind o) (g.refsOf o) = .ok ns :=
    exists_ownersOfKind hg fun c hc => hg.listed (hg.mirror hc)
  have hall : List.Forall₂ (fun c n => g.ownerOf? c = some n) (g.hostSlots o) ns :=
    ownersOfKind_eq_ok hns
  rw [hslots] at hall
  obtain ⟨n, rest, hn, hrest, rfl⟩ := forall₂_cons_left_iff.mp hall
  obtain rfl := forall₂_nil_left_iff.mp hrest
  obtain rfl : n = t := Option.mem_unique hn hown
  rw [hostKind, refsOf_of_conn? hy] at hns
  simp only [existingTarget?, conn_eq_ok.mpr hy, ok_bind, hns]
  rfl

/-- A node of one of the kinds that may take over an output is a pin if and only if one port reads the
output. -/
theorem onePort_of_existingTarget? (hg : g.Sound) (hdesign : g.connsOf designId = [])
    (ho : g.isOutput o) (h : g.existingTarget? o = .ok (some t)) (hk : g.kindOf? t = some .pin) :
    ∃ slot ∈ g.connsOf t, ∀ x, g.PortReads o x ↔ x = slot := by
  rcases hostSlots_of_existingTarget? h with ⟨slot, hslots, hown⟩
  have hmem : slot ∈ g.hostSlots o := by simp [hslots]
  rcases hg.listed (hg.mirror (mem_filter.mp hmem).1) with ⟨n, hn⟩
  obtain rfl : n = t := Option.mem_unique (hg.owner hn) hown
  refine ⟨slot, hn, fun x => ?_⟩
  rw [portReads_iff hg hdesign ho]
  have hpin : (g.ownerOf? slot).any (g.hasKind (· = .pin)) := by
    rw [hown]
    exact hasKind_of hk rfl
  constructor
  · rintro ⟨hx, hp⟩
    have hxs : x ∈ g.hostSlots o := by
      refine mem_filter.mpr ⟨hx, ?_⟩
      rcases hown' : g.ownerOf? x with _ | m
      · simp [hown'] at hp
      · rw [hown'] at hp
        rcases hasKind_iff.mp hp with ⟨k, hkm, hp⟩
        refine hasKind_iff.mpr ⟨k, hkm, ?_⟩
        rw [of_decide_eq_true hp, hostKind]
        split <;> rfl
    rw [hslots] at hxs
    exact mem_singleton.mp hxs
  · rintro rfl
    exact ⟨(mem_filter.mp hmem).1, hpin⟩

/-- If one port reads the output, the cell goes to its pin. -/
theorem existingTarget?_of_onePort (hg : g.Sound) (hdesign : g.connsOf designId = [])
    (ho : g.isOutput o) (hport : ∀ x, g.PortReads o x ↔ x = c) (hc : c ∈ g.connsOf t) :
    g.existingTarget? o = .ok (some t) ∧ g.kindOf? t = some .pin := by
  have hall := fun x => (portReads_iff hg hdesign ho).symm.trans (hport x)
  rcases (hall c).mpr rfl with ⟨hmem, hpin⟩
  rw [hg.owner hc] at hpin
  have hk := kindOf?_of_hasKind hpin
  refine ⟨existingTarget?_of_hostSlots hg (isSome_of_isOutput ho) ?_ (hg.owner hc), hk⟩
  unfold hostSlots hostKind
  split
  · exact filter_of_sole (hg.nodup_refs o) hmem (by rw [hg.owner hc]; exact hpin)
      fun y hy hp => (hall y).mp ⟨hy, hp⟩
  · rename_i hlen
    match hl : g.refsOf o, hmem, hlen with
    | [y], hmem, _ =>
      obtain rfl := mem_singleton.mp hmem
      simp [hg.owner hc, hasKind, hk, isNamed]
    | _ :: _ :: _, _, hlen => simp at hlen

/-! ## Readers across a takeover -/

theorem Seats.readAt_iff (h : Seats g o t slot g1) (hg : g.Sound) (ho : g.isOutput o)
    (hd : (g.conn? d).isSome) (hne : d ≠ o) : g1.ReadAt d c n ↔ g.ReadAt d c n := by
  cases h with
  | existing => rfl
  | fresh hp => exact hp.readAt_iff hg ho hd hne

namespace TakesOver

variable (ht : TakesOver s g g1 g2 g') (hg : g.Poised K)
  (hK : ∀ k, k.isSequential → K k) (hread : g.PinNodesRead)
include ht hg hK hread

/-- What reads another register or buffer afterwards: whatever read it before, except for the cell,
whose inputs now stand on the target. -/
theorem readAt_iff (hk : g.hasKind isSequential m) (hd : d ∈ g.connsOf m) (hm : m ≠ s.cell) :
    g'.ReadAt d c n ↔ n ≠ s.cell ∧
      (g.ReadAt d c n ∨ n = s.target ∧ ∃ c0, g.ReadAt d c0 s.cell ∧ s.place c0 = c) := by
  have hg1 := ht.poised1 hg
  have hlone := (ht.regularAt1 hg hK).lone
  have hne : d ≠ s.output := by
    rintro rfl
    exact hm (hg.eq_of_mem hd ht.mem)
  have hseats : ∀ {c n}, g1.ReadAt d c n ↔ g.ReadAt d c n :=
    ht.seats.readAt_iff hg.toSound ht.isOutput (hg.conn_isSome hd) hne
  have hd1 : d ∈ g1.connsOf m := by rwa [ht.connsOf1 (isSome_of_mem_connsOf hd)]
  have hmt : m ≠ s.target := by
    have hk1 := (ht.seats.evolves.hasKind (isSome_of_mem_connsOf hd) _).trans hk
    exact ht.applies.seat.ne_cell hk1
  have happlies : g2.ReadAt d c n ↔ n ≠ s.cell ∧ (g1.ReadAt d c n ∨ n = s.target ∧
      ∃ c0, g1.ReadAt d c0 s.cell ∧ s.place c0 = c) := by
    constructor
    · exact ht.applies.read_origin hg1.toSound ht.slot_source hd1 hmt
    · rintro ⟨hn, hr | ⟨rfl, c0, hr, rfl⟩⟩
      · exact ht.applies.read_other hg1.toSound hlone hr hn hne
      · exact ht.applies.read_own hg1.toSound hlone (ht.left_to_slot hg hK) hr hne
  rcases ht.exists_rebuilt hg hK hread with ⟨l, rfl⟩
  have htop : ({ g2 with top := l } : Network).ReadAt d c n ↔ g2.ReadAt d c n :=
    ⟨fun hr => ⟨hr.mem, hr.sink, hr.refs⟩, fun hr => ⟨hr.mem, hr.sink, hr.refs⟩⟩
  simp only [htop, happlies, hseats]

/-- A register or buffer that is not taken over keeps its connections. -/
theorem connsOf_sequential (hk : g.hasKind isSequential m) (hm : m ≠ s.cell) :
    g'.connsOf m = g.connsOf m := by
  have hsome := isSome_of_hasKind hk
  have hk1 := (ht.seats.evolves.hasKind hsome _).trans hk
  rcases ht.exists_rebuilt hg hK hread with ⟨l, rfl⟩
  exact (ht.applies.connsOf_of_ne hm (ht.applies.seat.ne_cell hk1)).trans (ht.connsOf1 hsome)

omit hK hread in
/-- A register or buffer that is there afterwards was there before. -/
theorem sequential_before (hk : g'.hasKind isSequential m) (hc : c ∈ g'.connsOf m) :
    m ≠ s.cell ∧ g'.kindOf? m = g.kindOf? m := by
  have hcell := (ht.poised hg).mem_cells_of_isCell hc (isCell_of_isSequential hk)
  rcases ht.mem_cells_before hg hcell with ⟨hmem, hne⟩
  exact ⟨hne, (ht.evolves hg).kind (hg.cell_isSome hmem)⟩

theorem kindOf?_target : g'.kindOf? s.target = g1.kindOf? s.target := by
  rcases ht.exists_rebuilt hg hK hread with ⟨l, rfl⟩
  exact ht.applies.kindOf? s.target

/-- Which ports read another register or buffer afterwards: if the target is a pin, the inputs of the
cell join them. -/
theorem portReads_iff (hk : g.hasKind isSequential m) (hd : d ∈ g.connsOf m) (hm : m ≠ s.cell) :
    g'.PortReads d x ↔ g.PortReads d x ∨
      g1.kindOf? s.target = some .pin ∧ ∃ c0, g.ReadAt d c0 s.cell ∧ s.place c0 = x := by
  have hr : ∀ {n}, g'.ReadAt d x n ↔ _ := ht.readAt_iff hg hK hread hk hd hm
  constructor
  · rintro ⟨n, hn, hx⟩
    rcases (hr.mp hx).2 with hx | ⟨rfl, hown⟩
    · rw [(ht.evolves hg).hasKind (isSome_of_mem_connsOf hx.mem)] at hn
      exact .inl ⟨n, hn, hx⟩
    · rcases hasKind_iff.mp hn with ⟨k, hkt, hp⟩
      rw [ht.kindOf?_target hg hK hread] at hkt
      have hnamed := ht.applies.seat.named
      rw [hasKind, hkt] at hnamed
      cases k with
      | pin => exact .inr ⟨hkt, hown⟩
      | pinNode => cases hp
      | _ => cases hnamed
  · rintro (⟨n, hn, hx⟩ | ⟨hkt, hx⟩)
    · refine ⟨n, ?_, hr.mpr ⟨?_, .inl hx⟩⟩
      · rwa [(ht.evolves hg).hasKind (isSome_of_mem_connsOf hx.mem)]
      · rintro rfl
        exact not_isOuter_of_isSequential ht.hasKind_cell hn
    · rw [← ht.kindOf?_target hg hK hread] at hkt
      exact ⟨s.target, hasKind_of hkt rfl, hr.mpr ⟨ht.applies.ne_cell.symm, .inr ⟨rfl, hx⟩⟩⟩

/-- If the cell does not read an output, the same ports read it afterwards. -/
theorem onePort_iff (hk : g.hasKind isSequential m) (hd : d ∈ g.connsOf m) (hm : m ≠ s.cell)
    (hquiet : ∀ c0, ¬ g.ReadAt d c0 s.cell) : g'.OnePort d ↔ g.OnePort d := by
  have hiff : ∀ x, g'.PortReads d x ↔ g.PortReads d x := by
    intro x
    rw [ht.portReads_iff hg hK hread hk hd hm]
    constructor
    · rintro (hx | ⟨-, c0, hc0, -⟩)
      · exact hx
      · exact absurd hc0 (hquiet c0)
    · exact .inl
  simp only [OnePort, hiff]

end TakesOver

/-! ## Registers that jam -/

/-- The output jams at the port `c`: the one port that reads it is bidirectional and has taken over
nothing, and no buffer that reads the output drives exactly one port. A register with such an output
cannot be taken over, since the pin has no input that could give way. -/
structure Jams (g : Network) (o c : ConnId) : Prop where
  port : ∃ n, g.hasKind isOuter n = true ∧ g.absorbedOf n = .nothing ∧ g.ReadAt o c n
  bidirectional : g.directionOf? c = some .bidirectional
  sole : ∀ x, g.PortReads o x → x = c
  buffers : ∀ {b x p}, g.kindOf? b = some .triState → g.ReadAt o x b → p ∈ g.connsOf b →
    g.isOutput p = true → ¬ g.OnePort p

/-- As long as nothing was taken over, any port will do. -/
theorem jams_iff_of_nothing (hnothing : ∀ t, g.absorbedOf t = .nothing) : g.Jams o c ↔
    g.PortReads o c ∧ g.directionOf? c = some .bidirectional ∧ (∀ x, g.PortReads o x → x = c) ∧
      ∀ b x p, g.kindOf? b = some .triState → g.ReadAt o x b → p ∈ g.connsOf b → g.isOutput p →
        ¬ g.OnePort p := by
  constructor
  · intro h
    rcases h.port with ⟨n, hn, -, hr⟩
    exact ⟨⟨n, hn, hr⟩, h.bidirectional, h.sole, fun _ _ _ => h.buffers⟩
  · rintro ⟨⟨n, hn, hr⟩, hdir, hsole, hbuffers⟩
    exact ⟨⟨n, hn, hnothing n, hr⟩, hdir, hsole, fun {b x p} => hbuffers b x p⟩

/-- No register has an output that jams. -/
def NoJams (g : Network) : Prop :=
  ∀ ⦃r o c⦄, g.hasKind isRegister r = true → o ∈ g.connsOf r → g.isOutput o = true →
    ¬ g.Jams o c

/-- No buffer reads another buffer. -/
def BuffersApart (g : Network) : Prop :=
  ∀ ⦃b b' p x⦄, g.kindOf? b = some .triState → p ∈ g.connsOf b → g.isOutput p = true →
    g.kindOf? b' = some .triState → g.ReadAt p x b' → b' = b

/-- If a bidirectional port that has taken over nothing reads a register, no other register does. -/
def RegistersApart (g : Network) : Prop :=
  ∀ ⦃r r' o c n x⦄, g.hasKind isRegister r = true → o ∈ g.connsOf r → g.isOutput o = true →
    g.hasKind isOuter n = true → g.absorbedOf n = .nothing → g.ReadAt o c n →
    g.directionOf? c = some .bidirectional → g.hasKind isRegister r' = true →
    g.ReadAt o x r' → r' = r

/-- What the run of takeovers starts from and keeps. -/
structure Orderly (K : NodeKind → Bool) (g : Network) : Prop extends Poised K g where
  read : g.PinNodesRead
  design : g.connsOf designId = []
  buffersApart : g.BuffersApart
  registersApart : g.RegistersApart

section Step

variable (ht : TakesOver s g g1 g2 g') (hg : g.Orderly K)
  (hK : ∀ k, k.isSequential → K k)
include ht hg hK

omit hK in
/-- A buffer is taken over by a pin if and only if exactly one port reads it. -/
theorem TakesOver.target_pin_iff (hk : g.kindOf? s.cell = some .triState) :
    g1.kindOf? s.target = some .pin ↔ g.OnePort s.output := by
  cases ht.role with
  | register hreg =>
    rw [hasKind, hk] at hreg
    cases hreg
  | buffer _ _ _ htarget =>
    constructor
    · intro hpin
      rcases exists_takeoverTarget hg.toSound ht.isOutput ht.mem with ⟨t, hex, hrun⟩ | ⟨⟨t, h1⟩, hnone, hput, hrun⟩
      · rw [hrun] at htarget
        cases htarget
        rcases onePort_of_existingTarget? hg.toSound hg.design ht.isOutput hex hpin with ⟨slot, -, hport⟩
        exact ⟨slot, hport⟩
      · rcases puts_putPinNode hg.toWired hput with ⟨-, source, -, -, hnew, hputs⟩
        rw [hrun] at htarget
        cases htarget
        change s.target = g.nextNode at hnew
        rw [hnew, hputs.kindOf?, if_pos rfl] at hpin
        cases hpin
    · rintro ⟨c, hport⟩
      rcases (hport c).mpr rfl with ⟨n, -, hr⟩
      rcases existingTarget?_of_onePort hg.toSound hg.design ht.isOutput hport hr.mem with ⟨hex, hpin⟩
      have hrun : g.takeoverTarget s.output = .ok (n, g) := by
        simp only [takeoverTarget, hex, ok_bind]
        rfl
      rw [hrun] at htarget
      cases htarget
      exact hpin

omit hK in
/-- A target that has taken over nothing reads the cell at the only connection where it can be driven. -/
theorem TakesOver.not_readAt_target (habs : g.absorbedOf s.target = .nothing) (hd : d ∈ g.connsOf m)
    (hm : m ≠ s.cell) : ¬ g.ReadAt d x s.target := by
  intro hx
  have hne : d ≠ s.output := by
    rintro rfl
    exact hm (hg.eq_of_mem hd ht.mem)
  have hx1 := (ht.seats.readAt_iff hg.toSound ht.isOutput (hg.conn_isSome hd) hne).mpr hx
  have hslot := (ht.poised1 hg.toPoised).undivided ht.applies.seat.named (ht.seats.absorbedOf.trans habs)
    hx1.mem ht.applies.seat.mem hx1.sink ht.applies.seat.sink
  have hrefs := hx1.refs
  rw [hslot, ht.applies.seat.refs, mem_singleton] at hrefs
  exact hne hrefs

/-- What a node that has taken over nothing reads of a register or buffer is the same before and after. -/
theorem TakesOver.idle_iff (hk : g.hasKind isSequential m) (hd : d ∈ g.connsOf m) (hm : m ≠ s.cell) :
    (∃ n, g'.hasKind isOuter n ∧ g'.absorbedOf n = .nothing ∧ g'.ReadAt d c n) ↔
      ∃ n, g.hasKind isOuter n ∧ g.absorbedOf n = .nothing ∧ g.ReadAt d c n := by
  have hr : ∀ {n}, g'.ReadAt d c n ↔ _ := ht.readAt_iff hg.toPoised hK hg.read hk hd hm
  have he := ht.evolves hg.toPoised
  constructor
  · rintro ⟨n, hn, habs, hx⟩
    rcases ht.ne_target hg.toPoised habs with ⟨hnt, habs⟩
    rcases (hr.mp hx).2 with hx | ⟨heq, -⟩
    · rw [he.hasKind (isSome_of_mem_connsOf hx.mem)] at hn
      exact ⟨n, hn, habs, hx⟩
    · exact absurd heq hnt
  · rintro ⟨n, hn, habs, hx⟩
    have hnc : n ≠ s.cell := by
      rintro rfl
      exact not_isOuter_of_isSequential ht.hasKind_cell hn
    have hnt : n ≠ s.target := by
      rintro rfl
      exact ht.not_readAt_target hg habs hd hm hx
    refine ⟨n, ?_, ?_, hr.mpr ⟨hnc, .inl hx⟩⟩
    · rwa [he.hasKind (isSome_of_mem_connsOf hx.mem)]
    · rwa [ht.absorbedOf hg.toPoised, if_neg hnt]

/-- A register or buffer reads the other ones as before. -/
theorem TakesOver.reads_before (hk : g.hasKind isSequential m) (hd : d ∈ g.connsOf m) (hm : m ≠ s.cell)
    (hn : g'.hasKind isSequential n) (hx : g'.ReadAt d x n) : g.ReadAt d x n := by
  rcases ((ht.readAt_iff hg.toPoised hK hg.read hk hd hm).mp hx).2 with hx | ⟨rfl, -⟩
  · exact hx
  · rw [hasKind, ht.kindOf?_target hg.toPoised hK hg.read] at hn
    exact absurd rfl (ht.applies.seat.ne_cell hn)

/-- Whether an output of another register jams does not change, provided that the cell reads no other
buffer. -/
theorem TakesOver.jams_iff (hr : g.hasKind isRegister r) (hmem : o ∈ g.connsOf r) (hout : g.isOutput o)
    (hrc : r ≠ s.cell) (hquiet : ∀ {b p}, g.kindOf? b = some .triState → b ≠ s.cell → p ∈ g.connsOf b →
      g.isOutput p → ∀ c0, ¬ g.ReadAt p c0 s.cell) : g'.Jams o c ↔ g.Jams o c := by
  have hp := hg.toPoised
  have hk := hasKind_isSequential_of_isRegister hr
  have he := ht.evolves hp
  have hread : ∀ {c n}, g'.ReadAt o c n ↔ _ := ht.readAt_iff hp hK hg.read hk hmem hrc
  have hseq : ∀ {b}, g.kindOf? b = some .triState → g.hasKind isSequential b :=
    fun hb => hasKind_of hb rfl
  by_cases hjoin : g1.kindOf? s.target = some .pin ∧ ∃ c0, g.ReadAt o c0 s.cell
  · -- a port joins in
    rcases hjoin with ⟨hpin, c0, hc0⟩
    refine iff_of_false (fun h => ?_) fun h => ?_
    · have hjoins : g'.ReadAt o (s.place c0) s.target :=
        hread.mpr ⟨ht.applies.ne_cell.symm, .inr ⟨rfl, c0, hc0, rfl⟩⟩
      have hport : g'.PortReads o (s.place c0) :=
        (ht.portReads_iff hp hK hg.read hk hmem hrc).mpr (.inr ⟨hpin, c0, hc0, rfl⟩)
      rcases h.port with ⟨n, -, habs, hn⟩
      rw [← h.sole _ hport] at hn
      exact (ht.ne_target hg.toPoised habs).1 ((ht.poised hp).eq_of_mem hn.mem hjoins.mem)
    · cases ht.role with
      | register hreg =>
        rcases h.port with ⟨n, hn, habs, hc⟩
        exact hrc (hg.registersApart hr hmem hout hn habs hc h.bidirectional hreg hc0).symm
      | buffer hbuf =>
        exact h.buffers hbuf hc0 ht.mem ht.isOutput ((ht.target_pin_iff hg hbuf).mp hpin)
  · -- no port joins in
    have hports : ∀ x, g'.PortReads o x ↔ g.PortReads o x := by
      intro x
      rw [ht.portReads_iff hp hK hg.read hk hmem hrc]
      constructor
      · rintro (hx | ⟨hpin, c0, hc0, -⟩)
        · exact hx
        · exact absurd ⟨hpin, c0, hc0⟩ hjoin
      · exact .inl
    have hone : ∀ {b p}, g.kindOf? b = some .triState → b ≠ s.cell → p ∈ g.connsOf b →
        g.isOutput p → (g'.OnePort p ↔ g.OnePort p) := fun hb hbc hpb hpo =>
      ht.onePort_iff hp hK hg.read (hseq hb) hpb hbc (hquiet hb hbc hpb hpo)
    have hdir : ∀ {n}, g.ReadAt o c n → g'.directionOf? c = g.directionOf? c := fun hc =>
      he.direction (hg.conn_isSome hc.mem)
    constructor
    · intro h
      have hport := (ht.idle_iff hg hK hk hmem hrc).mp h.port
      rcases hport with ⟨n, hn, habs, hc⟩
      refine ⟨⟨n, hn, habs, hc⟩, hdir hc ▸ h.bidirectional, fun x hx => h.sole x ((hports x).mpr hx), ?_⟩
      intro b x p hb hx hpb hpo hone'
      by_cases hbc : b = s.cell
      · subst hbc
        have hlone := (hp.toTidy.loneCells hK) s.cell (ht.mem_cells hg.toOwned) ht.hasKind_cell
        rw [hlone hpb ht.mem hpo ht.isOutput] at hone'
        exact hjoin ⟨(ht.target_pin_iff hg hb).mpr hone', x, hx⟩
      · refine h.buffers ?_ (hread.mpr ⟨hbc, .inl hx⟩) ?_ ?_
          ((hone hb hbc hpb hpo).mpr hone')
        · rwa [he.kind (isSome_of_mem_connsOf hpb)]
        · rwa [ht.connsOf_sequential hp hK hg.read (hseq hb) hbc]
        · rwa [he.isOutput (hg.conn_isSome hpb)]
    · intro h
      rcases h.port with ⟨n, hn, habs, hc⟩
      refine ⟨(ht.idle_iff hg hK hk hmem hrc).mpr h.port, hdir hc ▸ h.bidirectional,
        fun x hx => h.sole x ((hports x).mp hx), ?_⟩
      intro b x p hb hx hpb hpo hone'
      rcases ht.sequential_before hp (hasKind_of hb rfl) hpb with ⟨hbc, hkind⟩
      have hb0 := hkind.symm.trans hb
      rw [ht.connsOf_sequential hp hK hg.read (hseq hb0) hbc] at hpb
      rw [he.isOutput (hg.conn_isSome hpb)] at hpo
      exact h.buffers hb0 (ht.reads_before hg hK hk hmem hrc (hasKind_of hb rfl) hx) hpb hpo
        ((hone hb0 hbc hpb hpo).mp hone')

/-- A takeover keeps what the run starts from. -/
theorem TakesOver.orderly : g'.Orderly K where
  toPoised := ht.poised hg.toPoised
  read := (ht.pinNodesRead hg.toPoised hK hg.read).rebuilt (ht.poised2 hg.toPoised).toTidy ht.rebuilt
  design := by
    rw [eq_nil_iff_forall_not_mem]
    intro c hc
    have hsome : (g.node? designId).isSome := isSome_of_kindOf? hg.design_kind
    have hold := (ht.evolves hg.toPoised).shrinks hsome (by simp [hasKind, hg.design_kind, isNamed]) hc
    rw [hg.design] at hold
    cases hold
  buffersApart b b' p x hb hp hpo hb' hx := by
    have hseq : g'.hasKind isSequential b := hasKind_of hb rfl
    rcases ht.sequential_before hg.toPoised hseq hp with ⟨hbc, hkind⟩
    rw [hkind] at hb
    have hk : g.hasKind isSequential b := hasKind_of hb rfl
    rw [ht.connsOf_sequential hg.toPoised hK hg.read hk hbc] at hp
    rw [(ht.evolves hg.toPoised).isOutput (hg.conn_isSome hp)] at hpo
    have hx0 := ht.reads_before hg hK hk hp hbc (hasKind_of hb' rfl) hx
    rw [(ht.evolves hg.toPoised).kind (isSome_of_mem_connsOf hx0.mem)] at hb'
    exact hg.buffersApart hb hp hpo hb' hx0
  registersApart r r' o c n x hr ho hout hn habs hc hdir hr' hx := by
    rcases ht.sequential_before hg.toPoised (hasKind_isSequential_of_isRegister hr) ho with ⟨hrc, hkind⟩
    rw [hasKind, hkind] at hr
    have hk := hasKind_isSequential_of_isRegister hr
    rw [ht.connsOf_sequential hg.toPoised hK hg.read hk hrc] at ho
    rw [(ht.evolves hg.toPoised).isOutput (hg.conn_isSome ho)] at hout
    rcases (ht.idle_iff hg hK hk ho hrc).mp ⟨n, hn, habs, hc⟩ with ⟨n0, hn0, habs0, hc0⟩
    have hx0 := ht.reads_before hg hK hk ho hrc (hasKind_isSequential_of_isRegister hr') hx
    rw [(ht.evolves hg.toPoised).direction (hg.conn_isSome hc0.mem)] at hdir
    rw [(ht.evolves hg.toPoised).hasKind (isSome_of_mem_connsOf hx0.mem)] at hr'
    exact hg.registersApart hr ho hout hn0 habs0 hc0 hdir hr' hx0

end Step

/-! ## The run -/

/-- Nothing reads a buffer. -/
def BuffersIdle (g : Network) : Prop :=
  ∀ ⦃b⦄, g.kindOf? b = some .triState → g.UnreadAt b

/-- `h` is what the run has come to from `g`: the registers outside of `done` are as they were, and they
jam where they did. -/
structure KeepsJams (g : Network) (done : List NodeId) (h : Network) : Prop where
  evolves : Evolves g h
  connsOf : ∀ {r}, g.hasKind isRegister r = true → r ∉ done → h.connsOf r = g.connsOf r
  jams : ∀ {r o c}, g.hasKind isRegister r = true → r ∉ done → o ∈ g.connsOf r →
    g.isOutput o = true → (h.Jams o c ↔ g.Jams o c)

theorem UnreadAt.not_readAt (hun : g.UnreadAt b) (hg : g.Sound) (hp : p ∈ g.connsOf b)
    (hout : g.isOutput p) : ¬ g.ReadAt p x n := by
  intro hr
  have hmem := hg.mirror hr.refs
  rw [hun hp hout] at hmem
  cases hmem

/-- The cell reads no other buffer: a buffer does not, and by the time that registers are taken over no
buffer is read. -/
theorem TakesOver.quiet (ht : TakesOver s g g1 g2 g') (hg : g.Orderly K)
    (hidle : g.hasKind isRegister s.cell → g.BuffersIdle) (hb : g.kindOf? b = some .triState)
    (hbc : b ≠ s.cell) (hp : p ∈ g.connsOf b) (hout : g.isOutput p) : ¬ g.ReadAt p x s.cell := by
  intro hr
  cases ht.role with
  | register hreg => exact (hidle hreg hb).not_readAt hg.toSound hp hout hr
  | buffer hk => exact hbc (hg.buffersApart hb hp hout hk hr).symm

theorem TakesOver.buffersIdle (ht : TakesOver s g g1 g2 g') (hg : g.Orderly K) (hidle : g.BuffersIdle) :
    g'.BuffersIdle := by
  intro b hb o ho hout
  have hk : g'.hasKind isSequential b := hasKind_of hb rfl
  rcases ht.sequential_before hg.toPoised hk ho with ⟨hbc, hkind⟩
  rw [hkind] at hb
  exact ht.unreadAt hg.toPoised (hasKind_of hb rfl) hbc (hidle hb) ho hout

/-- A takeover leaves the jams of the registers that are still to come. -/
theorem KeepsJams.takeover {h h' : Network} {done done' : List NodeId} (hj : KeepsJams g done h)
    (hh : h.Orderly K) (hK : ∀ k, k.isSequential → K k) (ht : TakesOver s h g1 g2 h')
    (hidle : h.hasKind isRegister s.cell → h.BuffersIdle)
    (hdone : ∀ r, g.hasKind isRegister r → r ∉ done' → r ∉ done ∧ r ≠ s.cell) : KeepsJams g done' h' := by
  have hreg : ∀ {r}, g.hasKind isRegister r → h.hasKind isRegister r :=
    fun hr => hj.evolves.keeps_kind hr
  refine ⟨hj.evolves.trans (ht.evolves hh.toPoised), fun {r} hr hd => ?_, fun {r o c} hr hd ho hout => ?_⟩
  · rcases hdone r hr hd with ⟨hd, hrc⟩
    rw [ht.connsOf_sequential hh.toPoised hK hh.read (hasKind_isSequential_of_isRegister (hreg hr)) hrc]
    exact hj.connsOf hr hd
  · rcases hdone r hr hd with ⟨hd, hrc⟩
    have ho' : o ∈ h.connsOf r := by rwa [hj.connsOf hr hd]
    rw [ht.jams_iff hh hK (hreg hr) ho' (hj.evolves.keeps_output hout) hrc
      fun hb hbc hp hpo _ => ht.quiet hh hidle hb hbc hp hpo]
    exact hj.jams hr hd ho hout

/-! ### Buffers -/

/-- A node that has taken over a buffer reads no buffer. -/
def HostsQuiet (g : Network) : Prop :=
  ∀ ⦃t b p x⦄, (g.absorbedOf t).buffer = true → g.kindOf? b = some .triState → p ∈ g.connsOf b →
    g.isOutput p = true → ¬ g.ReadAt p x t

/-- Taking over a buffer, a host comes to read no other buffer. -/
theorem TakesOver.hostsQuiet (ht : TakesOver s g g1 g2 g') (hg : g.Orderly K)
    (hK : ∀ k, k.isSequential → K k) (hk : g.kindOf? s.cell = some .triState)
    (hfree : (g.absorbedOf s.target).register = false) (hquiet : g.HostsQuiet) : g'.HostsQuiet := by
  have hp := hg.toPoised
  intro t b p x habs hb hpb hpo hx
  rcases ht.sequential_before hp (hasKind_of hb rfl) hpb with ⟨hbc, hkind⟩
  rw [hkind] at hb
  have hseq : g.hasKind isSequential b := hasKind_of hb rfl
  rw [ht.connsOf_sequential hp hK hg.read hseq hbc] at hpb
  rw [(ht.evolves hp).isOutput (hg.conn_isSome hpb)] at hpo
  rcases ((ht.readAt_iff hp hK hg.read hseq hpb hbc).mp hx).2 with hx | ⟨-, c0, hc0, -⟩
  · by_cases htt : t = s.target
    · subst htt
      cases ht.role with
      | register hreg =>
        rw [hasKind, hk] at hreg
        cases hreg
      | buffer _ hbuf =>
        have hnothing : g.absorbedOf s.target = .nothing := by
          rw [← Absorbed.isNothing_iff]
          simp [Absorbed.isNothing, hbuf, hfree]
        exact ht.not_readAt_target hg hnothing hpb hbc hx
    · rw [ht.absorbedOf hp, if_neg htt] at habs
      exact hquiet habs hb hpb hpo hx
  · exact ht.quiet hg (fun hreg => by rw [hasKind, hk] at hreg; cases hreg) hb hbc hpb hpo hc0

/-- So no buffer is blocked by another one. -/
theorem HostsQuiet.not_blocked {e : NetworkError} (hquiet : g.HostsQuiet) (hg : g.Sound)
    (hk : g.kindOf? n = some .triState) : ¬ Blocked g n e := by
  intro hb
  cases hb with
  | secondBuffer hn ho ht hbuf _ =>
    rcases liveOutput?_eq_ok ho with ⟨hmem, hout, -⟩
    rcases seat_existingTarget? hg hout ht with ⟨slot, hseat⟩
    exact hquiet hbuf hn hmem hout ⟨hseat.mem, hseat.sink, by simp [hseat.refs]⟩
  | bidirectional hn =>
    rw [hasKind, hk] at hn
    cases hn

/-! ### Registers -/

/-- A register is blocked only if it jams. -/
theorem jams_of_blocked {e : NetworkError} (hg : g.Orderly K) (hidle : g.BuffersIdle)
    (hr : g.hasKind isRegister n) (hb : Blocked g n e) :
    ∃ o c, o ∈ g.connsOf n ∧ g.isOutput o ∧ g.Jams o c := by
  cases hb with
  | secondBuffer hk =>
    rw [hasKind, hk] at hr
    cases hr
  | @bidirectional o c t name _ ho ht habs hpin hc hdir _ =>
    rcases liveOutput?_eq_ok ho with ⟨hmem, hout, -⟩
    have hk := hg.pin_kind hpin
    rcases onePort_of_existingTarget? hg.toSound hg.design hout ht hk with ⟨slot, hslot, hport⟩
    have hread : g.ReadAt o slot t := by
      rcases (hport slot).mpr rfl with ⟨n, -, hr⟩
      rwa [hg.eq_of_mem hslot hr.mem]
    have hsink : g.isSink c := by simp [isSink, hdir, Direction.isInput]
    obtain rfl : slot = c :=
      hg.undivided (hasKind_of hk rfl) habs hslot hc hread.sink hsink
    refine ⟨o, slot, hmem, hout, ⟨t, hasKind_of hk rfl, habs, hread⟩, hdir,
      fun x hx => (hport x).mp hx, ?_⟩
    rintro b x p hb - hp hpo ⟨y, hy⟩
    rcases (hy y).mpr rfl with ⟨m, -, hr⟩
    exact (hidle hb).not_readAt hg.toSound hp hpo hr

/-- A register that jams is not taken over. -/
theorem not_takeOverRegister_of_jams (hg : g.Orderly K) (hlone : g.LoneAt n) (hmem : o ∈ g.connsOf n)
    (hout : g.isOutput o) (hj : g.Jams o c) : ¬ ∃ r, g.takeOverRegister n = .ok r := by
  rcases hj.port with ⟨t, hk, habs, hread⟩
  have hport : ∀ x, g.PortReads o x ↔ x = c :=
    fun x => ⟨hj.sole x, fun hx => hx ▸ ⟨t, hk, hread⟩⟩
  rcases existingTarget?_of_onePort hg.toSound hg.design hout hport hread.mem with ⟨htarget, hpin⟩
  rcases Option.isSome_iff_exists.mp (isSome_of_mem_connsOf hread.mem) with ⟨y, hy⟩
  have hy' : y.absorbed = .nothing := by simpa [absorbedOf, hy] using habs
  -- the pin has no input
  have hnone : (g.connsOf t).filter g.isInput = [] := by
    rw [filter_eq_nil_iff]
    intro e he hin
    have heq := hg.undivided (hasKind_of hpin rfl) habs he hread.mem (isSink_of_isInput hin)
      hread.sink
    rw [heq] at hin
    simp [isInput, hj.bidirectional] at hin
  rcases exists_nodeNameOf? (isSome_of_mem_connsOf hread.mem) with ⟨name, hname⟩
  have hlive : g.liveOutput? n = .ok (some o) := by
    have hfind : (g.connsOf n).find? g.isOutput = some o := by
      rcases hf : (g.connsOf n).find? g.isOutput with _ | o'
      · exact absurd hout (find?_eq_none.mp hf o hmem)
      · rw [hlone (mem_of_find?_eq_some hf) hmem (find?_some hf) hout]
    have hpos : 0 < (g.refsOf o).length := length_pos_of_mem (hg.mirror hread.refs)
    simp only [liveOutput?, output?_eq_ok.mpr ⟨isSome_of_mem_connsOf hmem, hfind⟩, ok_bind,
      fanOut_eq_ok.mpr ⟨isSome_of_isOutput hout, rfl⟩, if_pos hpos]
    rfl
  rintro ⟨r, hrun⟩
  simp only [takeOverRegister, hlive, ok_bind, registerTarget, takeoverTarget, htarget,
    bind_eq_ok, node_eq_ok, pure_eq_ok] at hrun
  rcases hrun with ⟨_, ⟨_, rfl, z, hz, hrun⟩, -⟩
  obtain rfl : y = z := Option.mem_unique hy hz
  rw [hy', soleInput_of_nil hname hnone] at hrun
  cases hrun

/-! ### Buffers first, then registers -/

/-- What holds while buffers are taken over. -/
structure BufferPhase (K : NodeKind → Bool) (g : Network) (pre : List NodeId) (h : Network) : Prop where
  orderly : h.Orderly K
  free : ∀ t, (h.absorbedOf t).register = false
  quiet : h.HostsQuiet
  passed : Passed (· = .triState) pre h
  cells : ∀ n ∈ h.cells, n ∈ g.cells
  keeps : KeepsJams g [] h

/-- What holds while registers are taken over. -/
structure RegisterPhase (K : NodeKind → Bool) (g : Network) (pre : List NodeId) (h : Network) : Prop where
  orderly : h.Orderly K
  idle : h.BuffersIdle
  keeps : KeepsJams g pre h

theorem not_mem_prefix {l pre post : List NodeId} (hnd : l.Nodup) (hl : l = pre ++ n :: post) : n ∉ pre := by
  rw [hl] at hnd
  exact fun hpre => (nodup_append.mp hnd).2.2 n hpre n mem_cons_self rfl

section Run

variable (hg : g.Orderly K) (hK : ∀ k, k.isSequential → K k)
  (hnothing : ∀ t, g.absorbedOf t = .nothing)
include hg hK hnothing

/-- The buffers are taken over first. -/
theorem bufferPhase {l : List NodeId} {s : Bool × Network} (hl : ∀ n ∈ l, g.hasKind (· = .triState) n)
    (hrun : l.foldlM (takeOverWith takeOverBuffer) (false, g) = .ok s) : BufferPhase K g l s.2 := by
  have hbuf : ∀ k : NodeKind, decide (k = .triState) → k.isSequential := by
    intro k hk
    rw [of_decide_eq_true hk]
    rfl
  refine (takeOverAll_keeps (s := (false, g)) hg.toPoised ?_ hl
    (fun hh hk => takesOver_buffer hh (kindOf?_of_hasKind hk)) ?_ ?_ hrun).2.2
  · refine ⟨hg, fun t => by rw [hnothing]; rfl, fun t b p x habs => ?_, .nil, fun _ hn => hn, .refl g,
      fun _ _ => rfl, fun _ _ _ _ => .rfl⟩
    rw [hnothing] at habs
    cases habs
  · intro pre n h _ hP _ hlive
    exact { hP with passed := hP.passed.idle hbuf (hP.orderly.toTidy.loneCells hK) hlive }
  · intro pre u h h1 h2 h' hh hP hk ht
    have hk := kindOf?_of_hasKind hk
    have hreg : ¬ h.hasKind isRegister u.cell := by
      rw [hasKind, hk]
      exact Bool.false_ne_true
    refine ⟨ht.orderly hP.orderly hK, fun t => ?_,
      ht.hostsQuiet hP.orderly hK hk (hP.free _) hP.quiet, hP.passed.takeover hbuf hh ht,
      fun n hn => hP.cells n (ht.mem_cells_before hh hn).1,
      hP.keeps.takeover hP.orderly hK ht (fun h => absurd h hreg) fun r hr _ => ⟨not_mem_nil, ?_⟩⟩
    · rw [ht.register_buffer hh hk]
      exact hP.free t
    · rintro rfl
      exact hreg (hP.keeps.evolves.keeps_kind hr)

omit hK hnothing in
/-- When all buffers were visited, none that is left is read. -/
theorem BufferPhase.registerPhase {h : Network}
    (hP : BufferPhase K g (g.cells.filter (g.hasKind (· = .triState))) h) : RegisterPhase K g [] h := by
  refine ⟨hP.orderly, fun b hb => ?_, hP.keeps⟩
  intro o ho hout
  have hk : h.hasKind (· = .triState) b := hasKind_of hb rfl
  have hmem := hP.orderly.mem_cells_of_isCell ho (hasKind_of hb rfl)
  have hold := hP.cells b hmem
  refine hP.passed b (mem_filter.mpr ⟨hold, ?_⟩) hmem hk ho hout
  rwa [← hP.keeps.evolves.hasKind (hg.cell_isSome hold)]

omit hnothing hg in
/-- The registers follow. -/
theorem registerPhase {l : List NodeId} {s s' : Bool × Network} (hP : RegisterPhase K g [] s.2)
    (hl : ∀ n ∈ l, s.2.hasKind isRegister n) (hrun : l.foldlM (takeOverWith takeOverRegister) s = .ok s') :
    RegisterPhase K g l s'.2 := by
  refine (takeOverAll_keeps (P := RegisterPhase K g) hP.orderly.toPoised hP hl takesOver_register
    ?_ ?_ hrun).2.2
  · intro pre n h _ hP _ _
    refine ⟨hP.orderly, hP.idle, hP.keeps.evolves, fun hr hd => hP.keeps.connsOf hr ?_,
      fun hr hd => hP.keeps.jams hr ?_⟩
    all_goals exact fun hmem => hd (mem_append_left _ hmem)
  · intro pre u h h1 h2 h' hh hP _ ht
    refine ⟨ht.orderly hP.orderly hK, ht.buffersIdle hP.orderly hP.idle,
      hP.keeps.takeover hP.orderly hK ht (fun _ => hP.idle) fun r _ hd => ⟨fun hmem => ?_, ?_⟩⟩
    · exact hd (mem_append_left _ hmem)
    · rintro rfl
      exact hd (by simp)

/-- All registers and buffers can be taken over if and only if no register jams. -/
theorem exists_collapse_iff : (∃ r, g.collapse = .ok r) ↔ g.NoJams := by
  constructor
  · rintro ⟨r, hrun⟩ n o c hn ho hout hj
    simp only [collapse, bind_eq_ok] at hrun
    rcases hrun with ⟨s, hbuffers, hregisters⟩
    have hP := (bufferPhase hg hK hnothing (fun n hn => (mem_filter.mp hn).2) hbuffers).registerPhase
      hg
    have hconns := hP.keeps.connsOf hn not_mem_nil
    have hn' := hP.keeps.evolves.keeps_kind hn
    have hmem : n ∈ s.2.cells.filter (s.2.hasKind isRegister) := by
      refine mem_filter.mpr ⟨?_, hn'⟩
      exact hP.orderly.mem_cells_of_isCell (hconns ▸ ho)
        (isCell_of_isSequential (hasKind_isSequential_of_isRegister hn'))
    rcases append_of_mem hmem with ⟨pre, post, hl⟩
    have hnot := not_mem_prefix (hP.orderly.nodup_cells.filter (s.2.hasKind isRegister)) hl
    -- the run comes to the register, which jams as it did at the start
    rw [hl, foldlM_append, bind_eq_ok] at hregisters
    rcases hregisters with ⟨s', hpre, hpost⟩
    rcases foldlM_cons_eq_ok.mp hpost with ⟨s'', hstep, -⟩
    have hP' := registerPhase hK hP (fun m hm => (mem_filter.mp (hl ▸ mem_append_left _ hm)).2) hpre
    have ho' : o ∈ s'.2.connsOf n := by rwa [hP'.keeps.connsOf hn hnot]
    have hn'' := hP'.keeps.evolves.keeps_kind hn
    have hlone := hP'.orderly.toTidy.loneCells hK n (hP'.orderly.mem_cells_of_isCell ho'
      (isCell_of_isSequential (hasKind_isSequential_of_isRegister hn'')))
      (hasKind_isSequential_of_isRegister hn'')
    rcases takeOverWith_eq_ok hstep with ⟨r, hr, -⟩
    exact not_takeOverRegister_of_jams hP'.orderly hlone ho'
      (hP'.keeps.evolves.keeps_output hout)
      ((hP'.keeps.jams hn hnot ho hout).mpr hj) ⟨r, hr⟩
  · intro hnone
    rcases ends_collapse hg.toPoised (fun t => by rw [hnothing]; rfl) with ⟨r, hr, -⟩ | ⟨e, -, n, h, hv, hb⟩
    · exact ⟨r, hr⟩
    exfalso
    cases hv with
    | @buffer pre post s hl hrun =>
      have hall : ∀ m ∈ pre ++ n :: post, g.hasKind (· = .triState) m := by
        intro m hm
        rw [← hl] at hm
        exact (mem_filter.mp hm).2
      have hP := bufferPhase hg hK hnothing (fun m hm => hall m (mem_append_left _ hm)) hrun
      have hn := hall n (by simp)
      exact hP.quiet.not_blocked hP.orderly.toSound
        (kindOf?_of_hasKind (hP.keeps.evolves.keeps_kind hn)) hb
    | @register pre post s s' hbuffers hl hrun =>
      have hB := bufferPhase hg hK hnothing (fun n hn => (mem_filter.mp hn).2) hbuffers
      have hP := hB.registerPhase hg
      have hall : ∀ m ∈ pre ++ n :: post, m ∈ s.2.cells ∧ s.2.hasKind isRegister m := by
        intro m hm
        rw [← hl] at hm
        exact mem_filter.mp hm
      have hnot := not_mem_prefix (hP.orderly.nodup_cells.filter (s.2.hasKind isRegister)) hl
      have hP' := registerPhase hK hP (fun m hm => (hall m (mem_append_left _ hm)).2) hrun
      have hsome := hg.cell_isSome (hB.cells n (hall n (by simp)).1)
      have hn : g.hasKind isRegister n := by
        rw [← hP.keeps.evolves.hasKind hsome]
        exact (hall n (by simp)).2
      rcases jams_of_blocked hP'.orderly hP'.idle ((hP'.keeps.evolves.hasKind hsome _).trans hn) hb with
        ⟨o, c, ho, hout, hj⟩
      rw [hP'.keeps.connsOf hn hnot] at ho
      rw [hP'.keeps.evolves.isOutput (hg.conn_isSome ho)] at hout
      exact hnone hn ho hout ((hP'.keeps.jams hn hnot ho hout).mp hj)

end Run

end Network

end PldSynth
