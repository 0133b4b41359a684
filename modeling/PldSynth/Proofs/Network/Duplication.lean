import PldSynth.Proofs.Network.Liveness
import PldSynth.Proofs.Network.Readers

/-!
# Copies of logic are read once

When a pin node is removed, each of its consumers gets a copy of the logic behind it. A gate of the
copy is read where the gate itself is read, by the copy of its reader, and the root of the copy is read
by the consumer; so copies share nothing (`CopyStep.unshared`). Retiring what nothing reads takes
readers away and adds none. So no live gate is read twice after any number of removals
(`unshared_expand`).
-/

namespace PldSynth.Network

open List Relation

variable {K : NodeKind → Bool} {g g' g1 g2 : Network} {n m pn : NodeId} {v : ConnId → Bool}
  {c d o x root out input : ConnId} {ns : List NodeId}
  {copies : List (NodeId × NodeId)} {consumer root' : ConnId}

/-! ## Nodes that go -/

theorem Retires.read_before (h : Retires K g g') (hg : g.Owned) (hr : g'.ReadAt o c n) :
    g.ReadAt o c n := by
  have hc := hr.mem
  rw [h.connsOf (h.tidy.inUse hc)] at hc
  have hs := hr.sink
  rw [h.evolves.isSink (hg.conn_isSome hc)] at hs
  exact ⟨hc, hs, (h.refsOf c).subset hr.refs⟩

theorem Retires.gateOutput_before (h : Retires K g g') (hg : g.Owned) (ho : g'.GateOutput o) :
    g.GateOutput o := by
  rcases ho with ⟨n, hn, hmem, hout⟩
  rw [h.connsOf (h.tidy.inUse hmem)] at hmem
  rw [hasKind, h.kindOf?] at hn
  rw [h.evolves.isOutput (hg.conn_isSome hmem)] at hout
  exact ⟨n, hn, hmem, hout⟩

theorem Retires.live_before (h : Retires K g g') (hg : g.Owned) (hlive : g'.Live o) : g.Live o := by
  have hkind : ∀ {P : NodeKind → Bool} {n}, g'.hasKind P n = g.hasKind P n :=
    hasKind_congr (h.kindOf? _)
  induction hlive with
  | leaves hl =>
    rcases hl with ⟨c, n, hr, hn⟩
    rw [hkind] at hn
    exact .leaves ⟨c, n, h.read_before hg hr, hn⟩
  | gate hr hn hp hout _ ih =>
    rw [h.connsOf (h.tidy.inUse hp)] at hp
    rw [h.evolves.isOutput (hg.conn_isSome hp)] at hout
    rw [hkind] at hn
    exact .gate (h.read_before hg hr) hn hp hout ih

/-- Retiring takes readers away and adds none. -/
theorem Retires.unshared (h : Retires K g g') (hg : g.Owned) (hu : g.Unshared) : g'.Unshared := by
  intro o ho hlive c c' n n' hr hr'
  exact hu (h.gateOutput_before hg ho) (h.live_before hg hlive) (h.read_before hg hr) (h.read_before hg hr')

/-! ## The logic behind a pin node -/

/-- What feeds a live output is live. -/
theorem Live.feeds (hlive : g.Live o) (hout : g.isOutput o) (hg : g.Tidy K) (h : g.Feeds d o) :
    g.Live d := by
  rcases h with ⟨n, -, ho, hd⟩
  rcases mem_driversAt.mp hd with ⟨c, hc, hs, hd⟩
  have hr : g.ReadAt d c n := ⟨hc, hs, mem_of_head? hd⟩
  rcases hg.isBoundary_or_isCombinational hc hs with hk | hk
  · exact .leaves ⟨c, n, hr, hk⟩
  · exact .gate hr hk ho hout hlive

/-- The nodes in `ns` hold all the logic behind `root`, and the gates among them are live. -/
structure Enclosed (g : Network) (root : ConnId) (ns : List NodeId) : Prop where
  nodup : ns.Nodup
  root_mem : ∀ {m}, root ∈ g.connsOf m → g.hasKind NodeKind.isLogic m = true → m ∈ ns
  closed : ∀ {n d m}, n ∈ ns → d ∈ g.driversAt n → d ∈ g.connsOf m →
    g.hasKind NodeKind.isLogic m = true → m ∈ ns
  live : ∀ {n o}, n ∈ ns → o ∈ g.connsOf n → g.GateOutput o → g.Live o

/-- The logic behind a pin node that can be removed is enclosed. -/
theorem IsCone.enclosed (h : g.IsCone root ns) (hg : g.Tidy K)
    (hK : ∀ k, k.isCombinational → K k) (hr : g.Removable pn input root out) : g.Enclosed root ns := by
  have hread : g.ReadAt root input pn := ⟨hr.input_mem, hr.input_sink, by simp [hr.driven]⟩
  have hroot : g.Live root := .leaves ⟨input, pn, hread, isBoundary_of_isNamed hr.named⟩
  have hrout : g.isOutput root := hg.output_of_sink hread.refs hr.input_sink
  -- the path leads from the node to the root, each output on it is a driver of the next
  have hpath : ∀ {o}, ReflTransGen g.Feeds o root → g.isOutput o ∧ g.Live o := by
    intro o ho
    induction ho using ReflTransGen.head_induction_on with
    | refl => exact ⟨hrout, hroot⟩
    | head hfeeds _ ih =>
      refine ⟨?_, ih.2.feeds ih.1 hg hfeeds⟩
      rcases hfeeds with ⟨m, -, -, hd⟩
      exact (hg.driver_spec hd).1
  refine ⟨h.nodup, h.root_mem, h.closed, fun {n o} hn ho hgate => ?_⟩
  rcases hgate with ⟨-, -, -, hout⟩
  rcases (h.behind n hn).output with ⟨o', ho', hfeeds⟩
  rcases hpath hfeeds with ⟨hout', hlive⟩
  have hlone := (hg.regularAt_of_isLogic hK (h.behind n hn).logic).lone
  rw [hlone ho ho' hout hout']
  exact hlive

/-! ## One copy -/

/-- Who reads an output after a copy: whoever read it before, the consumer that got the copy, or the
copy of a reader. -/
theorem Inlines.read_cases
    (h : Inlines copies root root' consumer g g1 g') (hg : g.Sound) (hr : g'.ReadAt o c n) :
    (c ≠ consumer ∧ g.ReadAt o c n) ∨ (c = consumer ∧ o = root') ∨
      ∃ c0 n0 d, n0 ∈ copies.map Prod.fst ∧ (c0, c) ∈ twinPairs copies g g1 ∧ g.ReadAt d c0 n0 ∧
        Image (twinPairs copies g g1) d o := by
  rcases hr with ⟨hmem, hs, hrefs⟩
  rcases h.mem_connsOf hmem with ⟨hc, -⟩ | ⟨p, hp, -, y, hz⟩
  · rw [h.evolves.isSink (hg.conn_isSome hc)] at hs
    by_cases hcc : c = consumer
    · rw [hcc, h.moved, mem_singleton] at hrefs
      exact .inr (.inl ⟨hcc, hrefs⟩)
    · rw [h.other hs hcc] at hrefs
      exact .inl ⟨hcc, hc, hs, hrefs⟩
  · have hq : (y, c) ∈ twinPairs copies g g1 := mem_flatMap.mpr ⟨p, hp, hz⟩
    rw [isSink, h.direction_twin hq] at hs
    rcases hg.eq_nil_or_singleton hs with hnil | ⟨d, hd⟩
    · rw [h.empty _ hq hs hnil] at hrefs
      cases hrefs
    · rcases h.wired _ hq hs d hd with ⟨d', himage, hd'⟩
      rw [hd', mem_singleton] at hrefs
      subst hrefs
      exact .inr (.inr ⟨y, p.1, d, mem_map.mpr ⟨p, hp, rfl⟩, hq,
        ⟨(of_mem_zip hz).1, hs, by simp [hd]⟩, himage⟩)

namespace CopyStep

variable (h : CopyStep K pn input root out ns g g')
include h

theorem root_read : g.ReadAt root input pn :=
  ⟨h.removable.input_mem, h.removable.input_sink, by simp [h.removable.driven]⟩

theorem connsOf_old (hn : (g.node? n).isSome) : g'.connsOf n = g.connsOf n := by
  rcases h.inlines with ⟨copies, root', consumer, g1, -, -, hi⟩
  exact hi.connsOf_old hn

theorem evolves : Evolves g g' := by
  rcases h.inlines with ⟨copies, root', consumer, g1, -, -, hi⟩
  exact hi.evolves

/-- A connection that was there stays on its node. -/
theorem mem_old (hc : (g.conn? c).isSome) (hmem : c ∈ g'.connsOf n) : c ∈ g.connsOf n := by
  rcases h.inlines with ⟨copies, root', consumer, g1, -, -, hi⟩
  rcases hi.mem_connsOf hmem with ⟨hc, -⟩ | ⟨p, hp, -, y, hz⟩
  · exact hc
  · have hq : (y, c) ∈ twinPairs copies g g1 := mem_flatMap.mpr ⟨p, hp, hz⟩
    exact absurd (mem_map.mpr ⟨_, hq, rfl⟩) (hi.copied.not_twin hc)

theorem gateOutput_old (hc : (g.conn? o).isSome) (ho : g'.GateOutput o) : g.GateOutput o := by
  rcases ho with ⟨n, hn, hmem, hout⟩
  have hmem := h.mem_old hc hmem
  rw [h.evolves.hasKind (isSome_of_mem_connsOf hmem)] at hn
  rw [h.evolves.isOutput hc] at hout
  exact ⟨n, hn, hmem, hout⟩

/-- What was read on another node than the pin node still is. -/
theorem read_after (hr : g.ReadAt o c n) (ho : o ∉ g.connsOf pn) : g'.ReadAt o c n := by
  rcases h.inlines with ⟨copies, root', consumer, g1, -, hcons, hi⟩
  have hcc : c ≠ consumer := by
    rintro rfl
    have hrefs := hr.refs
    rw [h.tidy.refsOf_consumer h.removable.out_output hcons, mem_singleton] at hrefs
    exact ho (hrefs ▸ h.removable.out_mem)
  refine ⟨?_, hi.evolves.keeps_sink hr.sink, ?_⟩
  · rw [hi.connsOf_old (isSome_of_mem_connsOf hr.mem)]
    exact hr.mem
  · rw [hi.other hr.sink hcc]
    exact hr.refs

variable (he : g.Enclosed root ns)
include he

/-- What reads a gate that was there is as before: a copy reads copies. -/
theorem read_iff (ho : g.GateOutput o) : g'.ReadAt o c n ↔ g.ReadAt o c n := by
  have hg := h.tidy.toSound
  constructor
  · intro hr
    rcases h.inlines with ⟨copies, root', consumer, g1, hkeys, -, hi⟩
    have hsome := ho.isSome
    rcases ho with ⟨m, hm, hom, hout⟩
    have hlogic := isLogic_of_isCombinational hm
    -- a gate of the logic has a twin, so nothing that was rewired reads the gate itself
    have hnot : ∀ {d}, m ∈ ns ∨ d ≠ o → ¬ Image (twinPairs copies g g1) d o := by
      rintro d hmd (hq | ⟨rfl, hq⟩)
      · exact hi.copied.not_twin hsome (mem_map.mpr ⟨_, hq, rfl⟩)
      · rcases mem_map.mp (hkeys.symm ▸ hmd.resolve_right (· rfl)) with ⟨p, hp, rfl⟩
        rcases hi.exists_twin hp hom with ⟨d', -, hq'⟩
        exact hq (mem_map.mpr ⟨_, hq', rfl⟩)
    rcases hi.read_cases hg hr with ⟨-, hr⟩ | ⟨-, rfl⟩ | ⟨c0, n0, d, hn0, -, hr0, himage⟩
    · exact hr
    · refine absurd hi.root_copy (hnot ?_)
      by_cases heq : root = o
      · exact .inl (he.root_mem (heq ▸ hom) hlogic)
      · exact .inr heq
    · refine absurd himage (hnot ?_)
      by_cases heq : d = o
      · have hdrv : d ∈ g.driversAt n0 :=
          mem_driversAt.mpr ⟨c0, hr0.mem, hr0.sink, by simp [hr0.refsOf_eq hg.toWired]⟩
        exact .inl (he.closed (hkeys ▸ hn0) hdrv (heq ▸ hom) hlogic)
      · exact .inr heq
  · intro hr
    have hpn := not_isCombinational_of_isBoundary (isBoundary_of_isNamed h.removable.named)
    exact h.read_after hr (ho.not_mem hg.toOwned hpn)

/-- A copy makes no gate that was there more or less live. -/
theorem live_iff (ho : g.GateOutput o) : g'.Live o ↔ g.Live o := by
  have hkind : ∀ {P o c n}, g.ReadAt o c n → g'.hasKind P n = g.hasKind P n := fun hr =>
    h.evolves.hasKind (isSome_of_mem_connsOf hr.mem) _
  constructor
  · intro hlive
    induction hlive with
    | leaves hl =>
      rcases hl with ⟨c, n, hr, hn⟩
      rw [h.read_iff he ho] at hr
      exact .leaves ⟨c, n, hr, hkind hr ▸ hn⟩
    | gate hr hn hp hout _ ih =>
      rw [h.read_iff he ho] at hr
      rw [hkind hr] at hn
      rw [h.connsOf_old (isSome_of_mem_connsOf hr.mem)] at hp
      rw [h.evolves.isOutput (h.tidy.conn_isSome hp)] at hout
      exact .gate hr hn hp hout (ih ⟨_, hn, hp, hout⟩)
  · intro hlive
    induction hlive with
    | leaves hl =>
      rcases hl with ⟨c, n, hr, hn⟩
      exact .leaves ⟨c, n, (h.read_iff he ho).mpr hr, (hkind hr).trans hn⟩
    | gate hr hn hp hout _ ih =>
      refine .gate ((h.read_iff he ho).mpr hr) ((hkind hr).trans hn) ?_ ?_ (ih ⟨_, hn, hp, hout⟩)
      · rwa [h.connsOf_old (isSome_of_mem_connsOf hp)]
      · exact h.evolves.keeps_output hout

/-- The logic itself is as before: the consumer does not belong to it. -/
theorem enclosed : g'.Enclosed root ns := by
  have hold : ∀ {n}, n ∈ ns → g'.connsOf n = g.connsOf n := fun hn =>
    h.connsOf_old (isSome_of_hasKind (h.logic _ hn))
  have hlogic : ∀ {m d}, d ∈ g.connsOf m → g'.hasKind NodeKind.isLogic m →
      g.hasKind NodeKind.isLogic m := fun hd hm =>
    (h.evolves.hasKind (isSome_of_mem_connsOf hd) _).symm.trans hm
  refine ⟨he.nodup, fun {m} hm hk => ?_, fun {n d m} hn hd hm hk => ?_, fun {n o} hn ho hgate => ?_⟩
  · have hm := h.mem_old (isSome_of_mem_refsOf (h.tidy.mirror h.root_read.refs)) hm
    exact he.root_mem hm (hlogic hm hk)
  · rcases mem_driversAt.mp hd with ⟨c, hc, hs, hdc⟩
    rcases h.inlines with ⟨copies, root', consumer, g1, -, hcons, hi⟩
    rw [hold hn] at hc
    rw [h.evolves.isSink (h.tidy.conn_isSome hc)] at hs
    have hcc : c ≠ consumer := by
      rintro rfl
      exact h.separate.apart n hn c hc hs out (h.tidy.mirror hcons) (h.tidy.owner h.removable.out_mem)
    rw [hi.other hs hcc] at hdc
    have hm := h.mem_old (isSome_of_mem_refsOf (h.tidy.mirror (mem_of_head? hdc))) hm
    exact he.closed hn (mem_driversAt.mpr ⟨c, hc, hs, hdc⟩) hm (hlogic hm hk)
  · rw [hold hn] at ho
    have hgate := h.gateOutput_old (h.tidy.conn_isSome ho) hgate
    exact (h.live_iff he hgate).mpr (he.live hn ho hgate)

/-- A copy of a gate is read by the copy of its reader, or by the consumer. -/
theorem soleAt_copy {y : ConnId} (hu : g.Unshared) (hkeys : copies.map Prod.fst = ns)
    (hi : Inlines copies root root' consumer g g1 g') (hq : (y, o) ∈ twinPairs copies g g1)
    (hgate : g.GateOutput y) : g'.SoleAt o := by
  have hg := h.tidy.toSound
  rcases hi.copied.mem_twinPairs hq with ⟨p, hp, hyp, -, -⟩
  have hsole : g.SoleAt y := hu hgate (he.live (hkeys ▸ mem_map.mpr ⟨p, hp, rfl⟩) hyp hgate)
  have hnew : o ∉ (twinPairs copies g g1).map Prod.snd → False := (· (mem_map.mpr ⟨_, hq, rfl⟩))
  -- what the new connection `o` stands for is `y` alone
  have hof : ∀ {d}, (g.conn? d).isSome → Image (twinPairs copies g g1) d o → d = y := by
    rintro d hsome (hd | ⟨rfl, -⟩)
    · exact congrArg Prod.fst (hi.copied.eq_of_twins hd hq rfl)
    · exact (hnew (hi.copied.not_twin hsome)).elim
  have hreader : ∀ {c n}, g'.ReadAt o c n → (c = consumer ∧ root = y) ∨
      ∃ c0 n0, n0 ∈ ns ∧ (c0, c) ∈ twinPairs copies g g1 ∧ g.ReadAt y c0 n0 := by
    intro c n hr
    rcases hi.read_cases hg hr with ⟨-, hr⟩ | ⟨rfl, rfl⟩ | ⟨c0, n0, d, hn0, hc0, hr0, himage⟩
    · exact (hnew (hi.copied.not_twin (isSome_of_mem_refsOf (hg.mirror hr.refs)))).elim
    · exact .inl ⟨rfl, hof (isSome_of_mem_refsOf (hg.mirror h.root_read.refs)) hi.root_copy⟩
    · obtain rfl := hof (isSome_of_mem_refsOf (hg.mirror hr0.refs)) himage
      exact .inr ⟨c0, n0, hkeys ▸ hn0, hc0, hr0⟩
  -- the pin node alone reads the root, so no copy of a reader reads the copy of the root
  have hroot : ∀ {c0 n0}, root = y → n0 ∈ ns → ¬ g.ReadAt y c0 n0 := by
    rintro c0 n0 rfl hn0 hr0
    obtain rfl := hsole hr0 h.root_read
    rcases hasKind_iff.mp (h.logic n0 hn0) with ⟨k, hk, hl⟩
    rw [hg.eq_of_mem hr0.mem h.removable.input_mem, h.removable.kind] at hk
    cases hk
    cases hl
  intro c c' n n' hr hr'
  rcases hreader hr with ⟨rfl, hry⟩ | ⟨c0, n0, hn0, hc0, hr0⟩
  · rcases hreader hr' with ⟨rfl, -⟩ | ⟨c0, n0, hn0, -, hr0⟩
    · rfl
    · exact absurd hr0 (hroot hry hn0)
  · rcases hreader hr' with ⟨-, hry⟩ | ⟨c1, n1, hn1, hc1, hr1⟩
    · exact absurd hr0 (hroot hry hn0)
    · have heq := hi.copied.eq_of_origins hg.toOwned (hkeys ▸ he.nodup) hc0 hc1 (hsole hr0 hr1)
      exact congrArg Prod.snd heq

/-- No live gate comes to be shared. -/
theorem unshared (hu : g.Unshared) : g'.Unshared := by
  intro o ho hlive
  by_cases hsome : (g.conn? o).isSome
  · have hold := h.gateOutput_old hsome ho
    intro c c' n n' hr hr'
    rw [h.read_iff he hold] at hr hr'
    exact hu hold ((h.live_iff he hold).mp hlive) hr hr'
  · rcases h.inlines with ⟨copies, root', consumer, g1, hkeys, -, hi⟩
    rcases ho with ⟨m, hm, hom, hout⟩
    rcases hi.mem_connsOf hom with ⟨hc, -⟩ | ⟨p, hp, rfl, y, hz⟩
    · exact absurd (h.tidy.conn_isSome hc) hsome
    · have hq : (y, o) ∈ twinPairs copies g g1 := mem_flatMap.mpr ⟨p, hp, hz⟩
      refine h.soleAt_copy he hu hkeys hi hq ⟨p.1, ?_, (of_mem_zip hz).1, ?_⟩
      · rwa [hasKind, hi.kindOf?_copy hp] at hm
      · rwa [isOutput, hi.direction_twin hq] at hout

end CopyStep

theorem CopyStep.unshared_run (h : ReflTransGen (CopyStep K pn input root out ns) g g')
    (he : g.Enclosed root ns) (hu : g.Unshared) : g'.Unshared := by
  have hrun : g'.Enclosed root ns ∧ g'.Unshared := by
    induction h with
    | refl => exact ⟨he, hu⟩
    | tail _ hstep ih => exact ⟨hstep.enclosed ih.1, hstep.unshared ih.1 ih.2⟩
  exact hrun.2

/-! ## All copies -/

theorem Removal.unshared (h : Removal K pn input root out ns g g1 g2 g') (hg : g.Tidy K)
    (hK : ∀ k, k.isCombinational → K k) (hu : g.Unshared) : g'.Unshared := by
  have hcopied := CopyStep.unshared_run h.copies (h.cone.enclosed hg hK h.removable) hu
  have hretired := h.retires.unshared h.tidy1.toOwned hcopied
  exact (retireSteps_retires h.retires.tidy h.clears).unshared h.retires.tidy.toOwned hretired

/-- Keeping within the budget makes no live gate shared. -/
theorem unshared_expand {limit : Option Nat} {r : Bool × Network} (hg : g.Tidy K)
    (hK : ∀ k, k.isCombinational → K k) (hset : g.Settled v) (hu : g.Unshared)
    (h : expand limit g = .ok r) : r.2.Unshared := by
  refine expand_keeps hg hK hset h (fun hs hstep => ?_) hu
  rcases hstep.removal with ⟨pn, input, root, out, ns, g1, g2, g3, -, hrem, htop⟩
  rcases hrem.unfolds with ⟨origin, hun⟩
  exact (retires_rebuildTop hun.tidy htop).unshared hun.tidy.toOwned (hrem.unshared hstep.tidy hK hs)

end PldSynth.Network
