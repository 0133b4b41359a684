import PldSynth.Proofs.Network.Cycle
import PldSynth.Proofs.Network.Merging
import PldSynth.Proofs.Network.Supply
import PldSynth.Proofs.Network.Unfolding

/-!
# Keeping within the pin-node budget

A pin node that took over nothing repeats its driver, and nothing depends on itself; so the logic
behind the pin node does not read it (`Removable.apart`), each of its consumers can have a copy of
that logic, and the pin node and the logic can go once nothing reads them. All values stay
(`unfolds_expand`).
-/

namespace PldSynth

open Attempt List
open PldSynth.NodeKind (isLogic isNamed)

theorem NodeKind.isLogic_of_not_isBoundary {k : NodeKind} (h : k.isBoundary = false)
    (hk : k ≠ .unknown) : k.isLogic := by
  cases k <;> first | rfl | exact absurd rfl hk | cases h

theorem NodeKind.isBoundary_of_isLogic {k : NodeKind} (h : k.isLogic) : k.isBoundary = false := by
  cases k <;> first | rfl | cases h

namespace Network

open Relation

variable {K : NodeKind → Bool} {g g' : Network} {n m pn : NodeId} {v : ConnId → Bool}
  {c d o x root out input : ConnId} {more : List ConnId} {ds : List ConnId}
  {copies : List (NodeId × NodeId)} {root' consumer : ConnId} {r : Bool × Network}
  {cone cone' : Cone} {ns : List NodeId} {rest : List ConnId} {g1 : Network} {bound limit : Nat}

/-! ## The logic behind an output -/

/-- The node belongs to the logic behind `root`. -/
structure Behind (g : Network) (root : ConnId) (n : NodeId) : Prop where
  logic : g.hasKind isLogic n = true
  output : ∃ o ∈ g.connsOf n, ReflTransGen g.Feeds o root

/-- What waits while the logic is walked: outputs on which `root` depends. -/
def Ahead (g : Network) (root o : ConnId) : Prop :=
  (∃ n, o ∈ g.connsOf n) ∧ ReflTransGen g.Feeds o root

theorem Tidy.regularAt_of_isLogic (hg : g.Tidy K) (hK : ∀ k, k.isCombinational → K k)
    (hn : g.hasKind isLogic n) : g.RegularAt n := by
  obtain ⟨k, hk, hl⟩ := hasKind_iff.mp hn
  apply hg.regular
  refine hasKind_iff.mpr ⟨k, hk, ?_⟩
  rw [isLogic, Bool.or_eq_true] at hl
  rcases hl with hl | hl
  · simp [hK k hl]
  · simp [hl]

/-- Logic that can be driven is a gate. -/
theorem Tidy.isDerived_of_isLogic (hg : g.Tidy K) (hn : g.hasKind isLogic n) (hc : c ∈ g.connsOf n)
    (hs : g.isSink c) : g.isDerived n := by
  obtain ⟨k, hk, hl⟩ := hasKind_iff.mp hn
  rw [isLogic, Bool.or_eq_true] at hl
  rcases hl with hl | hl
  · simp [isDerived, hasKind, hk, hl]
  · rw [decide_eq_true_eq] at hl
    subst hl
    rw [(hg.regular (hasKind_of hk (by simp))).silent hk hc] at hs
    cases hs

/-- One step of the walk: the node of the output is no logic or was found before, or it joins the logic
and brings up what drives its inputs. -/
theorem coneStep_cases (hg : g.Owned) (hn : o ∈ g.connsOf n)
    (hrun : g.coneStep cone o = .ok (cone', more)) :
    (cone'.inner = cone.inner ∧ cone'.seen = cone.seen ∧ more = [] ∧
      (g.hasKind isLogic n → cone.seen.isNew n = false)) ∨ (g.hasKind isLogic n ∧ cone.seen.isNew n ∧
      cone' = { cone with inner := cone.inner ++ [n], seen := cone.seen.insert n } ∧
      g.driversOf ((g.connsOf n).filter g.isInput) = .ok more) := by
  simp only [coneStep, bind_eq_ok, owner_eq_ok, hg.owner hn, nodeKind_eq_ok] at hrun
  obtain ⟨n', hn', k, hk, hrun⟩ := hrun
  obtain rfl := Option.some.inj hn'
  split at hrun
  · rename_i hbound
    cases hrun
    refine .inl ⟨rfl, rfl, rfl, fun hl => ?_⟩
    obtain ⟨k', hk', hl⟩ := hasKind_iff.mp hl
    obtain rfl := Option.mem_unique hk hk'
    simp [NodeKind.isBoundary_of_isLogic hl] at hbound
  rename_i hbound
  split at hrun
  · rename_i hnew
    cases hrun
    exact .inl ⟨rfl, rfl, rfl, fun _ => by simpa using hnew⟩
  rename_i hnew
  simp only [Bool.not_eq_true', Bool.not_eq_false] at hnew
  simp only [bind_eq_ok, pure_eq_ok, inputs_eq_ok, Prod.mk.injEq] at hrun
  obtain ⟨cs, ⟨-, rfl⟩, ds, hds, rfl, rfl⟩ := hrun
  refine .inr ⟨hasKind_iff.mpr ⟨k, hk, ?_⟩, hnew, rfl, hds⟩
  exact NodeKind.isLogic_of_not_isBoundary (by simpa using hbound)
    (hg.kind_ne_unknown (hg.inUse hn) hk)

theorem mem_driversAt_of_inputs
    (hds : g.driversOf ((g.connsOf n).filter g.isInput) = .ok ds) (hd : d ∈ ds) : d ∈ g.driversAt n := by
  rw [driversOf_eq_ok hds, mem_filterMap] at hd
  obtain ⟨c, hc, hd⟩ := hd
  obtain ⟨hc, hin⟩ := mem_filter.mp hc
  exact mem_driversAt.mpr ⟨c, hc, isSink_of_isInput hin, hd⟩

theorem Ahead.step (hg : g.Tidy K) (ho : g.Ahead root o)
    (hrun : g.coneStep cone o = .ok (cone', more)) : ∀ d ∈ more, g.Ahead root d := by
  obtain ⟨⟨n, hn⟩, hfeeds⟩ := ho
  intro d hd
  rcases coneStep_cases hg.toOwned hn hrun with ⟨-, -, rfl, -⟩ | ⟨hlogic, -, -, hds⟩
  · cases hd
  · have hdrv := mem_driversAt_of_inputs hds hd
    obtain ⟨c, hc, hs, -⟩ := mem_driversAt.mp hdrv
    exact ⟨(hg.driver_spec hdrv).2, .head ⟨n, hg.isDerived_of_isLogic hlogic hc hs, hn, hdrv⟩ hfeeds⟩

/-- What is found is logic that `root` depends on. -/
theorem behind_coneOf (hg : g.Tidy K) (hroot : ∃ n, root ∈ g.connsOf n)
    (h : g.coneOf root = .ok cone) : ∀ n ∈ cone.inner, g.Behind root n := by
  refine Attempt.drain_invariant (P := fun cone : Cone => ∀ n ∈ cone.inner, g.Behind root n)
    (I := fun _ o => g.Ahead root o) ?_ (by simp) ?_ h
  · intro cone o cone' more hbehind ho hstep
    refine ⟨?_, ho.step hg hstep, fun _ hy => hy⟩
    obtain ⟨⟨n, hn⟩, hfeeds⟩ := ho
    rcases coneStep_cases hg.toOwned hn hstep with ⟨hinner, -⟩ | ⟨hlogic, -, rfl, -⟩
    · rw [hinner]
      exact hbehind
    · exact forall_mem_snoc hbehind ⟨hlogic, o, hn, hfeeds⟩
  · intro o ho
    obtain rfl := mem_singleton.mp ho
    exact ⟨hroot, .refl⟩

/-- The nodes in `ns` are the logic behind `root`: whatever of it can be reached is there. -/
structure IsCone (g : Network) (root : ConnId) (ns : List NodeId) : Prop where
  nodup : ns.Nodup
  behind : ∀ n ∈ ns, g.Behind root n
  root_mem : ∀ {m}, root ∈ g.connsOf m → g.hasKind isLogic m = true → m ∈ ns
  closed : ∀ {n d m}, n ∈ ns → d ∈ g.driversAt n → d ∈ g.connsOf m →
    g.hasKind isLogic m = true → m ∈ ns

/-- The output `d` waits, or its node is in `ns` if it belongs to the logic at all. -/
def Met (g : Network) (ns : List NodeId) (items : List ConnId) (d : ConnId) : Prop :=
  d ∈ items ∨ ∀ m, d ∈ g.connsOf m → g.hasKind isLogic m = true → m ∈ ns

/-- What holds while the logic is walked: the drivers of what was found wait or were met. -/
structure Explores (g : Network) (root : ConnId) (cone : Cone) (items : List ConnId) : Prop where
  nodup : cone.inner.Nodup
  seen : ∀ {n}, (g.node? n).isSome → (cone.seen.isNew n = false ↔ n ∈ cone.inner)
  listed : ∀ o ∈ items, ∃ n, o ∈ g.connsOf n
  root_met : g.Met cone.inner items root
  met : ∀ n ∈ cone.inner, ∀ d ∈ g.driversAt n, g.Met cone.inner items d

theorem Met.mono {ns' : List NodeId} {items items' : List ConnId} (h : g.Met ns items d)
    (hns : ∀ n ∈ ns, n ∈ ns') (hitems : d ∈ items → g.Met ns' items' d) : g.Met ns' items' d := by
  rcases h with hwait | hin
  · exact hitems hwait
  · exact .inr fun m hm hl => hns m (hin m hm hl)

/-- The node of the first item ends the logic or was found before. -/
theorem Explores.skip (h : Explores g root cone (o :: rest))
    (ho : ∀ m, o ∈ g.connsOf m → g.hasKind isLogic m → m ∈ cone.inner) (hinner : cone'.inner = cone.inner)
    (hseen : cone'.seen = cone.seen) : Explores g root cone' rest := by
  have hmet : ∀ {d}, g.Met cone.inner (o :: rest) d → g.Met cone.inner rest d := by
    intro d hd
    refine hd.mono (fun _ hn => hn) fun hwait => ?_
    rcases mem_cons.mp hwait with rfl | hwait
    · exact .inr ho
    · exact .inl hwait
  constructor
  · rw [hinner]
    exact h.nodup
  · intro n hn
    rw [hinner, hseen]
    exact h.seen hn
  · exact fun x hx => h.listed x (mem_cons_of_mem o hx)
  · rw [hinner]
    exact hmet h.root_met
  · rw [hinner]
    exact fun n hn d hd => hmet (h.met n hn d hd)

/-- The node of the first item joins the logic, and its drivers come next. -/
theorem Explores.join {more : List ConnId} (h : Explores g root cone (o :: rest))
    (hg : g.Sound) (hn : o ∈ g.connsOf n) (hnew : n ∉ cone.inner)
    (hmore : ∀ d, d ∈ more ↔ d ∈ g.driversAt n) :
    Explores g root { cone with inner := cone.inner ++ [n], seen := cone.seen.insert n }
      (more ++ rest) := by
  have hold : ∀ m ∈ cone.inner, m ∈ cone.inner ++ [n] := fun m hm => mem_append_left _ hm
  have hmet : ∀ {d}, g.Met cone.inner (o :: rest) d → g.Met (cone.inner ++ [n]) (more ++ rest) d := by
    intro d hd
    refine hd.mono hold fun hwait => ?_
    rcases mem_cons.mp hwait with rfl | hwait
    · -- the item itself belongs to the node that joins
      refine .inr fun m hm _ => ?_
      rw [hg.eq_of_mem hm hn]
      simp
    · exact .inl (mem_append_right _ hwait)
  constructor
  · refine nodup_append.mpr ⟨h.nodup, nodup_singleton n, ?_⟩
    rintro a ha b hb rfl
    exact hnew (mem_singleton.mp hb ▸ ha)
  · intro m hm
    by_cases hmn : m = n
    · subst hmn
      simp [NodeSet.isNew_insert_self]
    · rw [NodeSet.isNew_insert_of_ne hmn, h.seen hm]
      simp [hmn]
  · intro x hx
    rcases mem_append.mp hx with hx | hx
    · exact (hg.driver_spec ((hmore x).mp hx)).2
    · exact h.listed x (mem_cons_of_mem o hx)
  · exact hmet h.root_met
  · intro m hm d hd
    rcases mem_append.mp hm with hm | hm
    · exact hmet (h.met m hm d hd)
    · rw [mem_singleton.mp hm] at hd
      exact .inl (mem_append_left _ ((hmore d).mpr hd))

/-- What a node of the logic brings up are all its drivers. -/
theorem Tidy.mem_driversOf_inputs (hg : g.Tidy K) (hK : ∀ k, k.isCombinational → K k)
    (hlogic : g.hasKind isLogic n)
    (hds : g.driversOf ((g.connsOf n).filter g.isInput) = .ok ds) : d ∈ ds ↔ d ∈ g.driversAt n := by
  obtain ⟨k, hk, hl⟩ := hasKind_iff.mp hlogic
  have hplain := (hg.regularAt_of_isLogic hK hlogic).plain (by
    rw [hk]
    rintro ⟨⟩
    cases hl)
  refine ⟨mem_driversAt_of_inputs hds, fun hd => ?_⟩
  obtain ⟨c, hc, hs, hd⟩ := mem_driversAt.mp hd
  rw [driversOf_eq_ok hds, mem_filterMap]
  rcases hplain hc with hin | hout
  · exact ⟨c, mem_filter.mpr ⟨hc, hin⟩, hd⟩
  · rw [not_isSink_of_isOutput hout] at hs
    cases hs

/-- One step of the walk over the logic, which comes closer to its end. -/
theorem coneStep_spec (hg : g.Tidy K) (hK : ∀ k, k.isCombinational → K k)
    {more : List ConnId} (h : Explores g root cone (o :: rest))
    (hrun : g.coneStep cone o = .ok (cone', more)) : Explores g root cone' (more ++ rest) ∧
      more.length + cone'.seen.supply (fun n => (g.connsOf n).length) <
        1 + cone.seen.supply fun n => (g.connsOf n).length := by
  obtain ⟨n, hn⟩ := h.listed o mem_cons_self
  have hseen := h.seen (isSome_of_mem_connsOf hn)
  rcases coneStep_cases hg.toOwned hn hrun with ⟨hinner, hseen', rfl, hold⟩ | ⟨hlogic, hnew, rfl, hds⟩
  · refine ⟨h.skip (fun m hm hl => ?_) hinner hseen', by simp [hseen']⟩
    rw [hg.eq_of_mem hm hn] at hl ⊢
    exact hseen.mp (hold hl)
  · refine ⟨h.join hg.toSound hn ?_ fun d => hg.mem_driversOf_inputs hK hlogic hds, ?_⟩
    · rw [← hseen, hnew]
      nofun
    · -- a node brings up no more than it has connections
      have hsupply := NodeSet.supply_insert (w := fun n => (g.connsOf n).length) hnew
      have hlen : more.length ≤ (g.connsOf n).length := by
        rw [driversOf_eq_ok hds]
        exact (length_filterMap_le _ _).trans (length_filter_le _ _)
      change more.length + (cone.seen.insert n).supply _ < _
      omega

/-- What the walk has found is the logic behind the output. -/
theorem isCone_coneOf (hg : g.Tidy K) (hK : ∀ k, k.isCombinational → K k)
    (hroot : ∃ n, root ∈ g.connsOf n) (h : g.coneOf root = .ok cone) : g.IsCone root cone.inner := by
  have hall : Explores g root cone [] := by
    refine drain_exhaust (fun _ => 1)
      (fun cone : Cone => cone.seen.supply fun n => (g.connsOf n).length) (fun _ => Nat.one_pos)
      (fun hE hstep => ?_) ?_ ?_ h
    · simpa using coneStep_spec hg hK hE hstep
    · refine ⟨nodup_nil, fun {n} hn => ?_, ?_, .inl mem_cons_self, nofun⟩
      · simp [NodeSet.isNew_empty, node?_isSome.mp hn]
      · intro o ho
        obtain rfl := mem_singleton.mp ho
        exact hroot
    · simp [supply_empty]
  refine ⟨hall.nodup, behind_coneOf hg hroot h, fun hm hl => ?_, fun hn hd hm hl => ?_⟩
  · exact hall.root_met.resolve_left not_mem_nil _ hm hl
  · exact (hall.met _ hn _ hd).resolve_left not_mem_nil _ hm hl

theorem not_transGen_feeds (h : Acc g.Feeds o) : ¬ TransGen g.Feeds o o := by
  have hacc := h.transGen
  clear h
  induction hacc with
  | intro o _ ih => exact fun hoo => ih o hoo hoo

/-! ## A pin node that can go -/

/-- A pin node that took over nothing and is driven by `root` at its one input. -/
structure Removable (g : Network) (pn : NodeId) (input root out : ConnId) : Prop where
  kind : g.kindOf? pn = some .pinNode
  nothing : g.absorbedOf pn = .nothing
  input_mem : input ∈ g.connsOf pn
  input_sink : g.isSink input = true
  sole : ∀ c ∈ g.connsOf pn, g.isSink c = true → c = input
  driven : g.refsOf input = [root]
  out_mem : out ∈ g.connsOf pn
  out_output : g.isOutput out = true

namespace Removable

variable (h : g.Removable pn input root out)
include h

theorem named : g.hasKind isNamed pn :=
  hasKind_of h.kind rfl

theorem derived (hg : g.Owned) : g.isDerived pn ∧ g.driversAt pn = [root] :=
  driversAt_of_sole (hg.nodup_conns pn) h.named h.nothing h.input_mem h.input_sink h.sole h.driven

theorem repeats (hg : g.Owned) : g.Repeats root out :=
  ⟨pn, (h.derived hg).1, h.named, h.out_mem, h.out_output, (h.derived hg).2⟩

/-- The logic behind a pin node does not read the pin node, since nothing depends on itself. -/
theorem apart (hg : g.Tidy K) (hset : g.Settled v) (hns : ∀ n ∈ ns, g.Behind root n) : Apart pn ns g := by
  intro n hn c hc hs d hd hown
  obtain ⟨o, ho, hfeeds⟩ := (hns n hn).output
  have hdrv : d ∈ g.driversAt n :=
    mem_driversAt.mpr ⟨c, hc, hs, by simp [hg.refsOf_eq_singleton hs hd]⟩
  have hdo : g.Feeds d o := ⟨n, hg.isDerived_of_isLogic (hns n hn).logic hc hs, ho, hdrv⟩
  obtain ⟨m, hm⟩ := hg.listed (hg.mirror hd)
  obtain rfl : m = pn := Option.mem_unique (hg.owner hm) hown
  have hrd : g.Feeds root d :=
    ⟨m, (h.derived hg.toOwned).1, hm, by simp [(h.derived hg.toOwned).2]⟩
  -- the pin node would depend on itself
  obtain ⟨b, hb⟩ := hset hs hd
  exact not_transGen_feeds (hb.acc hg.toOwned) ((TransGen.head' hdo hfeeds).tail hrd)

theorem separate (hg : g.Tidy K) (hK : ∀ k, k.isCombinational → K k) (hset : g.Settled v)
    (hns : ∀ n ∈ ns, g.Behind root n) : Separate pn ns g where
  lone n hn := (hg.regularAt_of_isLogic hK (hns n hn).logic).lone
  apart := h.apart hg hset hns

/-- Giving one consumer its own copy leaves the pin node as it is. -/
theorem splices (hg : g.Sound) (hi : Splices copies root root' consumer g g1 g')
    (hwas : g.refsOf consumer = [out]) (hne : root ≠ out) : g'.Removable pn input root out := by
  have hs := isSome_of_kindOf? h.kind
  have hconns := hi.connsOf_old hs
  refine ⟨(hi.kindOf?_old hs).trans h.kind, ?_, hconns ▸ h.input_mem, ?_, ?_, ?_, hconns ▸ h.out_mem, ?_⟩
  · rw [absorbedOf, hi.node?_old hs]
    exact h.nothing
  · exact hi.evolves.keeps_sink h.input_sink
  · intro c hc hcs
    rw [hconns] at hc
    rw [hi.evolves.isSink (hg.conn_isSome hc)] at hcs
    exact h.sole c hc hcs
  · have hic : input ≠ consumer := by
      rintro rfl
      exact hne (by simpa using h.driven.symm.trans hwas)
    rw [hi.other h.input_sink hic, h.driven]
  · exact hi.evolves.keeps_output h.out_output

end Removable

/-! ## Removing it -/

/-- Taking nodes out of use copies nothing. -/
theorem Retires.unfolds (h : Retires K g g') : Unfolds K id g g' where
  tidy := h.tidy
  fresh := h.fresh
  evolves := h.evolves
  preserves hset := h.preserves hset
  old _ := rfl
  literal {n c} hc := by
    have hu := h.tidy.inUse hc
    have hc' : c ∈ g.connsOf n := h.connsOf hu ▸ hc
    exact ⟨n, hc', h.kindOf? n, h.evolves.constant (isSome_of_mem_connsOf hc')⟩
  connsOf _ hu := h.connsOf hu
  absorbedOf _ := h.absorbedOf _
  undriven {_ c} _ _ hr := by
    have := h.refsOf c
    rw [hr] at this
    exact sublist_nil.mp this
  pins := h.pins
  pinNodes := h.pinNodes
  sequential hk := ⟨fun hn => h.cells.subset hn, fun hn => h.sequential hk hn⟩
  logic {n} hn := by
    rw [hasKind, h.kindOf?, kindOf?_def, hn]
    rfl

/-- One consumer of the pin node gets a copy of the logic `ns`, which does not read the pin node. -/
structure CopyStep (K : NodeKind → Bool) (pn : NodeId) (input root out : ConnId) (ns : List NodeId)
    (g g' : Network) : Prop where
  tidy : g.Tidy K
  removable : g.Removable pn input root out
  separate : Separate pn ns g
  logic : ∀ n ∈ ns, g.hasKind isLogic n = true
  ne : root ≠ out
  inlines : ∃ copies root' consumer g1, copies.map Prod.fst = ns ∧ consumer ∈ g.refsOf out ∧
    Inlines copies root root' consumer g g1 g'

/-- What holds while the consumers of the pin node get their copies: those in `pre` no longer read
it. -/
structure Inlined (K : NodeKind → Bool) (pn : NodeId) (input root out : ConnId) (ns : List NodeId)
    (g : Network) (pre : List ConnId) (g' : Network) : Prop where
  unfolds : ∃ origin, Unfolds K origin g g'
  run : ReflTransGen (CopyStep K pn input root out ns) g g'
  removable : g'.Removable pn input root out
  separate : Separate pn ns g'
  readers : ∀ {x}, x ∈ g'.refsOf out ↔ x ∈ g.refsOf out ∧ x ∉ pre

theorem Splices.ownerOf?_old (h : Splices copies root root' consumer g g1 g')
    (hc : (g.conn? c).isSome) : g'.ownerOf? c = g.ownerOf? c := by
  obtain ⟨f, hf⟩ := h.rewires
  rw [hf.ownerOf?, ownerOf?_def, h.copied.conn? hc, ← ownerOf?_def]

/-- A copy reads other copies or what was there before. -/
theorem Echoes.new_or_eq {d' : ConnId} (h : Echoes copies g g' d d') (hc : Copies copies g g') :
    g.conn? d' = none ∨ d' = d := by
  rcases h with ⟨p, hp, -, hd', -⟩ | ⟨rfl, -⟩
  · rw [← hc.map_snd_zip_twins hp, mem_map] at hd'
    obtain ⟨q, hq, rfl⟩ := hd'
    exact .inl (forall₂_zip (hc.twins p hp) hq).new
  · exact .inr rfl

/-- The copies do not read the pin node, so it loses one consumer. -/
theorem Splices.readers (h : Splices copies root root' consumer g g1 g') (hg : g.Sound)
    (hsep : Apart pn (copies.map Prod.fst) g) (hpn : out ∈ g.connsOf pn)
    (hout : g.isOutput out) (hne : root ≠ out) : x ∈ g'.refsOf out ↔ x ∈ g.refsOf out ∧ x ≠ consumer := by
  have hos := isSome_of_isOutput hout
  have hout' : g'.isOutput out := (h.evolves.isOutput hos).trans hout
  constructor
  · intro hx
    have hback := h.sound.mirror hx
    obtain ⟨m, hm⟩ := h.sound.listed hback
    rcases h.read_cases hg hm (h.sound.sink_of_output hx hout') hback with
      ⟨-, hxc, -, hread⟩ | ⟨-, -, hr⟩ | ⟨p, hp, -, y, d, hy, hys, hd, hecho⟩
    · exact ⟨hg.mirror hread, hxc⟩
    · -- the consumer reads the root or its copy now, and neither is the pin node
      rcases h.root_echo.new_or_eq h.copied with hnew | heq
      · simp [hr, hnew] at hos
      · exact absurd (heq.symm.trans hr.symm) hne
    · -- a copy that reads the pin node would be the copy of logic that reads it
      rcases hecho.new_or_eq h.copied with hnew | rfl
      · simp [hnew] at hos
      · exact absurd (hg.owner hpn) (hsep p.1 (mem_map.mpr ⟨p, hp, rfl⟩) y hy hys out hd)
  · rintro ⟨hx, hxc⟩
    have hxs := hg.sink_of_output hx hout
    apply h.sound.mirror
    rw [h.other hxs hxc]
    exact hg.mirror hx

theorem Splices.apart (h : Splices copies root root' consumer g g1 g')
    (hg : g.Sound) (hsep : Apart pn ns g) (hns : ∀ n ∈ ns, (g.node? n).isSome) (hpn : out ∈ g.connsOf pn)
    (hwas : g.refsOf consumer = [out]) : Apart pn ns g' := by
  intro n hn c hc hs d hd
  rw [h.connsOf_old (hns n hn)] at hc
  rw [h.evolves.isSink (hg.conn_isSome hc)] at hs
  have hne : c ≠ consumer := by
    rintro rfl
    exact hsep n hn c hc hs out (by simp [hwas]) (hg.owner hpn)
  rw [h.other hs hne] at hd
  rw [h.ownerOf?_old (hg.ref_isSome hd)]
  exact hsep n hn c hc hs d hd

theorem Splices.separate (h : Splices copies root root' consumer g g1 g') (hg : g.Sound)
    (hsep : Separate pn ns g) (hns : ∀ n ∈ ns, (g.node? n).isSome) (hpn : out ∈ g.connsOf pn)
    (hwas : g.refsOf consumer = [out]) : Separate pn ns g' where
  lone n hn := (hsep.lone n hn).shrink (fun hc => h.connsOf_old (hns n hn) ▸ hc)
    fun hc => h.direction_old (hg.conn_isSome hc)
  apart := h.apart hg hsep.apart hns hpn hwas

theorem Removable.root_ne_out (h : g.Removable pn input root out) (hg : g.Sound)
    (hset : g.Settled v) : root ≠ out := by
  rintro rfl
  obtain ⟨b, hb⟩ := hset h.input_sink (d := root) (by simp [h.driven])
  exact not_feeds_self (hb.acc hg.toOwned)
    ⟨pn, (h.derived hg.toOwned).1, h.out_mem, by simp [(h.derived hg.toOwned).2]⟩

/-- A consumer can have a copy of logic that does not read the pin node. -/
theorem Removable.exists_splices {consumer : ConnId} (hr : g.Removable pn input root out) (hg : g.Sound)
    (hlogic : ∀ n ∈ cone.inner, g.hasKind isLogic n) (hsep : Apart pn cone.inner g)
    (hcons : consumer ∈ g.refsOf out) :
    ∃ g' copies g1 root', inlineInto cone root pn out g consumer = .ok g' ∧
      copies.map Prod.fst = cone.inner ∧ Splices copies root root' consumer g g1 g' := by
  have hrmem : root ∈ g.refsOf input := by simp [hr.driven]
  obtain ⟨m, hm⟩ := hg.listed (hg.mirror hrmem)
  have hcell : ∀ n ∈ cone.inner, g.hasKind NodeKind.isCell n := by
    intro n hn
    obtain ⟨k, hk, hl⟩ := hasKind_iff.mp (hlogic n hn)
    exact hasKind_of hk ((NodeKind.spec_of_isLogic hl).2.2)
  exact Network.exists_splices hg hcell hsep hm (hg.output_of_sink hrmem hr.input_sink) hr.out_output
    hr.out_mem hcons

/-- One consumer after the other gets its copy. -/
theorem Inlined.exists_step {pre : List ConnId} {consumer : ConnId}
    (h : Inlined K pn input root out cone.inner g pre g1) (hset : g.Settled v)
    (hlogic : ∀ n ∈ cone.inner, g.hasKind isLogic n) (hmem : consumer ∈ g.refsOf out)
    (hpre : consumer ∉ pre) : ∃ g2, inlineInto cone root pn out g1 consumer = .ok g2 ∧
      Inlined K pn input root out cone.inner g (pre ++ [consumer]) g2 := by
  obtain ⟨origin, hu⟩ := h.unfolds
  have hg1 := hu.tidy.toSound
  have hr := h.removable
  have hlogic1 : ∀ n ∈ cone.inner, g1.hasKind isLogic n := fun n hn =>
    (hu.evolves.hasKind (isSome_of_hasKind (hlogic n hn)) _).trans (hlogic n hn)
  have hcons : consumer ∈ g1.refsOf out := h.readers.mpr ⟨hmem, hpre⟩
  have hwas := hg1.refsOf_consumer hr.out_output hcons
  have hsink := hg1.sink_of_output hcons hr.out_output
  have hrmem : root ∈ g1.refsOf input := by simp [hr.driven]
  have hroot_out := hg1.output_of_sink hrmem hr.input_sink
  obtain ⟨g2, copies, g', root', hrun, hkeys, hsp⟩ :=
    hr.exists_splices hg1 hlogic1 h.separate.apart hcons
  have hcopy : ∀ p ∈ copies, p.1 ∈ cone.inner := fun p hp => hkeys ▸ mem_map.mpr ⟨p, hp, rfl⟩
  have hi := hsp.inlines hg1 (fun p hp => h.separate.lone p.1 (hcopy p hp)) hroot_out
  have hset1 := hu.settled hset
  have hne := hr.root_ne_out hg1 hset1
  obtain ⟨origin', hu'⟩ := hi.unfolds hg1 (hr.repeats hg1.toOwned) hwas hsink hu.tidy
    fun p hp => hlogic1 _ (hcopy p hp)
  have hstep : CopyStep K pn input root out cone.inner g1 g2 :=
    ⟨hu.tidy, hr, h.separate, hlogic1, hne, copies, root', consumer, g', hkeys, hcons, hi⟩
  refine ⟨g2, hrun, ⟨_, hu.trans hu'⟩, h.run.tail hstep, hr.splices hg1 hsp hwas hne, ?_, fun {x} => ?_⟩
  · exact hi.separate hg1 h.separate (fun n hn => isSome_of_hasKind (hlogic1 n hn)) hr.out_mem hwas
  · rw [hi.readers hg1 (hkeys.symm ▸ h.separate.apart) hr.out_mem hr.out_output hne, h.readers, and_assoc,
      mem_append, mem_singleton, not_or]

theorem exists_inlined (hg : g.Tidy K) (hK : ∀ k, k.isCombinational → K k) (hset : g.Settled v)
    (hr : g.Removable pn input root out) (hcone : g.IsCone root cone.inner) :
    ∃ g', (g.refsOf out).foldlM (inlineInto cone root pn out) g = .ok g' ∧
      Inlined K pn input root out cone.inner g (g.refsOf out) g' := by
  have hstart : Inlined K pn input root out cone.inner g [] g :=
    ⟨⟨id, .refl hg⟩, .refl, hr, hr.separate hg hK hset hcone.behind, by simp⟩
  refine (Ends.foldlM_inits (fun pre x post s hl hs => .inl ?_) hstart).exists_result
  have hnd := hg.nodup_refs out
  rw [hl] at hnd
  exact hs.exists_step hset (fun n hn => (hcone.behind n hn).logic) (by simp [hl])
    fun hmem => (nodup_append.mp hnd).2.2 _ hmem _ mem_cons_self rfl

/-- The pin node that goes: its one input is driven, and it has an output. -/
theorem removable_of_inputs (hg : g.Tidy K) (hpn : pn ∈ g.pinNodes)
    (hnothing : g.absorbedOf pn = .nothing) (hin : (g.connsOf pn).filter g.isInput = [input])
    (hroot : (g.refsOf input).head? = some root) (hout : (g.connsOf pn).find? g.isOutput = some out) :
    g.Removable pn input root out := by
  have hkind := hg.pinNode_kind hpn
  have hreg := hg.regular (hasKind_of hkind (by simp [isNamed]))
  obtain ⟨hmem, hinput⟩ := mem_filter.mp (hin ▸ mem_singleton_self input)
  have hs := isSink_of_isInput hinput
  refine ⟨hkind, hnothing, hmem, hs, fun c hc hcs => ?_,
    hg.refsOf_eq_singleton hs (mem_of_head? hroot), mem_of_find?_eq_some hout,
    find?_some hout⟩
  rcases hreg.plain (by simp [hkind]) hc with hci | hco
  · exact mem_singleton.mp (hin ▸ mem_filter.mpr ⟨hc, hci⟩)
  · rw [not_isSink_of_isOutput hco] at hcs
    cases hcs

/-- A node of the list that nothing reads is taken out of use. -/
structure RetireStep (K : NodeKind → Bool) (ns : List NodeId) (g g' : Network) : Prop where
  tidy : g.Tidy K
  node : ∃ n ∈ ns, g.hasKind isLogic n = true ∧ g.UnreadAt n ∧
    (retired n (g.connsOf n)).Applies g g'

theorem RetireStep.retires (h : RetireStep K ns g g') : Retires K g g' := by
  obtain ⟨n, -, hlogic, hun, happ⟩ := h.node
  obtain ⟨k, hk, hl⟩ := hasKind_iff.mp hlogic
  refine retires_retired happ h.tidy hk ⟨?_, ?_, (NodeKind.spec_of_isLogic hl).2.1⟩ hun
  · rintro rfl
    cases hl
  · rintro rfl
    cases hl

theorem retireIfUnread_cases (hg : g.Sound) (h : g.retireIfUnread n = .ok g') :
    g' = g ∨ (retired n (g.connsOf n)).Applies g g' := by
  simp only [retireIfUnread, bind_eq_ok] at h
  obtain ⟨o, -, h⟩ := h
  split at h
  · exact .inr (applies_retire hg.mirror h)
  · rw [bind_eq_ok] at h
    obtain ⟨k, -, h⟩ := h
    split at h
    · exact .inr (applies_retire hg.mirror h)
    · exact .inl (pure_eq_ok.mp h).symm

/-- A node of the logic is retired if nothing reads it. -/
theorem exists_retireIfUnread (hg : g.Tidy K) (hK : ∀ k, k.isCombinational → K k) (hn : n ∈ ns)
    (hlogic : g.hasKind isLogic n) :
    ∃ g', g.retireIfUnread n = .ok g' ∧ (g' = g ∨ RetireStep K ns g g') := by
  have hsome := isSome_of_hasKind hlogic
  have hlone := (hg.regularAt_of_isLogic hK hlogic).lone
  obtain ⟨g', hrun⟩ := exists_retire hg.mirror (fun c hc => hg.conn_isSome hc) hsome
  have happ := applies_retire hg.mirror hrun
  simp only [retireIfUnread, output?_eq_ok.mpr ⟨hsome, rfl⟩, ok_bind]
  split
  · rename_i ho
    refine ⟨g', hrun, .inr ⟨hg, n, hn, hlogic, fun o hmem hout => ?_, happ⟩⟩
    exact absurd hout (find?_eq_none.mp ho o hmem)
  · rename_i o ho
    have hmem := mem_of_find?_eq_some ho
    simp only [fanOut_eq_ok.mpr ⟨hg.conn_isSome hmem, rfl⟩, ok_bind]
    split
    · rename_i hzero
      refine ⟨g', hrun, .inr ⟨hg, n, hn, hlogic, fun o' hmem' hout => ?_, happ⟩⟩
      rw [hlone hmem' hmem hout (find?_some ho)]
      exact length_eq_zero_iff.mp hzero
    · exact ⟨g, rfl, .inl rfl⟩

theorem retireSteps_retires (hg : g.Tidy K)
    (h : ReflTransGen (RetireStep K ns) g g') : Retires K g g' := by
  induction h with
  | refl => exact .refl hg
  | tail _ hstep ih => exact ih.trans hstep.retires

theorem exists_retireSteps (hg : g.Tidy K)
    (hK : ∀ k, k.isCombinational → K k) (hns : ∀ n ∈ ns, g.hasKind isLogic n) :
    ∃ g', ns.foldlM retireIfUnread g = .ok g' ∧ ReflTransGen (RetireStep K ns) g g' := by
  refine (Ends.foldlM_invariant (fun s n hn hs => ?_) .refl).exists_result
  have hr := retireSteps_retires hg hs
  have hlogic : s.hasKind isLogic n := by
    rw [hasKind, hr.kindOf?]
    exact hns n hn
  obtain ⟨s', hrun, rfl | hstep⟩ := exists_retireIfUnread hr.tidy hK hn hlogic
  · exact .inl ⟨_, hrun, hs⟩
  · exact .inl ⟨_, hrun, hs.tail hstep⟩

/-- A pin node is removed: every consumer gets a copy of the logic `ns` behind it, then the pin node
goes, and then the logic that nothing reads. -/
structure Removal (K : NodeKind → Bool) (pn : NodeId) (input root out : ConnId) (ns : List NodeId)
    (g g1 g2 g' : Network) : Prop where
  removable : g.Removable pn input root out
  cone : g.IsCone root ns
  unfolds1 : ∃ origin, Unfolds K origin g g1
  copies : ReflTransGen (CopyStep K pn input root out ns) g g1
  removable1 : g1.Removable pn input root out
  unread : g1.refsOf out = []
  retired : (retired pn (g1.connsOf pn)).Applies g1 g2
  clears : ReflTransGen (RetireStep K ns) g2 g'

namespace Removal

variable {ns : List NodeId} {g1 g2 : Network} (h : Removal K pn input root out ns g g1 g2 g')
include h

theorem tidy1 : g1.Tidy K := by
  obtain ⟨origin, hu⟩ := h.unfolds1
  exact hu.tidy

theorem unreadAt : g1.UnreadAt pn := by
  intro o ho hoo
  have hreg := h.tidy1.regular (hasKind_of h.removable1.kind (by simp [isNamed]))
  rw [hreg.lone ho h.removable1.out_mem hoo h.removable1.out_output]
  exact h.unread

theorem retires : Retires K g1 g2 :=
  retires_retired h.retired h.tidy1 h.removable1.kind ⟨nofun, nofun, rfl⟩ h.unreadAt

/-- Removing a pin node that took over nothing keeps all values. -/
theorem unfolds : ∃ origin, Unfolds K origin g g' := by
  obtain ⟨origin, hu⟩ := h.unfolds1
  have hclear := retireSteps_retires h.retires.tidy h.clears
  exact ⟨_, (hu.trans h.retires.unfolds).trans hclear.unfolds⟩

end Removal

/-- What a removal consists of. -/
theorem inlinePinNode_cases (h : g.inlinePinNode pn = .ok g') : ∃ input root out cone g1 g2,
    (g.connsOf pn).filter g.isInput = [input] ∧ (g.refsOf input).head? = some root ∧
    (g.connsOf pn).find? g.isOutput = some out ∧ g.coneOf root = .ok cone ∧
    (g.refsOf out).foldlM (inlineInto cone root pn out) g = .ok g1 ∧ g1.retire pn = .ok g2 ∧
    cone.inner.foldlM retireIfUnread g2 = .ok g' := by
  simp only [inlinePinNode, bind_eq_ok, inputs_eq_ok] at h
  obtain ⟨cs, ⟨-, hin⟩, h⟩ := h
  split at h
  swap
  · exact absurd h bind_throw_ne_ok
  rename_i input
  simp only [bind_eq_ok, driver?_eq_ok] at h
  obtain ⟨root?, ⟨-, hroot⟩, h⟩ := h
  split at h
  · exact absurd h bind_throw_ne_ok
  rename_i root
  simp only [bind_eq_ok, output?_eq_ok] at h
  obtain ⟨out?, ⟨-, hout⟩, h⟩ := h
  split at h
  · exact absurd h bind_throw_ne_ok
  rename_i out
  simp only [bind_eq_ok, conn_eq_ok] at h
  obtain ⟨cone, hcone, y, hy, g1, hloop, g2, hretire, hrest⟩ := h
  rw [← refsOf_of_conn? hy] at hloop
  exact ⟨input, root, out, cone, g1, g2, hin, hroot, hout, hcone, hloop, hretire, hrest⟩

/-- A pin node that can be removed is removed step by step. -/
theorem Removable.exists_removal (hr : g.Removable pn input root out) (hg : g.Tidy K)
    (hK : ∀ k, k.isCombinational → K k) (hset : g.Settled v) (hcone : g.IsCone root cone.inner) :
    ∃ g1 g2 g', (g.refsOf out).foldlM (inlineInto cone root pn out) g = .ok g1 ∧ g1.retire pn = .ok g2 ∧
      cone.inner.foldlM retireIfUnread g2 = .ok g' ∧
      Removal K pn input root out cone.inner g g1 g2 g' := by
  -- every consumer gets its copy
  obtain ⟨g1, hloop, hdone⟩ := exists_inlined hg hK hset hr hcone
  obtain ⟨origin, hu⟩ := hdone.unfolds
  -- then nothing reads the pin node
  have hempty : g1.refsOf out = [] := by
    rw [eq_nil_iff_forall_not_mem]
    intro x hx
    exact (hdone.readers.mp hx).2 (hdone.readers.mp hx).1
  obtain ⟨g2, hretire⟩ := exists_retire hu.tidy.mirror (fun c hc => hu.tidy.conn_isSome hc)
    (isSome_of_kindOf? hdone.removable.kind)
  have hpart : Removal K pn input root out cone.inner g g1 g2 g2 :=
    ⟨hr, hcone, ⟨origin, hu⟩, hdone.run, hdone.removable, hempty, applies_retire hu.tidy.mirror hretire,
      .refl⟩
  have hlogic2 : ∀ n ∈ cone.inner, g2.hasKind isLogic n := by
    intro n hn
    have hlogic := (hcone.behind n hn).logic
    rw [hasKind, hpart.retires.kindOf?, ← hasKind, hu.evolves.hasKind (isSome_of_hasKind hlogic)]
    exact hlogic
  obtain ⟨g', hrest, hclears⟩ := exists_retireSteps hpart.retires.tidy hK hlogic2
  exact ⟨g1, g2, g', hloop, hretire, hrest, { hpart with clears := hclears }⟩

theorem removal_inlinePinNode (hg : g.Tidy K) (hK : ∀ k, k.isCombinational → K k) (hset : g.Settled v)
    (hpn : pn ∈ g.pinNodes) (hnothing : g.absorbedOf pn = .nothing) (h : g.inlinePinNode pn = .ok g') :
    ∃ input root out ns g1 g2, Removal K pn input root out ns g g1 g2 g' := by
  obtain ⟨input, root, out, cone, g1, g2, hin, hroot, hout, hcone, hloop, hretire, hrest⟩ :=
    inlinePinNode_cases h
  have hr := removable_of_inputs hg hpn hnothing hin hroot hout
  have hrmem : root ∈ g.refsOf input := by simp [hr.driven]
  have hiscone := isCone_coneOf hg hK (hg.listed (hg.mirror hrmem)) hcone
  obtain ⟨_, _, _, hloop', hretire', hrest', hrem⟩ := hr.exists_removal hg hK hset hiscone
  cases hloop.symm.trans hloop'
  cases hretire.symm.trans hretire'
  cases hrest.symm.trans hrest'
  exact ⟨input, root, out, cone.inner, _, _, hrem⟩

/-! ## Removing several -/

theorem mem_of_cheapest {l : List (NodeId × Nat)} {x : NodeId × Nat} (h : cheapest l = some x) :
    x ∈ l := by
  induction l generalizing x with
  | nil => cases h
  | cons y l ih =>
    simp only [cheapest] at h
    split at h
    · exact Option.some.inj h ▸ mem_cons_self
    · rename_i z hz
      split at h
      · exact Option.some.inj h ▸ mem_cons_of_mem y (ih hz)
      · exact Option.some.inj h ▸ mem_cons_self

/-- The pin node may be removed: it took over nothing, and its logic does not read it. -/
def Expendable (g : Network) (pn : NodeId) : Prop :=
  g.absorbedOf pn = .nothing ∧ g.isFeedback pn = .ok false

/-- An offer is the cost of a pin node that may be removed. -/
theorem offer?_eq_some {x : NodeId × Nat} (h : g.offer? n = .ok (some x)) :
    x.1 = n ∧ g.Expendable n ∧ g.copyCost n = .ok x.2 := by
  simp only [offer?, bind_eq_ok, node_eq_ok] at h
  obtain ⟨y, hy, h⟩ := h
  have habs : g.absorbedOf n = y.absorbed := by rw [absorbedOf, hy]; rfl
  split at h
  · rename_i hnothing
    simp only [bind_eq_ok] at h
    obtain ⟨feedback, hfeedback, h⟩ := h
    cases feedback with
    | true => cases h
    | false =>
      simp only [Bool.false_eq_true, if_false, bind_eq_ok, pure_eq_ok, Option.some.injEq] at h
      obtain ⟨cost, hcost, rfl⟩ := h
      exact ⟨rfl, ⟨habs.trans ((Absorbed.isNothing_iff _).mp hnothing), hfeedback⟩, hcost⟩
  · cases h

/-- The candidate is a pin node that took over nothing. -/
theorem nextCandidate_spec (h : g.nextCandidate = .ok (some pn)) :
    pn ∈ g.pinNodes ∧ g.absorbedOf pn = .nothing := by
  simp only [nextCandidate, bind_eq_ok, pure_eq_ok, mapM_eq_ok] at h
  obtain ⟨offers, hoffers, h⟩ := h
  obtain ⟨x, hx, rfl⟩ := Option.map_eq_some_iff.mp h
  have hmem := mem_of_cheapest hx
  simp only [mem_filterMap, id] at hmem
  obtain ⟨a, ha, rfl⟩ := hmem
  -- the offer belongs to a pin node of the list
  obtain ⟨n, hn, ho⟩ := exists_left_of_forall₂ hoffers ha
  obtain ⟨rfl, hexpendable, -⟩ := offer?_eq_some ho
  exact ⟨hn, hexpendable.1⟩

/-- One pin node is removed, and the list of equations is brought up to date. -/
structure RemovalStep (K : NodeKind → Bool) (g g' : Network) : Prop where
  tidy : g.Tidy K
  removal : ∃ pn input root out ns g1 g2 g3, pn ∈ g.pinNodes ∧
    Removal K pn input root out ns g g1 g2 g3 ∧ g3.rebuildTop = .ok g'

theorem RemovalStep.unfolds (h : RemovalStep K g g') : ∃ origin, Unfolds K origin g g' := by
  obtain ⟨pn, input, root, out, ns, g1, g2, g3, -, hrem, htop⟩ := h.removal
  obtain ⟨origin, hu⟩ := hrem.unfolds
  exact ⟨_, hu.trans (retires_rebuildTop hu.tidy htop).unfolds⟩

/-- One round of the pass: it stops, or it removes a pin node and goes on. -/
theorem inlineAll_cases (h : inlineAll limit (bound + 1) g = .ok r) :
    r = (false, g) ∧ (g.pinNodes.length ≤ limit ∨ g.nextCandidate = .ok none) ∨
      ∃ pn g1 g2 r', limit < g.pinNodes.length ∧ g.nextCandidate = .ok (some pn) ∧
        g.inlinePinNode pn = .ok g1 ∧ g1.rebuildTop = .ok g2 ∧ g2.checkAll = .ok () ∧
        inlineAll limit bound g2 = .ok r' ∧ r = (true, r'.2) := by
  rw [inlineAll] at h
  split at h
  · rename_i few
    cases h
    exact .inl ⟨rfl, .inl few⟩
  rename_i many
  rw [bind_eq_ok] at h
  obtain ⟨candidate, hcand, h⟩ := h
  split at h
  · cases h
    exact .inl ⟨rfl, .inr hcand⟩
  simp only [inlineRound, bind_eq_ok, pure_eq_ok] at h
  obtain ⟨_, ⟨g1, h1, g2, h2, ⟨⟩, hcheck, rfl⟩, r', hrest, rfl⟩ := h
  exact .inr ⟨_, g1, g2, r', Nat.not_le.mp many, hcand, h1, h2, hcheck, hrest, rfl⟩

section Rounds

variable {P : Network → Prop} (round : ∀ {pn s s1 s'}, P s → pn ∈ s.pinNodes →
  s.absorbedOf pn = .nothing → s.inlinePinNode pn = .ok s1 → s1.rebuildTop = .ok s' → s'.checkAll = .ok () → P s')
include round

theorem inlineAll_invariant (hg : P g) (h : inlineAll limit bound g = .ok r) : P r.2 := by
  induction bound generalizing g r with
  | zero =>
    cases h
    exact hg
  | succ bound ih =>
    rcases inlineAll_cases h with ⟨rfl, -⟩ | ⟨pn, g1, g2, r', -, hcand, h1, h2, hcheck, hrest, rfl⟩
    · exact hg
    · obtain ⟨hpn, hnothing⟩ := nextCandidate_spec hcand
      have hend := ih (round hg hpn hnothing h1 h2 hcheck) hrest
      exact hend

/-- What every round keeps holds at the end. -/
theorem expand_invariant {limit : Option Nat} (hg : P g) (h : g.expand limit = .ok r) : P r.2 := by
  cases limit with
  | none => exact pure_eq_ok.mp h ▸ hg
  | some limit => exact inlineAll_invariant round hg h

end Rounds

section Expand

variable {limit : Option Nat} (hg : g.Tidy K) (hK : ∀ k, k.isCombinational → K k)
  (hset : g.Settled v) (h : expand limit g = .ok r)
include hg hK hset h

/-- What every removal keeps holds when the network is within the budget. -/
theorem expand_keeps {P : Network → Prop} (step : ∀ {s s'}, P s → RemovalStep K s s' → P s')
    (hP : P g) : P r.2 := by
  have hrun : P r.2 ∧ r.2.Tidy K ∧ r.2.Settled v := by
    refine expand_invariant (P := fun s => P s ∧ s.Tidy K ∧ s.Settled v) ?_ ⟨hP, hg, hset⟩ h
    rintro pn s s1 s' ⟨hs, htidy, hsettled⟩ hpn hnothing h1 h2 -
    obtain ⟨input, root, out, ns, t1, t2, hrem⟩ :=
      removal_inlinePinNode htidy hK hsettled hpn hnothing h1
    have hstep : RemovalStep K s s' := ⟨htidy, pn, input, root, out, ns, t1, t2, s1, hpn, hrem, h2⟩
    obtain ⟨origin, hu⟩ := hstep.unfolds
    exact ⟨step hs hstep, hu.tidy, hu.settled hsettled⟩
  exact hrun.1

/-- Keeping within the budget keeps all values, and the list of equations is kept up to date. -/
theorem unfolds_expand : (∃ origin, Unfolds K origin g r.2) ∧ (g.Collected → r.2.Collected) := by
  refine expand_keeps hg hK hset h
    (P := fun s => (∃ origin, Unfolds K origin g s) ∧ (g.Collected → s.Collected)) ?_
    ⟨⟨id, .refl hg⟩, id⟩
  rintro s s' ⟨⟨origin, hu⟩, -⟩ hstep
  obtain ⟨origin', hu'⟩ := hstep.unfolds
  obtain ⟨_, _, _, _, _, _, _, _, -, -, htop⟩ := hstep.removal
  exact ⟨⟨_, hu.trans hu'⟩, fun _ => collected_rebuildTop htop⟩

end Expand

end Network

end PldSynth
