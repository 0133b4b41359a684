import PldSynth.Proofs.Network.Evolution

/-!
# What a network computes

A network is read as logic in this way. Some outputs are given a value from outside: the ports of the
module, constants, registers, buffers, and all that a pin or pin node has taken over. Every other
output is derived: a gate combines what it reads, and a pin or pin node repeats its driver. An output
has a value (`Computes`) if that value can be worked out in finitely many steps.

Passes change the shape of a network and keep its values. `Computes.follow` is the one induction
behind that: if the outputs of two networks are related so that one step of the first can be answered
in the second, then related outputs have the same value. They also have the same gates behind them
(`trail_iff_of_matches`): a `Trail` is a way back through the gates that an output depends on.
-/

namespace PldSynth

open PldSynth.NodeKind (isNamed)
open List

/-- The value of an operator at several operands. -/
def GateOp.eval : GateOp → List Bool → Bool
  | .conj, l => l.all id
  | .disj, l => l.any id
  | .parity, l => l.foldr xor false

/-- The value at the outputs of a node of this kind, from the values that it reads. A node that is
neither a gate nor an inverter repeats the first of them. -/
def NodeKind.eval : NodeKind → List Bool → Bool
  | .gate op, l => op.eval l
  | .inverter, l => !l.headD false
  | _, l => l.headD false

theorem NodeKind.not_isNamed_of_isCombinational {k : NodeKind} (h : k.isCombinational) :
    k.isNamed = false := by
  cases k <;> first | rfl | cases h

theorem NodeKind.eval_of_isNamed {k : NodeKind} (h : k.isNamed) (l : List Bool) :
    k.eval l = l.headD false := by
  cases k <;> first | rfl | cases h

/-- Gates and inverters are told apart by what they compute, also from what only repeats. -/
theorem NodeKind.eq_of_eval {k k' : NodeKind} (h : k'.eval = k.eval) (hk : k.isCombinational) :
    k' = k := by
  have hnil : k'.eval [] = k.eval [] := by rw [h]
  have hone : k'.eval [true] = k.eval [true] := by rw [h]
  have hlast : k'.eval [false, true] = k.eval [false, true] := by rw [h]
  have hboth : k'.eval [true, true] = k.eval [true, true] := by rw [h]
  cases k with
  | gate op =>
    cases k' with
    | gate op' => revert hnil hone hlast hboth; cases op <;> cases op' <;> decide
    | _ => revert hnil hone hlast hboth; cases op <;> decide
  | inverter =>
    cases k' with
    | gate op' => revert hnil hone hlast hboth; cases op' <;> decide
    | inverter => rfl
    | _ => cases hnil
  | _ => cases hk

namespace Network

/-- The outputs of the node follow from what it reads: it is a gate, or a pin or pin node that can be
driven and has taken over nothing. -/
def isDerived (g : Network) (n : NodeId) : Bool :=
  g.hasKind NodeKind.isCombinational n ||
    (g.hasKind isNamed n && (g.absorbedOf n).isNothing && (g.connsOf n).any g.isSink)

/-- What drives a node, one driver for each connection that is driven. -/
def driversAt (g : Network) (n : NodeId) : List ConnId :=
  ((g.connsOf n).filter g.isSink).filterMap fun c => (g.refsOf c).head?

/-- The output `o` has the value `b` if the outputs that are not derived have the values `v`. -/
inductive Computes (g : Network) (v : ConnId → Bool) : ConnId → Bool → Prop
  | given {n o} (hn : g.isDerived n = false) (ho : o ∈ g.connsOf n) (hout : g.isOutput o = true) :
    Computes g v o (v o)
  | derived {n o k} (hn : g.isDerived n = true) (hk : g.kindOf? n = some k) (ho : o ∈ g.connsOf n)
    (hout : g.isOutput o = true) (vals : ConnId → Bool)
    (hd : ∀ d ∈ g.driversAt n, Computes g v d (vals d)) :
    Computes g v o (k.eval ((g.driversAt n).map vals))

/-- The driven connection `c` reads the value `b`. -/
def Reads (g : Network) (v : ConnId → Bool) (c : ConnId) (b : Bool) : Prop :=
  g.isSink c = true ∧ ∃ d, g.refsOf c = [d] ∧ g.Computes v d b

/-- Every driver has a value. -/
def Settled (g : Network) (v : ConnId → Bool) : Prop :=
  ∀ ⦃c d⦄, g.isSink c = true → d ∈ g.refsOf c → ∃ b, g.Computes v d b

variable {g g' : Network} {v v' : ConnId → Bool} {n m : NodeId} {c d o x : ConnId} {b b' : Bool}
  {ds ds' : List ConnId} {k : NodeKind} {g'' : Network} {R : ConnId → ConnId → Prop}

/-! ## Values are unique -/

theorem mem_driversAt : d ∈ g.driversAt n ↔
    ∃ c ∈ g.connsOf n, g.isSink c ∧ (g.refsOf c).head? = some d := by
  simp [driversAt, and_assoc]

/-- An output has one value at most. -/
theorem Computes.unique (hg : g.Owned) (h : g.Computes v o b) (h' : g.Computes v o b') : b = b' := by
  induction h generalizing b' with
  | given hn ho _ =>
    cases h' with
    | given => rfl
    | derived hm _ ho' =>
      obtain rfl := hg.eq_of_mem ho ho'
      simp [hn] at hm
  | derived hn hk ho _ vals _ ih =>
    cases h' with
    | given hm ho' _ =>
      obtain rfl := hg.eq_of_mem ho ho'
      simp [hn] at hm
    | derived _ hk' ho' _ vals' hd' =>
      obtain rfl := hg.eq_of_mem ho ho'
      obtain rfl := Option.mem_unique hk hk'
      congr 1
      apply map_congr_left
      intro d hd
      exact ih d hd (hd' d hd)

/-- A function that gives every value that there is. -/
theorem exists_value (hg : g.Owned) (v : ConnId → Bool) :
    ∃ val : ConnId → Bool, ∀ {o b}, g.Computes v o b → val o = b := by
  classical
  refine ⟨fun o => decide (g.Computes v o true), fun {o b} h => ?_⟩
  cases b with
  | true => simpa using h
  | false =>
    have : ¬ g.Computes v o true := fun h' => nomatch h.unique hg h'
    simpa using this

/-! ## Following one network in another -/

/-- `e` repeats `d`: it is the output of a pin or pin node that reads `d` alone. -/
def Repeats (g : Network) (d e : ConnId) : Prop :=
  ∃ n, g.isDerived n = true ∧ g.hasKind isNamed n = true ∧ e ∈ g.connsOf n ∧
    g.isOutput e = true ∧ g.driversAt n = [d]

/-- `e` answers `d`, or repeats an answer of `d`. -/
def Answers (g' : Network) (R : ConnId → ConnId → Prop) (d e : ConnId) : Prop :=
  R d e ∨ ∃ d', R d d' ∧ g'.Repeats d' e

/-- One step behind `o` in `g` is answered behind `o'` in `g'`. -/
inductive Matches (g g' : Network) (v v' : ConnId → Bool) (R : ConnId → ConnId → Prop)
    (o o' : ConnId) : Prop
  /-- Both outputs are given. -/
  | given {n n' : NodeId} (hn : g.isDerived n = false) (ho : o ∈ g.connsOf n)
    (hn' : g'.isDerived n' = false) (ho' : o' ∈ g'.connsOf n') (hout' : g'.isOutput o' = true)
    (hv : v' o' = v o)
  /-- Both outputs are derived in the same way from drivers that answer each other. -/
  | derived {n n' : NodeId} {k k' : NodeKind} (hn : g.isDerived n = true) (hk : g.kindOf? n = some k)
    (ho : o ∈ g.connsOf n) (hn' : g'.isDerived n' = true) (hk' : g'.kindOf? n' = some k')
    (ho' : o' ∈ g'.connsOf n') (hout' : g'.isOutput o' = true) (heval : k'.eval = k.eval)
    (hd : List.Forall₂ (g'.Answers R) (g.driversAt n) (g'.driversAt n'))
  /-- `o` repeats a driver that `o'` answers already. -/
  | passed {n : NodeId} {d : ConnId} (hn : g.isDerived n = true) (hk : g.hasKind isNamed n = true)
    (ho : o ∈ g.connsOf n) (hd : g.driversAt n = [d]) (hR : R d o')

theorem Repeats.computes (h : g.Repeats d o) (hd : g.Computes v d b) : g.Computes v o b := by
  obtain ⟨n, hn, hk, ho, hout, hds⟩ := h
  obtain ⟨k, hk', hnamed⟩ := hasKind_iff.mp hk
  have := Computes.derived hn hk' ho hout (fun _ => b) (by simpa [hds] using hd)
  simpa [hds, k.eval_of_isNamed hnamed] using this

theorem exists_answered (h : List.Forall₂ (g'.Answers R) ds ds')
    (hd : d ∈ ds') : ∃ e ∈ ds, g'.Answers R e d := by
  induction h with
  | nil => cases hd
  | cons hde _ ih =>
    rcases mem_cons.mp hd with rfl | hd
    · exact ⟨_, mem_cons_self, hde⟩
    · obtain ⟨e, he, hed⟩ := ih hd
      exact ⟨e, mem_cons_of_mem _ he, hed⟩

/-- What an output repeats has the same value. -/
theorem Repeats.computes_source (h : g.Repeats d o) (hg : g.Owned) (ho : g.Computes v o b) :
    g.Computes v d b := by
  obtain ⟨n, hn, hk, hmem, hout, hds⟩ := h
  obtain ⟨k, hk', hnamed⟩ := hasKind_iff.mp hk
  cases ho with
  | given hm ho' => simp [hg.eq_of_mem hmem ho', hm] at hn
  | derived _ hk1 ho' _ vals hd =>
    obtain rfl := hg.eq_of_mem hmem ho'
    obtain rfl := Option.mem_unique hk' hk1
    rw [hds] at hd ⊢
    simpa [k.eval_of_isNamed hnamed] using hd d

/-- The values behind two lists of drivers that answer each other are the same. -/
theorem map_eq_of_answers {vals vals' : ConnId → Bool}
    (h : List.Forall₂ (g'.Answers R) ds ds') (heq : ∀ d ∈ ds, ∀ e, g'.Answers R d e → vals' e = vals d) :
    ds'.map vals' = ds.map vals := by
  induction h with
  | nil => rfl
  | cons hde _ ih =>
    rw [map_cons, map_cons, heq _ mem_cons_self _ hde,
      ih fun d hd => heq d (mem_cons_of_mem _ hd)]

/-- Related outputs have the same value if every step of the first network is answered in the
second. -/
theorem Computes.follow (hg : g.Owned) (hg' : g'.Owned)
    (hR : ∀ {o o'}, R o o' → g.Matches g' v v' R o o') (h : g.Computes v o b) :
    ∀ {o'}, R o o' → g'.Computes v' o' b := by
  induction h with
  | given hn ho hout =>
    intro o' hoo
    cases hR hoo with
    | given _ _ hn' ho' hout' hv =>
      rw [← hv]
      exact .given hn' ho' hout'
    | derived hm _ ho1 => simp [hg.eq_of_mem ho ho1, hm] at hn
    | passed hm _ ho1 => simp [hg.eq_of_mem ho ho1, hm] at hn
  | @derived n o k hn hk ho hout vals hd ih =>
    intro o' hoo
    cases hR hoo with
    | given hm ho1 => simp [hg.eq_of_mem ho ho1, hm] at hn
    | @passed m d _ hnamed ho1 hds hRd =>
      -- the value of `o` is that of its driver, which is there already
      obtain rfl := hg.eq_of_mem ho ho1
      have hval := ih d (by simp [hds]) hRd
      obtain ⟨k', hk', hp⟩ := hasKind_iff.mp hnamed
      obtain rfl := Option.mem_unique hk hk'
      simpa [hds, k.eval_of_isNamed hp] using hval
    | @derived m m' k1 k' _ hk1 ho1 hn' hk' ho' hout' heval hds =>
      obtain rfl := hg.eq_of_mem ho ho1
      obtain rfl := Option.mem_unique hk hk1
      have hanswer : ∀ d ∈ g.driversAt n, ∀ e, g'.Answers R d e → g'.Computes v' e (vals d) := by
        intro d hd e hde
        rcases hde with hde | ⟨d', hdd, hrep⟩
        · exact ih d hd hde
        · exact hrep.computes (ih d hd hdd)
      obtain ⟨val, hval⟩ := exists_value hg' v'
      have hmap := map_eq_of_answers hds fun d hd e hde => hval (hanswer d hd e hde)
      rw [← hmap, ← heval]
      apply Computes.derived hn' hk' ho' hout'
      intro e he
      obtain ⟨d, hd, hde⟩ := exists_answered hds he
      have hcomp := hanswer d hd e hde
      rwa [hval hcomp]

/-! ## Values exist where nothing runs in a circle -/

/-- The derived output `o` depends directly on `d`. -/
def Feeds (g : Network) (d o : ConnId) : Prop :=
  ∃ n, g.isDerived n = true ∧ o ∈ g.connsOf n ∧ d ∈ g.driversAt n

theorem Sound.driver_spec (hg : g.Sound) (h : d ∈ g.driversAt n) :
    g.isOutput d ∧ ∃ m, d ∈ g.connsOf m := by
  obtain ⟨c, _, hs, hd⟩ := mem_driversAt.mp h
  have hmem := mem_of_head? hd
  exact ⟨hg.output_of_sink hmem hs, hg.listed (hg.mirror hmem)⟩

/-- An output that does not depend on itself has a value. -/
theorem exists_computes (hg : g.Sound) (v : ConnId → Bool) (h : Acc g.Feeds o)
    (hout : g.isOutput o) (hl : ∃ n, o ∈ g.connsOf n) : ∃ b, g.Computes v o b := by
  induction h with
  | intro o _ ih =>
    obtain ⟨n, ho⟩ := hl
    cases hn : g.isDerived n with
    | false => exact ⟨_, .given hn ho hout⟩
    | true =>
      obtain ⟨val, hval⟩ := exists_value hg.toOwned v
      have hk : ∃ k, g.kindOf? n = some k := by
        obtain ⟨y, hy⟩ := Option.isSome_iff_exists.mp (isSome_of_mem_connsOf ho)
        exact ⟨y.kind, by simp [kindOf?_def, hy]⟩
      obtain ⟨k, hk⟩ := hk
      refine ⟨_, .derived hn hk ho hout val fun d hd => ?_⟩
      obtain ⟨hdout, hdl⟩ := hg.driver_spec hd
      obtain ⟨b, hb⟩ := ih d ⟨n, hn, ho, hd⟩ hdout hdl
      rwa [hval hb]

/-- An output with a value depends on nothing endlessly. -/
theorem Computes.acc (hg : g.Owned) (h : g.Computes v o b) : Acc g.Feeds o := by
  induction h with
  | given hn ho =>
    constructor
    rintro d ⟨m, hm, ho', -⟩
    simp [hg.eq_of_mem ho ho', hm] at hn
  | derived _ _ ho _ _ _ ih =>
    constructor
    rintro d ⟨m, hm, ho', hd⟩
    exact ih d (hg.eq_of_mem ho' ho ▸ hd)

theorem not_feeds_self (h : Acc g.Feeds o) : ¬ g.Feeds o o := by
  induction h with
  | intro o _ ih => exact fun ho => ih o ho ho

theorem settled_of_wellFounded (hg : g.Sound) (hwf : WellFounded g.Feeds) (v : ConnId → Bool) :
    g.Settled v := by
  intro c d hs hd
  exact exists_computes hg v (hwf.apply d) (hg.output_of_sink hd hs) (hg.listed (hg.mirror hd))

/-! ## Nodes whose connections correspond -/

/-- Connections that correspond: both can be driven or none, and their drivers answer each other. -/
def Corresponds (g g' : Network) (R : ConnId → ConnId → Prop) (c c' : ConnId) : Prop :=
  g'.isSink c' = g.isSink c ∧
    (g.isSink c = true → Option.Rel (g'.Answers R) (g.refsOf c).head? (g'.refsOf c').head?)

variable {K : NodeKind → Bool} {R : ConnId → ConnId → Prop} {n' : NodeId} {o' c' : ConnId}

/-- Connections correspond if they read the same drivers and these answer themselves. -/
theorem Corresponds.of_eq (hs : g'.isSink c' = g.isSink c) (hr : g'.refsOf c' = g.refsOf c)
    (hR : ∀ d ∈ g.refsOf c, g.isSink c → g'.Answers R d d) : g.Corresponds g' R c c' := by
  refine ⟨hs, fun hsink => ?_⟩
  rw [hr]
  cases hd : (g.refsOf c).head? with
  | none => exact .none
  | some d => exact .some (hR d (mem_of_head? hd) hsink)

/-- In a network in order it is enough to look at one driver. -/
theorem Corresponds.of_sole (hg : g.Wired) (hs : g'.isSink c' = g.isSink c)
    (hnil : g.isSink c → g.refsOf c = [] → g'.refsOf c' = []) (hone : ∀ d, g.isSink c → g.refsOf c = [d] →
      ∃ d', g'.refsOf c' = [d'] ∧ g'.Answers R d d') : g.Corresponds g' R c c' := by
  refine ⟨hs, fun hsink => ?_⟩
  cases hr : g.refsOf c with
  | nil => simp [hnil hsink hr]
  | cons d l =>
    have hd : g.refsOf c = [d] := hg.refsOf_eq_singleton hsink (by simp [hr])
    obtain ⟨d', hd', hans⟩ := hone d hsink hd
    rw [hd']
    exact .some hans

/-- The drivers of corresponding connections answer each other. -/
theorem driversAt_answers (h : List.Forall₂ (g.Corresponds g' R) (g.connsOf n) (g'.connsOf n')) :
    List.Forall₂ (g'.Answers R) (g.driversAt n) (g'.driversAt n') := by
  unfold driversAt
  generalize g.connsOf n = l, g'.connsOf n' = l' at h ⊢
  induction h with
  | nil => exact .nil
  | @cons c c' l l' hc _ ih =>
    obtain ⟨hsink, hrel⟩ := hc
    rw [filter_cons, filter_cons, hsink]
    split
    · rename_i hs
      have hrel := hrel hs
      rw [filterMap_cons, filterMap_cons]
      cases hd : (g.refsOf c).head? <;> cases hd' : (g'.refsOf c').head? <;>
        rw [hd, hd'] at hrel <;> cases hrel
      · exact ih
      · rename_i hde
        exact .cons hde ih
    · exact ih

theorem isDerived_eq (hk : g'.kindOf? n' = g.kindOf? n) (ha : g'.absorbedOf n' = g.absorbedOf n)
    (h : List.Forall₂ (fun c c' => g'.isSink c' = g.isSink c) (g.connsOf n) (g'.connsOf n')) :
    g'.isDerived n' = g.isDerived n := by
  have hany : (g'.connsOf n').any g'.isSink = (g.connsOf n).any g.isSink := by
    generalize g.connsOf n = l, g'.connsOf n' = l' at h ⊢
    induction h with
    | nil => rfl
    | cons hc _ ih => rw [any_cons, any_cons, hc, ih]
  rw [isDerived, isDerived, hasKind, hasKind, hasKind, hasKind, hk, ha, hany]

/-- Outputs of two nodes of the same kind whose connections correspond match. -/
theorem Matches.of_corresponds (ho : o ∈ g.connsOf n) (hk : g'.kindOf? n' = g.kindOf? n)
    (hder : g'.isDerived n' = g.isDerived n)
    (h : List.Forall₂ (g.Corresponds g' R) (g.connsOf n) (g'.connsOf n'))
    (ho' : o' ∈ g'.connsOf n') (hout' : g'.isOutput o') (hv : v' o' = v o) : g.Matches g' v v' R o o' := by
  cases hn : g.isDerived n with
  | false => exact .given hn ho (hder.trans hn) ho' hout' hv
  | true =>
    obtain ⟨y, hy⟩ := Option.isSome_iff_exists.mp (isSome_of_mem_connsOf ho)
    have hkind : g.kindOf? n = some y.kind := by simp [kindOf?_def, hy]
    exact .derived hn hkind ho (hder.trans hn) (hk.trans hkind) ho' hout' rfl (driversAt_answers h)

/-- A node that keeps its connections matches itself. -/
theorem Matches.frame (ho : o ∈ g.connsOf n) (hk : g'.kindOf? n = g.kindOf? n)
    (ha : g'.absorbedOf n = g.absorbedOf n) (hconns : g'.connsOf n = g.connsOf n)
    (h : ∀ c ∈ g.connsOf n, g.Corresponds g' R c c) (hout' : g'.isOutput o) (hv : v' o = v o) :
    g.Matches g' v v' R o o := by
  have hall : List.Forall₂ (g.Corresponds g' R) (g.connsOf n) (g'.connsOf n) := by
    rw [hconns]
    exact forall₂_same.mpr h
  have hder := isDerived_eq hk ha (hall.imp fun _ _ hc => hc.1)
  exact .of_corresponds ho hk hder hall (hconns ▸ ho) hout' hv

/-! ## Trails -/

variable {l : List (NodeKind × Nat)}

/-- Going back from the output `o`, one comes by gates of these kinds with these numbers of drivers, one
after the other. Pins and pin nodes on the way are passed. -/
inductive Trail (g : Network) : ConnId → List (NodeKind × Nat) → Prop
  | nil {o : ConnId} : Trail g o []
  | gate {n : NodeId} {o : ConnId} {k : NodeKind} (hk : g.kindOf? n = some k)
    (hcomb : k.isCombinational = true) (ho : o ∈ g.connsOf n) : Trail g o [(k, (g.driversAt n).length)]
  | cons {n : NodeId} {o d : ConnId} {k : NodeKind} {l : List (NodeKind × Nat)}
    (hk : g.kindOf? n = some k) (hcomb : k.isCombinational = true) (ho : o ∈ g.connsOf n)
    (hd : d ∈ g.driversAt n) (h : Trail g d l) : Trail g o ((k, (g.driversAt n).length) :: l)
  | pass {n : NodeId} {o d : ConnId} {l : List (NodeKind × Nat)} (hn : g.isDerived n = true)
    (hk : g.hasKind isNamed n = true) (ho : o ∈ g.connsOf n) (hd : d ∈ g.driversAt n)
    (h : Trail g d l) : Trail g o l

theorem isDerived_of_isCombinational (hk : g.kindOf? n = some k) (hcomb : k.isCombinational) :
    g.isDerived n := by
  simp [isDerived, hasKind, hk, hcomb]

/-- What is derived and no gate is a pin or pin node. -/
theorem isNamed_of_isDerived (hn : g.isDerived n) (hk : g.kindOf? n = some k)
    (hcomb : k.isCombinational = false) : g.hasKind isNamed n := by
  simp only [isDerived, hasKind, hk, Option.any_some, hcomb, Bool.false_or, Bool.and_eq_true] at hn
  rw [hasKind, hk]
  exact hn.1.1

theorem not_isNamed_of_isCombinational (hk : g.kindOf? n = some k) (hcomb : k.isCombinational) :
    g.hasKind isNamed n = false := by
  rw [hasKind, hk, Option.any_some, NodeKind.not_isNamed_of_isCombinational hcomb]

/-- A trail behind a gate starts with the gate. -/
theorem Trail.gate_cases (hg : g.Owned) (h : g.Trail o l) (ho : o ∈ g.connsOf n)
    (hk : g.kindOf? n = some k) (hcomb : k.isCombinational) :
    l = [] ∨ ∃ l', l = (k, (g.driversAt n).length) :: l' ∧
      (l' = [] ∨ ∃ d ∈ g.driversAt n, g.Trail d l') := by
  cases h with
  | nil => exact .inl rfl
  | gate hk' _ ho' =>
    obtain rfl := hg.eq_of_mem ho ho'
    obtain rfl := Option.mem_unique hk hk'
    exact .inr ⟨[], rfl, .inl rfl⟩
  | cons hk' _ ho' hd ht =>
    obtain rfl := hg.eq_of_mem ho ho'
    obtain rfl := Option.mem_unique hk hk'
    exact .inr ⟨_, rfl, .inr ⟨_, hd, ht⟩⟩
  | pass _ hk' ho' =>
    rw [hg.eq_of_mem ho' ho, not_isNamed_of_isCombinational hk hcomb] at hk'
    cases hk'

theorem Trail.of_gate {l' : List (NodeKind × Nat)} (ho : o ∈ g.connsOf n) (hk : g.kindOf? n = some k)
    (hcomb : k.isCombinational) (h : l' = [] ∨ ∃ d ∈ g.driversAt n, g.Trail d l') :
    g.Trail o ((k, (g.driversAt n).length) :: l') := by
  rcases h with rfl | ⟨d, hd, ht⟩
  · exact .gate hk hcomb ho
  · exact .cons hk hcomb ho hd ht

/-- A trail behind a pin or pin node goes on behind its driver. -/
theorem Trail.named_cases (hg : g.Owned) (h : g.Trail o l) (ho : o ∈ g.connsOf n)
    (hn : g.hasKind isNamed n) : l = [] ∨ ∃ d ∈ g.driversAt n, g.Trail d l := by
  have hgate : ∀ {m k}, g.kindOf? m = some k → k.isCombinational → o ∉ g.connsOf m := by
    intro m k hk hcomb ho'
    rw [hg.eq_of_mem ho ho', not_isNamed_of_isCombinational hk hcomb] at hn
    cases hn
  cases h with
  | nil => exact .inl rfl
  | gate hk hcomb ho' => exact absurd ho' (hgate hk hcomb)
  | cons hk hcomb ho' => exact absurd ho' (hgate hk hcomb)
  | pass _ _ ho' hd ht =>
    obtain rfl := hg.eq_of_mem ho ho'
    exact .inr ⟨_, hd, ht⟩

/-- An output that is given has no gates behind it. -/
theorem Trail.eq_nil (hg : g.Owned) (h : g.Trail o l) (ho : o ∈ g.connsOf n)
    (hn : g.isDerived n = false) : l = [] := by
  cases h with
  | nil => rfl
  | gate hk hcomb ho' | cons hk hcomb ho' =>
    rw [hg.eq_of_mem ho ho', isDerived_of_isCombinational hk hcomb] at hn
    cases hn
  | pass hn' _ ho' =>
    rw [hg.eq_of_mem ho ho', hn'] at hn
    cases hn

theorem Repeats.trail_iff (h : g.Repeats d o) (hg : g.Owned) : g.Trail o l ↔ g.Trail d l := by
  rcases h with ⟨n, hn, hk, ho, -, hds⟩
  constructor
  · intro ht
    rcases ht.named_cases hg ho hk with rfl | ⟨x, hx, ht⟩
    · exact .nil
    · rw [hds, mem_singleton] at hx
      exact hx ▸ ht
  · exact fun ht => .pass hn hk ho (by simp [hds]) ht

theorem Answers.trail_iff (hg' : g'.Owned) (h : ∀ {e}, R d e → (g'.Trail e l ↔ g.Trail d l))
    (hde : g'.Answers R d o) : g'.Trail o l ↔ g.Trail d l := by
  rcases hde with hde | ⟨e, hde, hrep⟩
  · exact h hde
  · exact (hrep.trail_iff hg').trans (h hde)

/-- Related outputs have the same trails if every step of the first network is answered in the second.
The induction follows what the output depends on. -/
theorem trail_iff_of_matches (hg : g.Owned) (hg' : g'.Owned)
    (hR : ∀ {o o'}, R o o' → g.Matches g' v v' R o o') (hacc : Acc g.Feeds o) :
    ∀ {o' l}, R o o' → (g'.Trail o' l ↔ g.Trail o l) := by
  induction hacc with
  | intro o _ ih =>
    intro o' l hoo
    -- drivers that answer each other have the same trails
    have hanswer : ∀ {n d e l}, g.isDerived n → o ∈ g.connsOf n → d ∈ g.driversAt n →
        g'.Answers R d e → (g'.Trail e l ↔ g.Trail d l) := fun {n d e l} hn ho hd hde =>
      hde.trail_iff hg' (ih d ⟨n, hn, ho, hd⟩)
    cases hR hoo with
    | given hn ho hn' ho' =>
      constructor
      · intro ht
        rw [ht.eq_nil hg' ho' hn']
        exact .nil
      · intro ht
        rw [ht.eq_nil hg ho hn]
        exact .nil
    | @passed n d hn hk ho hds hRd =>
      rw [ih d ⟨n, hn, ho, by simp [hds]⟩ hRd]
      constructor
      · exact fun ht => .pass hn hk ho (by simp [hds]) ht
      · intro ht
        rcases ht.named_cases hg ho hk with rfl | ⟨x, hx, ht⟩
        · exact .nil
        · rw [hds, mem_singleton] at hx
          exact hx ▸ ht
    | @derived n n' k k' hn hk ho hn' hk' ho' _ heval hds =>
      have hdriver : ∀ {l}, (∃ e ∈ g'.driversAt n', g'.Trail e l) ↔ ∃ d ∈ g.driversAt n, g.Trail d l := by
        intro l
        constructor
        · rintro ⟨e, he, ht⟩
          rcases exists_answered hds he with ⟨d, hd, hde⟩
          exact ⟨d, hd, (hanswer hn ho hd hde).mp ht⟩
        · rintro ⟨d, hd, ht⟩
          rcases exists_right_of_forall₂ hds hd with ⟨e, he, hde⟩
          exact ⟨e, he, (hanswer hn ho hd hde).mpr ht⟩
      cases hcomb : k.isCombinational with
      | true =>
        obtain rfl := NodeKind.eq_of_eval heval hcomb
        constructor
        · intro ht
          rcases ht.gate_cases hg' ho' hk' hcomb with rfl | ⟨l', rfl, hl'⟩
          · exact .nil
          · rw [← hds.length_eq]
            exact .of_gate ho hk hcomb (hl'.imp id hdriver.mp)
        · intro ht
          rcases ht.gate_cases hg ho hk hcomb with rfl | ⟨l', rfl, hl'⟩
          · exact .nil
          · rw [hds.length_eq]
            exact .of_gate ho' hk' hcomb (hl'.imp id hdriver.mpr)
      | false =>
        have hcomb' : k'.isCombinational = false := by
          rw [← hcomb, Bool.eq_iff_iff]
          exact ⟨fun h => NodeKind.eq_of_eval heval.symm h ▸ h, fun h => by simp [hcomb] at h⟩
        have hnamed := isNamed_of_isDerived hn hk hcomb
        have hnamed' := isNamed_of_isDerived hn' hk' hcomb'
        constructor
        · intro ht
          rcases ht.named_cases hg' ho' hnamed' with rfl | hl
          · exact .nil
          · rcases hdriver.mp hl with ⟨d, hd, ht⟩
            exact .pass hn hnamed ho hd ht
        · intro ht
          rcases ht.named_cases hg ho hnamed with rfl | hl
          · exact .nil
          · rcases hdriver.mpr hl with ⟨e, he, ht⟩
            exact .pass hn' hnamed' ho' he ht

/-! ## Passes that keep all values -/

/-- One of the connections of `n` reads the value `b`. -/
def Shows (g : Network) (v : ConnId → Bool) (n : NodeId) (b : Bool) : Prop :=
  ∃ c ∈ g.connsOf n, g.Reads v c b

/-- All that has a value in `g` has the same value in `g'`, as far as it is still there. -/
structure Preserves (v v' : ConnId → Bool) (g g' : Network) : Prop where
  settled : g'.Settled v'
  reads : ∀ {c b}, g.Reads v c b → (∃ n, c ∈ g'.connsOf n) → g'.Reads v' c b
  shows : ∀ {n b}, g.hasKind isNamed n = true → g.Shows v n b → g'.InUse n →
    g'.Shows v' n b
  /-- The gates behind a driven connection are the same. -/
  trails : ∀ {c d}, g.isSink c = true → g.refsOf c = [d] → (∃ n, c ∈ g'.connsOf n) →
    g'.isSink c = true ∧ ∃ d', g'.refsOf c = [d'] ∧ ∀ l, g'.Trail d' l ↔ g.Trail d l
  /-- There are no other gates behind a driver than were behind a driver before. -/
  covers : ∀ {c' d'}, g'.isSink c' = true → d' ∈ g'.refsOf c' →
    ∃ c d, g.isSink c = true ∧ d ∈ g.refsOf c ∧ ∀ l, g'.Trail d' l ↔ g.Trail d l

theorem Preserves.trans {v'' : ConnId → Bool} (h : Preserves v v' g g') (h' : Preserves v' v'' g' g'')
    (he : Evolves g g') (he' : Evolves g' g'') : Preserves v v'' g g'' where
  settled := h'.settled
  reads {c b} hr hl := by
    have hc := he.conn_isSome (isSome_of_isSink hr.1)
    obtain ⟨n, hn⟩ := hl
    exact h'.reads (h.reads hr (he'.attached hc hn)) ⟨n, hn⟩
  shows {n b} hk hs hu := by
    obtain ⟨k, hk', _⟩ := hasKind_iff.mp hk
    have hn := isSome_of_kindOf? hk'
    have hu' := he'.inUse (he.node_isSome hn) hu
    exact h'.shows ((he.hasKind hn _).trans hk) (h.shows hk hs hu') hu
  trails {c d} hs hd hl := by
    have hc := he.conn_isSome (isSome_of_isSink hs)
    obtain ⟨n, hn⟩ := hl
    obtain ⟨hs1, d1, hd1, ht1⟩ := h.trails hs hd (he'.attached hc hn)
    obtain ⟨hs2, d2, hd2, ht2⟩ := h'.trails hs1 hd1 ⟨n, hn⟩
    exact ⟨hs2, d2, hd2, fun l => (ht2 l).trans (ht1 l)⟩
  covers {c d} hs hd := by
    obtain ⟨c1, d1, hs1, hd1, ht1⟩ := h'.covers hs hd
    obtain ⟨c2, d2, hs2, hd2, ht2⟩ := h.covers hs1 hd1
    exact ⟨c2, d2, hs2, hd2, fun l => (ht1 l).trans (ht2 l)⟩

theorem Preserves.refl (h : g.Settled v) : Preserves v v g g :=
  ⟨h, fun hr _ => hr, fun _ hs _ => hs, fun {_ d} hs hd _ => ⟨hs, d, hd, fun _ => .rfl⟩,
    fun {c d} hs hd => ⟨c, d, hs, hd, fun _ => .rfl⟩⟩

theorem Answers.computes (hg : g.Owned) (hg' : g'.Owned)
    (hR : ∀ {o o'}, R o o' → g.Matches g' v v' R o o') (h : g'.Answers R o o')
    (hb : g.Computes v o b) : g'.Computes v' o' b := by
  rcases h with h | ⟨d', h, hrep⟩
  · exact hb.follow hg hg' hR h
  · exact hrep.computes (hb.follow hg hg' hR h)

/-- Values are kept by an edit under which outputs match, the drivers of all connections answer
each other, and nothing new is driven from elsewhere. -/
theorem Preserves.of_matches (hg : g.Owned) (hg' : g'.Owned) (hset : g.Settled v)
    (hR : ∀ {o o'}, R o o' → g.Matches g' v v' R o o')
    (hsink : ∀ {c d n}, g.isSink c → g.refsOf c = [d] → c ∈ g'.connsOf n →
      g'.isSink c ∧ ∃ d', g'.refsOf c = [d'] ∧ g'.Answers R d d')
    (hcover : ∀ {c' d'}, g'.isSink c' → d' ∈ g'.refsOf c' →
      ∃ c d, g.isSink c ∧ d ∈ g.refsOf c ∧ g'.Answers R d d')
    (hshows : ∀ {n c d}, g.hasKind isNamed n → g'.InUse n → c ∈ g.connsOf n →
      g.isSink c → g.refsOf c = [d] →
      ∃ c' ∈ g'.connsOf n, g'.isSink c' ∧ ∃ d', g'.refsOf c' = [d'] ∧
        ∀ b, g.Computes v d b → g'.Computes v' d' b) : Preserves v v' g g' where
  settled c' d' hs hd := by
    obtain ⟨c, d, hc, hdc, hans⟩ := hcover hs hd
    obtain ⟨b, hb⟩ := hset hc hdc
    exact ⟨b, hans.computes hg hg' hR hb⟩
  reads {c b} hr hl := by
    obtain ⟨hs, d, hd, hb⟩ := hr
    obtain ⟨n, hn⟩ := hl
    obtain ⟨hs', d', hd', hans⟩ := hsink hs hd hn
    exact ⟨hs', d', hd', hans.computes hg hg' hR hb⟩
  shows {n b} hk hsh hu := by
    obtain ⟨c, hc, hs, d, hd, hb⟩ := hsh
    obtain ⟨c', hc', hs', d', hd', hall⟩ := hshows hk hu hc hs hd
    exact ⟨c', hc', hs', d', hd', hall b hb⟩
  trails {c d} hs hd hl := by
    obtain ⟨n, hn⟩ := hl
    obtain ⟨hs', d', hd', hans⟩ := hsink hs hd hn
    obtain ⟨b, hb⟩ := hset hs (d := d) (by simp [hd])
    exact ⟨hs', d', hd', fun l => hans.trail_iff hg' (trail_iff_of_matches hg hg' hR (hb.acc hg))⟩
  covers {c' d'} hs hd := by
    obtain ⟨c, d, hc, hdc, hans⟩ := hcover hs hd
    obtain ⟨b, hb⟩ := hset hc hdc
    exact ⟨c, d, hc, hdc, fun l => hans.trail_iff hg' (trail_iff_of_matches hg hg' hR (hb.acc hg))⟩

/-- The output `o` stands on the list of a node and stays there. -/
def Stays (g g' : Network) (o o' : ConnId) : Prop :=
  o' = o ∧ g.isOutput o = true ∧ (∃ n, o ∈ g.connsOf n) ∧ ∃ n, o ∈ g'.connsOf n

/-- A design, a register, a buffer or a constant is given. -/
theorem isDerived_eq_false (hk : g.kindOf? n = some k)
    (hp : k.isCombinational = false ∧ k.isNamed = false) : g.isDerived n = false := by
  simp [isDerived, hasKind, hk, hp]

/-- The only connection of a node of a certain sort. -/
theorem filter_of_sole {l : List ConnId} {p : ConnId → Bool} (hnd : l.Nodup) (hc : c ∈ l)
    (hp : p c) (hsole : ∀ e ∈ l, p e → e = c) : l.filter p = [c] := by
  by_contra hne
  rcases ((hnd.filter p).ne_singleton_iff c).mp hne with hnil | ⟨e, he, hec⟩
  · exact filter_eq_nil_iff.mp hnil c hc hp
  · exact hec (hsole e (mem_filter.mp he).1 (mem_filter.mp he).2)

/-- A pin or pin node that is driven at one connection only repeats its driver. -/
theorem driversAt_of_sole (hnd : (g.connsOf n).Nodup) (hk : g.hasKind isNamed n)
    (ha : g.absorbedOf n = .nothing) (hc : c ∈ g.connsOf n) (hs : g.isSink c)
    (hsole : ∀ e ∈ g.connsOf n, g.isSink e → e = c) (hd : g.refsOf c = [d]) :
    g.isDerived n ∧ g.driversAt n = [d] := by
  constructor
  · have hany : (g.connsOf n).any g.isSink := any_eq_true.mpr ⟨c, hc, hs⟩
    have hnone : (g.absorbedOf n).isNothing := (Absorbed.isNothing_iff _).mpr ha
    simp [isDerived, hk, hany, hnone]
  · simp [driversAt, filter_of_sole hnd hc hs hsole, hd]

/-! ## Networks before anything was taken over -/

/-- A network that is tidy and in which nothing was taken over: a pin or pin node is driven at one
connection at most, and everything that can be driven is. -/
structure Raw (K : NodeKind → Bool) (g : Network) : Prop extends Tidy K g where
  unmerged : ∀ n, g.absorbedOf n = .nothing
  single : ∀ {n c c'}, g.hasKind isNamed n = true → c ∈ g.connsOf n → c' ∈ g.connsOf n →
    g.isSink c = true → g.isSink c' = true → c = c'
  driven : ∀ {n c}, c ∈ g.connsOf n → g.isSink c = true → ∃ d, g.refsOf c = [d]

/-- Such a network in which every driver has a value. -/
structure Fresh (K : NodeKind → Bool) (g : Network) : Prop extends Raw K g where
  settled : ∀ v, g.Settled v

/-- No pin node reads its own output. -/
def Selfless (g : Network) : Prop :=
  ∀ ⦃n c d⦄, g.kindOf? n = some .pinNode → c ∈ g.connsOf n → g.isSink c = true → d ∈ g.refsOf c →
    d ∉ g.connsOf n

theorem Fresh.driversAt_named (hg : g.Fresh K) (hk : g.hasKind isNamed n) (hc : c ∈ g.connsOf n)
    (hs : g.isSink c) (hd : g.refsOf c = [d]) : g.isDerived n ∧ g.driversAt n = [d] :=
  driversAt_of_sole (hg.nodup_conns n) hk (hg.unmerged n) hc hs
    (fun _ he hs' => hg.single hk he hc hs' hs) hd

theorem Fresh.repeats (hg : g.Fresh K) (hk : g.hasKind isNamed n) (hc : c ∈ g.connsOf n) (hs : g.isSink c)
    (hd : g.refsOf c = [d]) (hx : x ∈ g.connsOf n) (hout : g.isOutput x) : g.Repeats d x := by
  obtain ⟨hder, hdrv⟩ := hg.driversAt_named hk hc hs hd
  exact ⟨n, hder, hk, hx, hout, hdrv⟩

/-- A pin node that reads itself has no value. -/
theorem Fresh.selfless (hg : g.Fresh K) : g.Selfless := by
  intro n c d hk hc hs hd hdn
  have hnamed : g.hasKind isNamed n := hasKind_of hk rfl
  obtain ⟨hder, hdrv⟩ := hg.driversAt_named hnamed hc hs (hg.refsOf_eq_singleton hs hd)
  obtain ⟨b, hb⟩ := hg.settled (fun _ => false) hs hd
  exact not_feeds_self (hb.acc hg.toOwned) ⟨n, hder, hdn, by simp [hdrv]⟩

/-- `g'` comes after `g` and shows the same values. -/
structure Refines (g g' : Network) : Prop where
  evolves : Evolves g g'
  preserves : ∀ v, Preserves v v g g'

theorem Refines.trans (h : Refines g g') (h' : Refines g' g'') : Refines g g'' where
  evolves := h.evolves.trans h'.evolves
  preserves v := (h.preserves v).trans (h'.preserves v) h.evolves h'.evolves

theorem Refines.refl (h : ∀ v, g.Settled v) : Refines g g where
  evolves := .refl g
  preserves v := .refl (h v)

end Network

end PldSynth
