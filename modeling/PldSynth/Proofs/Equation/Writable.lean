import PldSynth.Proofs.Equation.Writing

/-!
# When the equations can be written

The equations of a network in which no live gate is shared can be written exactly if every live gate has
as many driven inputs as its operator asks for, and no expression behind a live gate is nested too deeply
(`exists_equations_iff`).

A pass that names shared outputs shortens expressions: what counts afterwards are the chains of gates that
each have one reader only (`Stacked`), and these can be seen in the network that the passes start from
(`KeepsLogic.writable_iff`).
-/

namespace PldSynth.Network

open Relation

variable {K : NodeKind → Bool} {g g' : Network} {n m : NodeId} {c d o : ConnId} {name : String}
  {levels k : Nat}

/-- The gate has as many driven inputs as its operator asks for. -/
def GateFed (g : Network) (n : NodeId) : Prop :=
  match g.kindOf? n with
  | some .inverter => (g.wiredSinks n).length = 1
  | some (.gate _) => 2 ≤ (g.wiredSinks n).length
  | _ => True

/-- Every live gate has enough inputs, and the expression behind it is not nested too deeply. -/
def Writable (g : Network) : Prop :=
  ∀ ⦃n o⦄, g.hasKind NodeKind.isCombinational n = true → o ∈ g.connsOf n → g.isOutput o = true →
    g.Live o → g.GateFed n ∧ ¬ g.Nested Equation.maxDepth o

/-! ## One expression -/

theorem Nested.mono (h : g.Nested k o) : ∀ {j}, j ≤ k → g.Nested j o := by
  induction h with
  | flat =>
    intro j hj
    obtain rfl : j = 0 := by omega
    exact .flat
  | deeper h _ ih =>
    intro j hj
    cases j with
    | zero => exact .flat
    | succ j => exact .deeper h (ih (by omega))

/-- An expression around a deep one is deep. -/
theorem Nested.outer (h : g.Nested k d) (hpath : ReflTransGen g.FeedsGate d o) : g.Nested k o := by
  induction hpath with
  | refl => exact h
  | tail _ hfeeds ih => exact (Nested.deeper hfeeds ih).mono (by omega)

/-- Every driver of a gate has a term of its own, and the gate has enough inputs. -/
theorem ReadsOff.gate {read : ConnId → Term → Prop} {t : Term} (h : g.ReadsOff read m o t)
    (hm : g.hasKind NodeKind.isCombinational m) : g.GateFed m ∧ ∀ d ∈ g.driversAt m, ∃ t, read d t := by
  cases h with
  | signal hk =>
    rw [not_isCombinational_of_isBoundary hk] at hm
    cases hm
  | constant hk =>
    rw [hasKind, hk] at hm
    cases hm
  | invert hk hd ht =>
    refine ⟨?_, fun d' hd' => ?_⟩
    · rw [GateFed, hk, ← length_driversAt, hd]
      rfl
    · rw [hd, List.mem_singleton] at hd'
      exact ⟨_, hd' ▸ ht⟩
  | combine hk hlen ht =>
    refine ⟨?_, fun d hd => ?_⟩
    · rw [GateFed, hk, ← length_driversAt]
      exact hlen
    · rcases exists_right_of_forall₂ ht hd with ⟨t, -, ht⟩
      exact ⟨t, ht⟩

/-- A term that was read off an output ends within the levels, and all gates in it have enough inputs.
The induction is on the levels, as in the definition of the term. -/
theorem fed_of_termOf {w w' : NodeSet} {t : Term} (hg : g.Sound) (ho : o ∈ g.connsOf m)
    (h : g.termOf name levels w o = .ok (t, w')) :
    ¬ g.Nested levels o ∧ ∀ n, g.Under o n → g.GateFed n := by
  induction levels generalizing w w' o t m with
  | zero =>
    cases h
  | succ levels ih =>
    have hgate := (readsOff_termOf (hg.owner ho) h).gate
    have hdriver : ∀ {d}, g.FeedsGate d o →
        ¬ g.Nested levels d ∧ ∀ n, g.Under d n → g.GateFed n := by
      rintro d ⟨n, hn, ho', -, hd⟩
      obtain rfl := hg.eq_of_mem ho ho'
      rcases (hgate hn).2 d hd with ⟨t, w, w', ht⟩
      rcases hg.driver_spec hd with ⟨-, md, hmd⟩
      exact ih hmd ht
    constructor
    · intro hnested
      cases hnested with
      | deeper hfeeds hd => exact (hdriver hfeeds).1 hd
    · intro n hn
      cases hn with
      | here hn ho' => exact hg.eq_of_mem ho ho' ▸ (hgate (hg.eq_of_mem ho ho' ▸ hn)).1
      | inner hfeeds hd => exact (hdriver hfeeds).2 n hd

/-! ## All equations -/

section Equations

variable (hg : g.Tidy K) (htop : g.Collected) (hdesign : g.connsOf designId = [])
include hg htop hdesign

/-- What is live stands in an expression for which an equation is written. -/
theorem Live.exists_top (hlive : g.Live o) : ∃ c ∈ g.top, ∃ d ∈ g.refsOf c, ReflTransGen g.FeedsGate o d := by
  induction hlive with
  | leaves h =>
    rcases h with ⟨c, n, hr, hn⟩
    exact ⟨c, htop.mem_top hg.toSound hdesign hn hr, _, hr.refs, .refl⟩
  | @gate o c p n hr hn hp hout _ ih =>
    rcases ih with ⟨c', hc', d, hd, hpath⟩
    exact ⟨c', hc', d, hd, .head ⟨n, hn, hp, hout, hr.mem_driversAt hg.toWired⟩ hpath⟩

variable (hK : ∀ k, k.isCombinational → K k) (hu : g.Unshared)
  (hwf : WellFounded g.Feeds)
include hK hu hwf

/-- The equations can be written if and only if every live gate has enough inputs and no expression
behind a live gate is nested too deeply. -/
theorem exists_equations_iff : (∃ es, g.equations = .ok es) ↔ g.Writable := by
  constructor
  · rintro ⟨es, hes⟩ n o hn ho hout hlive
    -- the gate stands in the term of an equation
    rcases hlive.exists_top hg htop hdesign with ⟨c, hc, d, hd, hpath⟩
    rcases htop.read hg.toSound hc with ⟨b, _, -, hr⟩
    have hrefs := hg.refsOf_eq_singleton hr.sink hd
    have hmem : c ∈ g.top.filter fun c => (g.sourceOf? c).isSome :=
      List.mem_filter.mpr ⟨hc, by simp [hg.toWired.sourceOf? hr.sink hrefs]⟩
    rcases exists_right_of_forall₂ (equations_spec hes) hmem with ⟨e, -, -, -, d', hd', w, w', ht⟩
    obtain rfl : d = d' := Option.mem_unique (hg.toWired.sourceOf? hr.sink hrefs) hd'
    rcases hg.listed (hg.mirror hd) with ⟨m, hm⟩
    rcases fed_of_termOf hg.toSound hm ht with ⟨hdepth, hfed⟩
    refine ⟨hfed n ?_, fun hnested => hdepth (hnested.outer hpath)⟩
    clear hd hrefs hd' ht hm hdepth hfed
    induction hpath with
    | refl => exact .here hn ho hout
    | tail _ hfeeds ih => exact .inner hfeeds ih
  · intro h
    rcases ends_equations hg hK hu hwf htop with ⟨es, hes, -⟩ | ⟨e, -, c, hc, d, hd, name, -, hstop⟩
    · exact ⟨es, hes⟩
    exfalso
    rcases htop.read hg.toSound hc with ⟨b, _, hb, hr⟩
    have hlive : g.Live d := .leaves ⟨c, b, ⟨hr.mem, hr.sink, hd⟩, hb⟩
    cases hstop with
    | inverter hn hk _ hlen =>
      rcases hn.live hlive with ⟨p, hp, hout, hplive⟩
      have hfed := (h hn.isCombinational hp hout hplive).1
      rw [GateFed, hk] at hfed
      exact hlen hfed
    | gate hn hk _ hlen =>
      rcases hn.live hlive with ⟨p, hp, hout, hplive⟩
      have hfed := (h hn.isCombinational hp hout hplive).1
      rw [GateFed, hk] at hfed
      omega
    | nested hnested =>
      have hgate : g.GateOutput d := by
        cases hnested with
        | deeper hfeeds => exact hfeeds.gateOutput
      rcases hgate with ⟨n, hn, hdn, hout⟩
      exact (h hn hdn hout hlive).2 hnested

end Equations

/-! ## Chains of gates -/

/-- `k` gates stand behind the output `o`, each of them the only reader of the next. -/
inductive Stacked (g : Network) : Nat → ConnId → Prop
  | single {o d : ConnId} (h : g.FeedsGate d o) : Stacked g 1 o
  | more {k : Nat} {o d : ConnId} (h : g.FeedsGate d o) (hsole : g.SoleAt d) (hd : Stacked g k d) :
    Stacked g (k + 1) o

/-- Every live gate has enough inputs, and no chain of gates behind it is too long. -/
def Tractable (g : Network) : Prop :=
  ∀ ⦃n o⦄, g.hasKind NodeKind.isCombinational n = true → o ∈ g.connsOf n → g.isOutput o = true →
    g.Live o → g.GateFed n ∧ ¬ g.Stacked Equation.maxDepth o

theorem Stacked.feedsGate (h : g.Stacked k o) : ∃ d, g.FeedsGate d o := by
  cases h with
  | single h => exact ⟨_, h⟩
  | more h => exact ⟨_, h⟩

namespace KeepsLogic

variable (h : KeepsLogic g g') (hg : g.Tidy K)
include h

/-- If a gate still reads an output that has one reader afterwards, the output had one reader before:
any other reader would have stayed, or its place would have been taken outside of the logic. -/
theorem soleAt_before (hg : g.Tidy K) (hg' : g'.Owned) (ho : g.GateOutput o) (hsole : g'.SoleAt o)
    (hn : g'.hasKind NodeKind.isCombinational n) (hr : g'.ReadAt o c n) : g.SoleAt o := by
  have hleaves : ¬ g'.Leaves o := by
    rintro ⟨x, b, hx, hb⟩
    obtain rfl := hsole hx hr
    rw [hg'.eq_of_mem hr.mem hx.mem, not_isCombinational_of_isBoundary hb] at hn
    cases hn
  have hall : ∀ {x m}, g.ReadAt o x m → x = c := by
    intro x m hx
    rcases hg.isBoundary_or_isCombinational hx.mem hx.sink with hb | hm
    · exact absurd (h.leaves ho ⟨x, m, hx, hb⟩) hleaves
    · rcases h.kept ho hm hx with hx' | hl
      · exact hsole hx' hr
      · exact absurd hl hleaves
  intro x x' m m' hx hx'
  rw [hall hx, hall hx']

variable (hd : g.GatesDriven) (hd' : g'.GatesDriven)
include hg hd hd'

/-- A gate has enough inputs afterwards exactly if it had enough before. -/
theorem gateFed_iff (hn : g.hasKind NodeKind.isCombinational n) : g'.GateFed n ↔ g.GateFed n := by
  have hn' := h.evolves.keeps_kind hn
  have hsinks : g'.wiredSinks n = g.wiredSinks n := by
    rw [wiredSinks, h.gates hn]
    refine List.filter_congr fun c hc => ?_
    rw [h.evolves.isSink (hg.conn_isSome hc)]
    cases hs : g.isSink c with
    | false => rfl
    | true =>
      rcases hd hn hc hs with ⟨d, hrefs⟩
      rcases hd' hn' (by rwa [h.gates hn]) ((h.evolves.isSink (hg.conn_isSome hc)).trans hs) with
        ⟨d', hrefs'⟩
      rw [hrefs, hrefs']
      rfl
  rw [GateFed, GateFed, h.evolves.kind (isSome_of_hasKind hn), hsinks]

/-- A gate with a driver afterwards had one before, and the other way around. -/
theorem exists_feedsGate_iff (hg' : g'.Wired) (ho : g.GateOutput o) :
    (∃ d, g'.FeedsGate d o) ↔ ∃ d, g.FeedsGate d o := by
  rcases ho with ⟨n, hn, hmem, hout⟩
  have hn' := h.evolves.keeps_kind hn
  have hout' := h.evolves.keeps_output hout
  have hmem' : o ∈ g'.connsOf n := by rwa [h.gates hn]
  constructor
  · rintro ⟨d, m, hm, ho, -, hdm⟩
    rcases readAt_of_mem_driversAt hdm with ⟨c, hr⟩
    have hm0 := h.isCombinational hm hr.mem
    have hc := hr.mem
    rw [h.gates hm0] at hc ho
    have hs := (h.evolves.isSink (hg.conn_isSome hc)).symm.trans hr.sink
    rcases hd hm0 hc hs with ⟨d0, hrefs⟩
    exact ⟨d0, m, hm0, ho, hout, ReadAt.mem_driversAt ⟨hc, hs, by simp [hrefs]⟩ hg.toWired⟩
  · rintro ⟨d, m, hm, ho, -, hdm⟩
    obtain rfl := hg.eq_of_mem hmem ho
    rcases readAt_of_mem_driversAt hdm with ⟨c, hr⟩
    have hc : c ∈ g'.connsOf n := by
      rw [h.gates hn]
      exact hr.mem
    have hs := (h.evolves.isSink (hg.conn_isSome hr.mem)).trans hr.sink
    rcases hd' hn' hc hs with ⟨d0, hrefs⟩
    exact ⟨d0, n, hn', hmem', hout', ReadAt.mem_driversAt ⟨hc, hs, by simp [hrefs]⟩ hg'⟩

/-- What is nested afterwards was a chain of gates with one reader each. -/
theorem stacked_of_nested (hg' : g'.Sound) (hu : g'.Unshared) (ho : g.GateOutput o) (hlive : g'.Live o)
    (hnested : g'.Nested (k + 1) o) : g.Stacked (k + 1) o := by
  induction k generalizing o with
  | zero =>
    cases hnested with
    | deeper hfeeds =>
      rcases (h.exists_feedsGate_iff hg hd hd' hg'.toWired ho).mp ⟨_, hfeeds⟩ with ⟨d, hfeeds⟩
      exact .single hfeeds
  | succ k ih =>
    cases hnested with
    | @deeper _ _ d hfeeds hrest =>
      have hgate' : g'.GateOutput d := by
        cases hrest with
        | deeper hf => exact hf.gateOutput
      have hgate := h.gateOutput_of hg.toOwned hgate'
      have hlive' := hfeeds.live hlive
      rcases hfeeds with ⟨n, hn, hmem, hout, hdn⟩
      rcases readAt_of_mem_driversAt hdn with ⟨c, hr⟩
      have hn0 := h.isCombinational hn hr.mem
      rw [h.gates hn0] at hmem
      rw [h.evolves.isOutput (hg.conn_isSome hmem)] at hout
      have hread := h.logic hgate hn0 hr
      exact .more ⟨n, hn0, hmem, hout, hread.mem_driversAt hg.toWired⟩
        (h.soleAt_before hg hg'.toOwned hgate (hu hgate' hlive') hn hr) (ih hgate hlive' hrest)

/-- A chain of gates with one reader each stays. -/
theorem nested_of_stacked (hg' : g'.Wired) (hstack : g.Stacked k o) : g'.Nested k o := by
  induction hstack with
  | single hfeeds =>
    rcases (h.exists_feedsGate_iff hg hd hd' hg' hfeeds.gateOutput).mpr ⟨_, hfeeds⟩ with ⟨d, hfeeds⟩
    exact .deeper hfeeds .flat
  | @more k o d hfeeds hsole hrest ih =>
    rcases hrest.feedsGate with ⟨_, hnext⟩
    rcases hfeeds with ⟨n, hn, hmem, hout, hdn⟩
    rcases readAt_of_mem_driversAt hdn with ⟨c, hr⟩
    refine .deeper ⟨n, h.evolves.keeps_kind hn, ?_,
      h.evolves.keeps_output hout, ?_⟩ ih
    · rwa [h.gates hn]
    · exact (h.stays hnext.gateOutput hsole hn hr).mem_driversAt hg'

/-- Whether the equations can be written at the end can be seen at the start. -/
theorem writable_iff (hg' : g'.Sound) (hu : g'.Unshared) : g'.Writable ↔ g.Tractable := by
  constructor
  · intro hw n o hn ho hout hlive
    have hgate : g.GateOutput o := ⟨n, hn, ho, hout⟩
    have hn' := h.evolves.keeps_kind hn
    have ho' : o ∈ g'.connsOf n := by rwa [h.gates hn]
    rcases hw hn' ho' (h.evolves.keeps_output hout)
      ((h.live_iff hg.toOwned hgate).mpr hlive) with ⟨hfed, hdepth⟩
    exact ⟨(h.gateFed_iff hg hd hd' hn).mp hfed,
      fun hstack => hdepth (h.nested_of_stacked hg hd hd' hg'.toWired hstack)⟩
  · intro ht n o hn ho hout hlive
    have hgate := h.gateOutput_of hg.toOwned ⟨n, hn, ho, hout⟩
    have hn0 := h.isCombinational hn ho
    rw [h.gates hn0] at ho
    rw [h.evolves.isOutput (hg.conn_isSome ho)] at hout
    rcases ht hn0 ho hout ((h.live_iff hg.toOwned hgate).mp hlive) with ⟨hfed, hdepth⟩
    exact ⟨(h.gateFed_iff hg hd hd' hn0).mpr hfed,
      fun hnested => hdepth (h.stacked_of_nested hg hd hd' hg' hu hgate hlive hnested)⟩

end KeepsLogic

end PldSynth.Network
