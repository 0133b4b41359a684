import PldSynth.Proofs.Equation.Writable
import PldSynth.Proofs.Network.Cycle
import PldSynth.Proofs.Network.Taps

/-!
# Networks that differ in their numbering only

Two networks resemble each other if their nodes and connections can be paired so that pairs are of the
same kind and direction and read pairs. The order of the nodes is left open, and so are all names. Then
what is said about one in terms of its gates, registers and ports holds of the other.
-/

namespace PldSynth.Network

open Relation

variable {K : NodeKind → Bool} {g g' : Network} {n n' n1 n2 m : NodeId} {c c' d d' o o' p p' x : ConnId}
  {N : NodeId → NodeId → Prop} {C : ConnId → ConnId → Prop} {P : NodeKind → Bool} {k : Nat}
  {u v v' : NodeId}

/-- Every node of `g` that has connections has its like in `g'`, connection by connection, and what a
connection reads is read by its like. Constants that nothing reads may be left out. -/
structure Mirrors (N : NodeId → NodeId → Prop) (C : ConnId → ConnId → Prop) (g g' : Network) : Prop where
  node : ∀ {n c}, c ∈ g.connsOf n → g.isSink c = true ∨ g.kindOf? n ≠ some .constant → ∃ n', N n n'
  kind : ∀ {n n'}, N n n' → g'.kindOf? n' = g.kindOf? n
  constant : ∀ {n n'}, N n n' → g.kindOf? n = some .constant → g'.constantOf? n' = g.constantOf? n
  conns : ∀ {n n'}, N n n' → List.Forall₂ C (g.connsOf n) (g'.connsOf n')
  owner : ∀ {c c' n}, C c c' → c ∈ g.connsOf n → ∃ n', N n n' ∧ c' ∈ g'.connsOf n'
  direction : ∀ {c c'}, C c c' → g'.directionOf? c' = g.directionOf? c
  refs : ∀ {c c' d}, C c c' → g.isSink c = true → d ∈ g.refsOf c → ∃ d' ∈ g'.refsOf c', C d d'
  unique : ∀ {c c1 c2}, C c c1 → C c c2 → c1 = c2

namespace Mirrors

variable (h : Mirrors N C g g')
include h

theorem isSink (hc : C c c') : g'.isSink c' = g.isSink c := by
  rw [Network.isSink, h.direction hc, Network.isSink]

theorem isOutput (hc : C c c') : g'.isOutput c' = g.isOutput c := by
  rw [Network.isOutput, h.direction hc, Network.isOutput]

theorem isInput (hc : C c c') : g'.isInput c' = g.isInput c := by
  rw [Network.isInput, h.direction hc, Network.isInput]

theorem hasKind (hn : N n n') : g'.hasKind P n' = g.hasKind P n := by
  rw [Network.hasKind, h.kind hn, Network.hasKind]

theorem exists_mem (hn : N n n') (hc : c ∈ g.connsOf n) : ∃ c' ∈ g'.connsOf n', C c c' :=
  exists_right_of_forall₂ (h.conns hn) hc

/-- The like of a connection belongs to the like of its node. -/
theorem mem (hn : N n n') (hc : c ∈ g.connsOf n) (hcc : C c c') : c' ∈ g'.connsOf n' := by
  rcases h.exists_mem hn hc with ⟨c1, hc1, hcc1⟩
  rwa [h.unique hcc hcc1]

/-- A node with connections has one like only. -/
theorem node_unique (hg' : g'.Owned) (hc : c ∈ g.connsOf n) (hn1 : N n n1) (hn2 : N n n2) : n1 = n2 := by
  rcases h.exists_mem hn1 hc with ⟨c1, hc1, hcc1⟩
  exact hg'.eq_of_mem hc1 (h.mem hn2 hc hcc1)

/-- A node with connections that has a certain kind has its like. -/
theorem exists_like (hc : c ∈ g.connsOf n) (hn : g.hasKind P n) (hP : P .constant = false) :
    ∃ n' c', N n n' ∧ c' ∈ g'.connsOf n' ∧ C c c' := by
  have hk : g.kindOf? n ≠ some .constant := by
    intro hk
    rcases hasKind_iff.mp hn with ⟨k, hk', hp⟩
    rw [Option.mem_unique hk' hk, hP] at hp
    cases hp
  rcases h.node hc (.inr hk) with ⟨n', hnn⟩
  rcases h.exists_mem hnn hc with ⟨c', hc', hcc⟩
  exact ⟨n', c', hnn, hc', hcc⟩

theorem readAt (hr : g.ReadAt o c n) (ho : C o o') : ∃ c' n', g'.ReadAt o' c' n' ∧ C c c' ∧ N n n' := by
  rcases h.node hr.mem (.inl hr.sink) with ⟨n', hn⟩
  rcases h.exists_mem hn hr.mem with ⟨c', hc', hcc⟩
  rcases h.refs hcc hr.sink hr.refs with ⟨d, hd, hod⟩
  rw [h.unique hod ho] at hd
  exact ⟨c', n', ⟨hc', (h.isSink hcc).trans hr.sink, hd⟩, hcc, hn⟩

/-! ## Gates -/

theorem gateOutput (hgate : g.GateOutput o) (ho : C o o') : g'.GateOutput o' := by
  rcases hgate with ⟨n, hn, hmem, hout⟩
  rcases h.owner ho hmem with ⟨n', hnn, hmem'⟩
  exact ⟨n', (h.hasKind hnn).trans hn, hmem', (h.isOutput ho).trans hout⟩

theorem live (hlive : g.Live o) (ho : C o o') : g'.Live o' := by
  induction hlive generalizing o' with
  | leaves hl =>
    rcases hl with ⟨c, n, hr, hn⟩
    rcases h.readAt hr ho with ⟨c', n', hr', -, hnn⟩
    exact .leaves ⟨c', n', hr', (h.hasKind hnn).trans hn⟩
  | gate hr hn hp hout _ ih =>
    rcases h.readAt hr ho with ⟨c', n', hr', -, hnn⟩
    rcases h.exists_mem hnn hp with ⟨p', hp', hpp⟩
    exact .gate hr' ((h.hasKind hnn).trans hn) hp' ((h.isOutput hpp).trans hout) (ih hpp)

/-- What drives an input of a node has its like among the drivers of the like of the node. -/
theorem driversAt (hg' : g'.Wired) (hn : N n n') (hd : d ∈ g.driversAt n) :
    ∃ d' ∈ g'.driversAt n', C d d' := by
  rcases readAt_of_mem_driversAt hd with ⟨c, hr⟩
  rcases h.exists_mem hn hr.mem with ⟨c', hc', hcc⟩
  rcases h.refs hcc hr.sink hr.refs with ⟨d', hd', hdd⟩
  exact ⟨d', ReadAt.mem_driversAt ⟨hc', (h.isSink hcc).trans hr.sink, hd'⟩ hg', hdd⟩

theorem feedsGate (hg' : g'.Wired) (hf : g.FeedsGate d o) (ho : C o o') :
    ∃ d', g'.FeedsGate d' o' ∧ C d d' := by
  rcases hf with ⟨n, hn, hmem, hout, hd⟩
  rcases h.owner ho hmem with ⟨n', hnn, hmem'⟩
  rcases h.driversAt hg' hnn hd with ⟨d', hd', hdd⟩
  exact ⟨d', ⟨n', (h.hasKind hnn).trans hn, hmem', (h.isOutput ho).trans hout, hd'⟩, hdd⟩

theorem nested (hg' : g'.Wired) (hk : g.Nested k o) (ho : C o o') : g'.Nested k o' := by
  induction hk generalizing o' with
  | flat => exact .flat
  | deeper hf _ ih =>
    rcases h.feedsGate hg' hf ho with ⟨d', hf', hdd⟩
    exact .deeper hf' (ih hdd)

/-- A gate that feeds another one has its like before the like of the other. -/
theorem gateFeeds (hg : g.Sound) (hg' : g'.Sound) (hf : g.GateFeeds u v) (hv : N v v') :
    ∃ u', N u u' ∧ g'.GateFeeds u' v' := by
  rcases hf with ⟨hu, hgate, d, hd, hown⟩
  rcases h.driversAt hg'.toWired hv hd with ⟨d', hd', hdd⟩
  rcases readAt_of_mem_driversAt hd' with ⟨c', hr'⟩
  rcases hg.driver_spec hd with ⟨-, m, hm⟩
  obtain rfl : m = u := Option.mem_unique (hg.owner hm) hown
  rcases h.owner hdd hm with ⟨u', huu, hmem'⟩
  refine ⟨u', huu, hg'.mem_gates hmem' ?_, hg'.mem_gates hr'.mem ?_, d', hd', hg'.owner hmem'⟩
  · exact (h.hasKind huu).trans (List.mem_filter.mp hu).2
  · exact (h.hasKind hv).trans (List.mem_filter.mp hgate).2

theorem transGen_gateFeeds (hg : g.Sound) (hg' : g'.Sound) (hf : TransGen g.GateFeeds u v) (hv : N v v') :
    ∃ u', N u u' ∧ TransGen g'.GateFeeds u' v' := by
  induction hf generalizing v' with
  | single hf =>
    rcases h.gateFeeds hg hg' hf hv with ⟨u', hu, hf'⟩
    exact ⟨u', hu, .single hf'⟩
  | tail _ hf ih =>
    rcases h.gateFeeds hg hg' hf hv with ⟨w', hw, hf'⟩
    rcases ih hw with ⟨u', hu, hpath⟩
    exact ⟨u', hu, hpath.tail hf'⟩

/-! ## Ports and controls -/

theorem portReads (hr : g.PortReads o c) (ho : C o o') : ∃ c', g'.PortReads o' c' ∧ C c c' := by
  rcases hr with ⟨n, hn, hr⟩
  rcases h.readAt hr ho with ⟨c', n', hr', hcc, hnn⟩
  exact ⟨c', ⟨n', (h.hasKind hnn).trans hn, hr'⟩, hcc⟩

end Mirrors

/-- Two networks that differ in their numbering and their names only. -/
structure Resembles (N : NodeId → NodeId → Prop) (C : ConnId → ConnId → Prop) (g g' : Network) : Prop where
  forth : Mirrors N C g g'
  back : Mirrors (flip N) (flip C) g' g

namespace Resembles

theorem symm (h : Resembles N C g g') : Resembles (flip N) (flip C) g' g :=
  ⟨h.back, h.forth⟩

/-- There is a circle of gates in both or in none. -/
theorem acyclic (h : Resembles N C g g') (hg : g.Sound) (hg' : g'.Sound)
    (hfree : ∀ v, ¬ TransGen g.GateFeeds v v) (v' : NodeId) : ¬ TransGen g'.GateFeeds v' v' := by
  intro hcircle
  have hconn : ∃ c', c' ∈ g'.connsOf v' ∧ g'.isSink c' := by
    rcases TransGen.tail'_iff.mp hcircle with ⟨w, -, -, -, d, hd, -⟩
    rcases readAt_of_mem_driversAt hd with ⟨c', hr⟩
    exact ⟨c', hr.mem, hr.sink⟩
  rcases hconn with ⟨c', hc', hs⟩
  rcases h.back.node hc' (.inl hs) with ⟨v, hv⟩
  rcases h.back.transGen_gateFeeds hg' hg hcircle hv with ⟨u, hu, hpath⟩
  rw [h.back.node_unique hg.toOwned hc' hu hv] at hpath
  exact hfree v hpath

variable (h : Resembles N C g g')
include h

theorem soleAt (hsole : g.SoleAt o) (ho : C o o') : g'.SoleAt o' := by
  intro c c' n n' hr hr'
  rcases h.back.readAt hr ho with ⟨x, m, hx, hxc, -⟩
  rcases h.back.readAt hr' ho with ⟨x', m', hx', hxc', -⟩
  rw [hsole hx hx'] at hxc
  exact h.forth.unique hxc hxc'

theorem unshared (hu : g.Unshared) : g'.Unshared := by
  intro o' hgate hlive
  have hmem : ∃ o, C o o' := by
    rcases hgate with ⟨n', hn, ho', -⟩
    rcases h.back.exists_like ho' hn rfl with ⟨-, o, -, -, ho⟩
    exact ⟨o, ho⟩
  rcases hmem with ⟨o, ho⟩
  exact h.soleAt (hu (h.back.gateOutput hgate ho) (h.back.live hlive ho)) ho

/-- The like of a gate with enough inputs has enough inputs. -/
theorem gateFed (hn : N n n') (hfed : g.GateFed n) : g'.GateFed n' := by
  have hempty : ∀ {c c'}, C c c' → ((g.isSink c && !(g.refsOf c).isEmpty) ↔
      (g'.isSink c' && !(g'.refsOf c').isEmpty)) := by
    intro c c' hc
    simp only [Bool.and_eq_true, Bool.not_eq_true', List.isEmpty_eq_false_iff_exists_mem]
    constructor
    · rintro ⟨hs, d, hd⟩
      rcases h.forth.refs hc hs hd with ⟨d', hd', -⟩
      exact ⟨(h.forth.isSink hc).trans hs, d', hd'⟩
    · rintro ⟨hs, d', hd'⟩
      rcases h.back.refs hc hs hd' with ⟨d, hd, -⟩
      exact ⟨(h.forth.isSink hc).symm.trans hs, d, hd⟩
  have hlen : (g'.wiredSinks n').length = (g.wiredSinks n).length :=
    (List.rel_filter (fun _ _ hc => hempty hc) (h.forth.conns hn)).length_eq.symm
  unfold GateFed at hfed ⊢
  rwa [h.forth.kind hn, hlen]

theorem stacked (hg' : g'.Wired) (hstack : g.Stacked k o) (ho : C o o') : g'.Stacked k o' := by
  induction hstack generalizing o' with
  | single hf =>
    rcases h.forth.feedsGate hg' hf ho with ⟨d', hf', -⟩
    exact .single hf'
  | more hf hsole _ ih =>
    rcases h.forth.feedsGate hg' hf ho with ⟨d', hf', hdd⟩
    exact .more hf' (h.soleAt hsole hdd) (ih hdd)

/-- What holds of all live gates, with the chains behind them, holds in both. -/
theorem tractable (hg : g.Wired) (ht : g.Tractable) : g'.Tractable := by
  intro n' o' hn ho' hout hlive
  rcases h.back.exists_like ho' hn rfl with ⟨n, o, hnn, ho, hoo⟩
  rcases ht ((h.back.hasKind hnn).trans hn) ho ((h.back.isOutput hoo).trans hout) (h.back.live hlive hoo)
    with ⟨hfed, hdepth⟩
  exact ⟨h.gateFed hnn hfed, fun hstack => hdepth (h.symm.stacked hg hstack hoo)⟩

/-- The same with the depth of the expressions. -/
theorem writable (hg : g.Wired) (hw : g.Writable) : g'.Writable := by
  intro n' o' hn ho' hout hlive
  rcases h.back.exists_like ho' hn rfl with ⟨n, o, hnn, ho, hoo⟩
  rcases hw ((h.back.hasKind hnn).trans hn) ho ((h.back.isOutput hoo).trans hout) (h.back.live hlive hoo)
    with ⟨hfed, hdepth⟩
  exact ⟨h.gateFed hnn hfed, fun hnested => hdepth (h.back.nested hg hnested hoo)⟩

theorem onePort (hone : g.OnePort o) (ho : C o o') : g'.OnePort o' := by
  rcases hone with ⟨c, hc⟩
  rcases h.forth.portReads ((hc c).mpr rfl) ho with ⟨c', hr', hcc⟩
  refine ⟨c', fun x' => ⟨fun hx' => ?_, fun hx' => hx' ▸ hr'⟩⟩
  rcases h.back.portReads hx' ho with ⟨x, hx, hxx⟩
  rw [(hc x).mp hx] at hxx
  exact h.forth.unique hxx hcc

/-- As long as nothing was taken over, a register jams in both or in none. -/
theorem noJams (hg : g.Raw K) (hg' : g'.Raw K) (hno : g.NoJams) : g'.NoJams := by
  intro r' o' c' hr ho' hout hj
  rw [jams_iff_of_nothing hg'.unmerged] at hj
  rcases hj with ⟨hport, hdir, hsole, hbuffers⟩
  rcases h.back.exists_like ho' hr rfl with ⟨r, o, hrr, ho, hoo⟩
  rcases h.back.portReads hport hoo with ⟨c, hc, hcc⟩
  refine hno ((h.back.hasKind hrr).trans hr) ho ((h.back.isOutput hoo).trans hout)
    ((jams_iff_of_nothing hg.unmerged).mpr ⟨hc, ?_, fun x hx => ?_, fun b x p hb hx hp hpo hone => ?_⟩)
  · exact (h.back.direction hcc).trans hdir
  · rcases h.forth.portReads hx hoo with ⟨x', hx', hxx⟩
    rw [hsole x' hx'] at hxx
    exact h.back.unique hxx hcc
  · rcases h.forth.readAt hx hoo with ⟨x', b', hx', -, hbb⟩
    rcases h.forth.exists_mem hbb hp with ⟨p', hp', hpp⟩
    exact hbuffers b' x' p' ((h.forth.kind hbb).trans hb) hx' hp' ((h.forth.isOutput hpp).trans hpo)
      (h.onePort hone hpp)

/-- The controls of the latches are idle in both or in none, if they bear the same names. -/
theorem controlsIdle (hg' : g'.Wired) (hname : ∀ {c c'}, C c c' → g'.connNameOf? c' = g.connNameOf? c)
    (hidle : g.ControlsIdle) : g'.ControlsIdle := by
  intro n' c' control hk hc' hin hcontrol
  rcases h.back.node hc' (.inl (isSink_of_isInput hin)) with ⟨n, hnn⟩
  rcases h.back.exists_mem hnn hc' with ⟨c, hc, hcc⟩
  have hin0 := (h.back.isInput hcc).trans hin
  rcases (hidle ((h.back.kind hnn).trans hk) hc hin0 ((hname hcc).symm.trans hcontrol)).driver with
    ⟨d, m, hd, hm, hkm, hzero⟩
  rcases h.forth.refs hcc (isSink_of_isInput hin0) (d := d) (by simp [hd]) with ⟨d', hd', hdd⟩
  rcases h.forth.owner hdd hm with ⟨m', hmm, hm'⟩
  exact ⟨hk, ⟨control, hcontrol⟩, d', m', hg'.refsOf_eq_singleton (isSink_of_isInput hin) hd', hm',
    (h.forth.kind hmm).trans hkm, (h.forth.constant hmm hkm).trans hzero⟩

end Resembles

end PldSynth.Network
