import PldSynth.Proofs.Equation.Solution
import PldSynth.Proofs.Network.Expressions
import PldSynth.Proofs.Network.Supply

/-!
# Every gate is written once

The equations are written one after the other, and a gate that was written is not written again. If no
live gate is read twice, this rule never applies: each expression is written with exactly the gates behind it, or
writing stops at a gate with the wrong number of inputs or at an expression that is nested too deeply
(`ends_equations`). Over all equations, each live gate is written once.
-/

namespace PldSynth

open Attempt List

/-! ## Gates that were written -/

/-- Exactly the gates in `S` were written, each of them once; `w` are the gates written before, `w'`
those written after. -/
structure Writes (S : NodeId → Prop) (gates : List NodeId) (w w' : NodeSet) : Prop where
  nodup : gates.Nodup
  mem : ∀ {n}, n ∈ gates ↔ S n
  isNew : ∀ {n}, w'.isNew n = true ↔ w.isNew n = true ∧ n ∉ gates

namespace Writes

variable {S S' : NodeId → Prop} {l l' : List NodeId} {w w' w'' : NodeSet} {m : NodeId}

theorem nothing (h : ∀ n, ¬ S n) : Writes S [] w w where
  nodup := .nil
  mem := by simp [h]
  isNew := by simp

theorem insert : Writes (· = m) [m] w (w.insert m) where
  nodup := nodup_singleton m
  mem := mem_singleton
  isNew {n} := by
    by_cases hn : n = m
    · simp [hn, NodeSet.isNew_insert_self]
    · simp [hn, NodeSet.isNew_insert_of_ne hn]

theorem append (h : Writes S l w w') (h' : Writes S' l' w' w'') (hdisj : ∀ n, S n → ¬ S' n) :
    Writes (fun n => S n ∨ S' n) (l ++ l') w w'' where
  nodup := by
    refine h.nodup.append h'.nodup fun n hn hn' => ?_
    exact hdisj n (h.mem.mp hn) (h'.mem.mp hn')
  mem := by simp [h.mem, h'.mem]
  isNew := by simp [h.isNew, h'.isNew, and_assoc]

theorem congr (h : Writes S l w w') (hS : ∀ n, S n ↔ S' n) : Writes S' l w w' where
  nodup := h.nodup
  mem {n} := h.mem.trans (hS n)
  isNew := h.isNew

/-- A loop writes all gates of its items if each step writes those of one item. -/
theorem foldlM {α β : Type} {E : NetworkError → Prop} {gatesOf : β → List NodeId}
    {step : List β × NodeSet → α → Attempt (List β × NodeSet)} {S : α → NodeId → Prop} {l : List α}
    {s : List β × NodeSet} (hstep : ∀ x ∈ l, ∀ s, (∀ n, S x n → s.2.isNew n) → Ends E
      (fun s' => ∃ ys, s'.1 = s.1 ++ ys ∧ Writes (S x) (ys.flatMap gatesOf) s.2 s'.2) (step s x))
    (hdisj : l.Pairwise fun x y => ∀ n, S x n → ¬ S y n)
    (hnew : ∀ x ∈ l, ∀ n, S x n → s.2.isNew n) : Ends E
      (fun s' => ∃ ys, s'.1 = s.1 ++ ys ∧
        Writes (fun n => ∃ x ∈ l, S x n) (ys.flatMap gatesOf) s.2 s'.2) (l.foldlM step s) := by
  induction l generalizing s with
  | nil => exact .ok ⟨[], by simp, nothing (by simp)⟩
  | cons x l ih =>
    rw [pairwise_cons] at hdisj
    refine (hstep x mem_cons_self s (hnew x mem_cons_self)).bind fun s' => ?_
    rintro ⟨ys, hys, hw⟩
    -- what comes later was not written by the first step
    have hnew' : ∀ y ∈ l, ∀ n, S y n → s'.2.isNew n := by
      intro y hy n hn
      refine hw.isNew.mpr ⟨hnew y (mem_cons_of_mem _ hy) n hn, fun hmem => ?_⟩
      exact hdisj.1 y hy n (hw.mem.mp hmem) hn
    refine (ih (fun y hy => hstep y (mem_cons_of_mem _ hy)) hdisj.2 hnew').mono (fun _ he => he)
      fun s'' => ?_
    rintro ⟨zs, hzs, hw'⟩
    refine ⟨ys ++ zs, by simp [hzs, hys], ?_⟩
    rw [flatMap_append]
    refine (hw.append hw' ?_).congr (by simp)
    rintro n hn ⟨y, hy, hyn⟩
    exact hdisj.1 y hy n hn hyn

end Writes

theorem Term.gatesOf_eq (ts : List Term) : Term.gatesOf ts = ts.flatMap Term.gates := by
  induction ts with
  | nil => rfl
  | cons t ts ih => rw [Term.gatesOf, ih, flatMap_cons]

namespace Network

variable {K : NodeKind → Bool} {g : Network} {n m : NodeId} {c d o : ConnId} {name : String}
  {levels : Nat} {e : NetworkError}

/-! ## One expression -/

/-- Why the expression behind the output `o` cannot be written with `levels` levels. -/
inductive Unwritable (g : Network) (name : String) (levels : Nat) (o : ConnId) : NetworkError → Prop
  | inverter {n s} (hn : g.Under o n) (hk : g.kindOf? n = some .inverter)
    (hs : g.nodeNameOf? n = some s) (hlen : (g.wiredSinks n).length ≠ 1) :
    Unwritable g name levels o (.miscount s (.inverterInputs (g.wiredSinks n).length))
  | gate {n op s} (hn : g.Under o n) (hk : g.kindOf? n = some (.gate op))
    (hs : g.nodeNameOf? n = some s) (hlen : (g.wiredSinks n).length < 2) :
    Unwritable g name levels o (.miscount s (.gateInputs (.gate op) (g.wiredSinks n).length))
  | nested (h : g.Nested levels o) : Unwritable g name levels o (.tooDeep name Equation.maxDepth)

/-- What cannot be written cannot be part of a larger expression. -/
theorem Unwritable.outer (h : g.Unwritable name levels d e) (hd : g.FeedsGate d o) :
    g.Unwritable name (levels + 1) o e := by
  cases h with
  | inverter hn hk hs hlen => exact .inverter (.inner hd hn) hk hs hlen
  | gate hn hk hs hlen => exact .gate (.inner hd hn) hk hs hlen
  | nested h => exact .nested (.deeper hd h)

/-- A node has as many drivers as connections that are driven. -/
theorem length_driversAt : (g.driversAt n).length = (g.wiredSinks n).length := by
  rw [driversAt, wiredSinks]
  induction g.connsOf n with
  | nil => rfl
  | cons c cs ih =>
    cases hs : g.isSink c with
    | false => simpa [hs] using ih
    | true => cases hr : g.refsOf c <;> simpa [hs, hr] using ih

theorem soleDriver?_of_sole (hg : g.Wired) (hc : g.isSink c) :
    g.soleDriver? c = .ok (g.refsOf c).head? := by
  rcases Option.isSome_iff_exists.mp (isSome_of_isSink hc) with ⟨x, hx⟩
  have hrefs := refsOf_of_conn? hx
  rw [soleDriver?, conn_eq_ok.mpr hx, ok_bind]
  rcases hg.eq_nil_or_singleton hc with hnil | ⟨d, hd⟩
  · rw [← hrefs, hnil]
    rfl
  · rw [← hrefs, hd]
    rfl

theorem gateDrivers_of_sound (hg : g.Wired) (hn : (g.node? n).isSome) :
    g.gateDrivers n = .ok (g.driversAt n) := by
  have hall : ∃ rs, ((g.connsOf n).filter g.isSink).mapM g.soleDriver? = .ok rs :=
    exists_mapM fun c hc => ⟨_, soleDriver?_of_sole hg (mem_filter.mp hc).2⟩
  rcases hall with ⟨rs, hrs⟩
  have hok : ∃ ds, g.gateDrivers n = .ok ds := by
    refine exists_bind (sinks_eq_ok.mpr ⟨hn, rfl⟩) (exists_bind hrs ⟨_, rfl⟩)
  rcases hok with ⟨ds, hds⟩
  rw [hds, gateDrivers_eq_ok hds]

theorem claimGate_of_isNew {w : NodeSet} (h : w.isNew n) : g.claimGate name w n = .ok (w.insert n) := by
  rw [claimGate, if_pos h]
  rfl

section Expression

variable (hg : g.Tidy K) (hK : ∀ k, k.isCombinational → K k) (hu : g.Unshared)
  (hwf : WellFounded g.Feeds)
include hg hK hwf

section Gate

variable {w w' : NodeSet} (hm : g.hasKind NodeKind.isCombinational m) (ho : o ∈ g.connsOf m)
  (hout : g.isOutput o) (hlive : g.Live o)
include hm ho hout hlive

/-- First the gate itself is written, then what is behind its inputs. -/
theorem writes_gate {l : List NodeId}
    (h : Writes (fun n => ∃ d ∈ g.driversAt m, g.Under d n) l (w.insert m) w') :
    Writes (g.Under o) (m :: l) w w' := by
  refine (Writes.insert.append h ?_).congr fun n => (under_iff hg.toOwned hm ho hout).symm
  rintro n rfl ⟨d, hd, hn⟩
  exact not_under_driver hg hK hwf hm ho hout hlive hd hn

/-- Behind the inputs of a gate nothing is written when the gate itself has been. -/
theorem isNew_insert_driver (hnew : ∀ n, g.Under o n → w.isNew n) (hd : d ∈ g.driversAt m)
    (hn : g.Under d n) : (w.insert m).isNew n := by
  rw [NodeSet.isNew_insert_of_ne]
  · exact hnew n (.inner ⟨m, hm, ho, hout, hd⟩ hn)
  · rintro rfl
    exact not_under_driver hg hK hwf hm ho hout hlive hd hn

include hu

/-- The operands of a gate are written one after the other. -/
theorem ends_operands (hnew : ∀ n, g.Under o n → w.isNew n)
    (hterm : ∀ {w d}, d ∈ g.driversAt m → (∀ n, g.Under d n → w.isNew n) →
      Ends (g.Unwritable name levels d) (fun r => Writes (g.Under d) r.1.gates w r.2)
        (g.termOf name levels w d)) : Ends (g.Unwritable name (levels + 1) o)
      (fun s => Writes (g.Under o) (m :: Term.gatesOf s.1) w s.2)
      ((g.driversAt m).foldlM (fun s d => do
        let (t, written) ← g.termOf name levels s.2 d
        return (s.1 ++ [t], written)) ([], w.insert m)) := by
  have hloop : Ends (g.Unwritable name (levels + 1) o) (fun s => ∃ ts, s.1 = [] ++ ts ∧
      Writes (fun n => ∃ d ∈ g.driversAt m, g.Under d n) (ts.flatMap Term.gates) (w.insert m) s.2)
      ((g.driversAt m).foldlM (fun s d => do
        let (t, written) ← g.termOf name levels s.2 d
        return (s.1 ++ [t], written)) ([], w.insert m)) := by
    refine Writes.foldlM (fun d hd s hs => ?_)
      (pairwise_disjoint_driversAt hg hK hu hwf hm ho hout hlive)
      fun d hd n hn => isNew_insert_driver hg hK hwf hm ho hout hlive hnew hd hn
    refine ((hterm hd hs).mono (fun e he => he.outer ⟨m, hm, ho, hout, hd⟩) fun r hr => hr).bind ?_
    rintro ⟨t, written⟩ hwrites
    exact .ok ⟨[t], rfl, by simpa using hwrites⟩
  refine hloop.mono (fun e he => he) ?_
  rintro ⟨ts, written⟩ ⟨_, rfl, hwrites⟩
  rw [Term.gatesOf_eq]
  exact writes_gate hg hK hwf hm ho hout hlive hwrites

end Gate

include hu

/-- An expression is written with the gates behind it. The induction is on the levels; the gates behind
the inputs of a gate are disjoint, so none of them has been written when its turn comes. -/
theorem ends_termOf {w : NodeSet} (ho : o ∈ g.connsOf m) (hout : g.isOutput o) (hlive : g.Live o)
    (hnew : ∀ n, g.Under o n → w.isNew n) :
    Ends (g.Unwritable name levels o) (fun r => Writes (g.Under o) r.1.gates w r.2)
      (g.termOf name levels w o) := by
  induction levels generalizing w o m with
  | zero => exact .error (.nested .flat)
  | succ levels ih =>
    rcases exists_conn_of_isOutput hout with ⟨x, hx, hdir⟩
    obtain rfl : x.owner = m := by simpa [ownerOf?_def, hx] using hg.owner ho
    rcases Option.isSome_iff_exists.mp (isSome_of_mem_connsOf ho) with ⟨y, hy⟩
    have hkind : g.kindOf? x.owner = some y.kind := by simp [kindOf?_def, hy]
    have hname : g.nodeNameOf? x.owner = some y.name := by simp [nodeNameOf?, hy]
    have hpath : g.path o = .ok (y.name ++ "." ++ x.name) := by
      rw [path, conn_eq_ok.mpr hx, ok_bind, nodeName, node_eq_ok.mpr hy]
      rfl
    rw [termOf, conn_eq_ok.mpr hx, ok_bind, if_pos hdir, node_eq_ok.mpr hy, ok_bind,
      hpath]
    -- an expression that ends here holds no gate
    have hatom : y.kind.isCombinational = false → Writes (g.Under o) [] w w := by
      intro hcomb
      refine .nothing fun n => not_under hg.toOwned ?_ ho
      rw [hasKind, hkind, Option.any_some, hcomb]
    have hdrivers : g.gateDrivers x.owner = .ok (g.driversAt x.owner) :=
      gateDrivers_of_sound hg.toWired (by simp [hy])
    -- a gate is marked first, and its inputs come next
    have hgate : y.kind.isCombinational → g.hasKind NodeKind.isCombinational x.owner ∧
        g.claimGate name w x.owner = .ok (w.insert x.owner) := by
      intro hcomb
      have hm := hasKind_of hkind hcomb
      exact ⟨hm, claimGate_of_isNew (hnew _ (.here hm ho hout))⟩
    have hterm : ∀ {w d}, g.hasKind NodeKind.isCombinational x.owner →
        d ∈ g.driversAt x.owner → (∀ n, g.Under d n → w.isNew n) →
        Ends (g.Unwritable name levels d) (fun r => Writes (g.Under d) r.1.gates w r.2)
          (g.termOf name levels w d) := by
      intro w d hm hd hnew
      rcases hg.driver_spec hd with ⟨hdout, md, hmd⟩
      exact ih hmd hdout (FeedsGate.live ⟨x.owner, hm, ho, hout, hd⟩ hlive) hnew
    cases hk : y.kind with
    | flipFlop | latch | triState | pin | pinNode | design | constant =>
      exact .ok (hatom (by rw [hk]; rfl))
    | unknown => exact absurd hk (hg.kind_ne_unknown (hg.inUse ho) hkind)
    | inverter =>
      rcases hgate (by rw [hk]; rfl) with ⟨hm, hclaim⟩
      simp only [hclaim, hdrivers, ok_bind]
      split
      · rename_i d hd
        have hmem : d ∈ g.driversAt x.owner := by simp [hd]
        have hfeeds : g.FeedsGate d o := ⟨x.owner, hm, ho, hout, hmem⟩
        refine ((hterm hm hmem ?_).mono (fun e he => he.outer hfeeds) fun r hr => hr).bind ?_
        · exact fun n => isNew_insert_driver hg hK hwf hm ho hout hlive hnew hmem
        · rintro ⟨t, written⟩ hwrites
          refine .ok (writes_gate hg hK hwf hm ho hout hlive (hwrites.congr fun n => ?_))
          simp [hd]
      · rename_i hds
        rw [length_driversAt]
        refine .error (.inverter (.here hm ho hout) (hk ▸ hkind) hname fun hlen => ?_)
        rcases length_eq_one_iff.mp (length_driversAt.trans hlen) with ⟨d, hd⟩
        exact hds d hd
    | gate op =>
      rcases hgate (by rw [hk]; rfl) with ⟨hm, hclaim⟩
      simp only [hclaim, hdrivers, ok_bind]
      split
      · rename_i hlen
        rw [length_driversAt] at hlen ⊢
        exact .error (.gate (.here hm ho hout) (hk ▸ hkind) hname hlen)
      · refine (ends_operands hg hK hu hwf hm ho hout hlive hnew fun hd hn => hterm hm hd hn).bind ?_
        rintro ⟨ts, written⟩ hwrites
        exact .ok hwrites

end Expression

/-! ## All equations -/

theorem isBoundary_of_mem_equationOwners (hg : g.Owned) (h : n ∈ g.equationOwners) :
    g.hasKind NodeKind.isBoundary n := by
  rw [equationOwners, mem_append, mem_append, mem_filter] at h
  rcases h with (h | h) | ⟨-, h⟩
  · exact hasKind_of (hg.pin_kind h) rfl
  · exact hasKind_of (hg.pinNode_kind h) rfl
  · exact isBoundary_of_isSequential h

theorem nodup_equationOwners (hg : g.Owned) : g.equationOwners.Nodup := by
  rw [equationOwners, nodup_append', nodup_append']
  refine ⟨⟨hg.nodup_pins, hg.nodup_pinNodes, fun n hn hn' => ?_⟩, hg.nodup_cells.filter _,
    fun n hn hn' => ?_⟩
  · cases (hg.pin_kind hn).symm.trans (hg.pinNode_kind hn')
  · rcases hasKind_iff.mp (mem_filter.mp hn').2 with ⟨k, hk, hp⟩
    rcases mem_append.mp hn with hn | hn
    · cases (hg.pin_kind hn).symm.trans hk
      cases hp
    · cases (hg.pinNode_kind hn).symm.trans hk
      cases hp

namespace Collected

variable (htop : g.Collected) (hg : g.Sound)
include htop hg

theorem nodup : g.top.Nodup := by
  rw [htop, nodup_flatMap]
  refine ⟨fun n _ => (hg.nodup_conns n).filter _, ?_⟩
  refine (nodup_equationOwners hg.toOwned).imp fun {n m} hne c hc hc' => ?_
  exact hne (hg.eq_of_mem (mem_filter.mp hc).1 (mem_filter.mp hc').1)

/-- An equation is written for what is read outside of the logic. -/
theorem read (hc : c ∈ g.top) : ∃ n d, g.hasKind NodeKind.isBoundary n ∧ g.ReadAt d c n := by
  rw [htop, mem_flatMap] at hc
  rcases hc with ⟨n, hn, hc⟩
  rw [wiredSinks, mem_filter, Bool.and_eq_true, Bool.not_eq_true', isEmpty_eq_false_iff] at hc
  rcases exists_mem_of_ne_nil _ hc.2.2 with ⟨d, hd⟩
  exact ⟨n, d, isBoundary_of_mem_equationOwners hg.toOwned hn, hc.1, hc.2.1, hd⟩

/-- What a node outside of the logic reads, an equation is about. -/
theorem mem_top (hdesign : g.connsOf designId = []) (hn : g.hasKind NodeKind.isBoundary n)
    (hr : g.ReadAt d c n) : c ∈ g.top := by
  have hwired : c ∈ g.wiredSinks n := by
    rw [wiredSinks, mem_filter, Bool.and_eq_true, Bool.not_eq_true', isEmpty_eq_false_iff]
    exact ⟨hr.mem, hr.sink, ne_nil_of_mem hr.refs⟩
  rw [htop, mem_flatMap]
  refine ⟨n, ?_, hwired⟩
  rw [equationOwners, mem_append, mem_append, mem_filter]
  rcases hg.inUse hr.mem with rfl | hcell | hpin | hpinNode
  · have hmem := hr.mem
    rw [hdesign] at hmem
    cases hmem
  · refine .inr ⟨hcell, ?_⟩
    rcases hg.cell_kind hcell with ⟨k, hk, hp⟩
    rw [hasKind, hk, Option.any_some] at hn ⊢
    by_contra hseq
    rw [NodeKind.not_isBoundary_of_isCell hp (Bool.not_eq_true _ ▸ hseq)] at hn
    cases hn
  · exact .inl (.inl hpin)
  · exact .inl (.inr hpinNode)

end Collected

theorem exists_equationName (hg : g.Owned) (hc : c ∈ g.connsOf n) :
    ∃ name, g.equationName c = .ok name := by
  rcases Option.isSome_iff_exists.mp (hg.conn_isSome hc) with ⟨x, hx⟩
  obtain rfl : x.owner = n := by simpa [ownerOf?_def, hx] using hg.owner hc
  rcases Option.isSome_iff_exists.mp (isSome_of_mem_connsOf hc) with ⟨y, hy⟩
  rw [equationName, conn_eq_ok.mpr hx, ok_bind, node_eq_ok.mpr hy, ok_bind]
  split
  · split <;> exact ⟨_, rfl⟩
  · split <;> exact ⟨_, rfl⟩
  · exact ⟨_, rfl⟩
  · exact ⟨_, rfl⟩

/-- Why the equations cannot be written: an expression on the right-hand side of one of them cannot. -/
def Stops (g : Network) (e : NetworkError) : Prop :=
  ∃ c ∈ g.top, ∃ d ∈ g.refsOf c, ∃ name, g.equationName c = .ok name ∧
    g.Unwritable name Equation.maxDepth d e

/-- The gate `n` is needed for an equation. -/
def Needed (g : Network) (n : NodeId) : Prop :=
  ∃ c ∈ g.top, ∃ d ∈ g.refsOf c, g.Under d n

section Equations

variable (hg : g.Tidy K) (hK : ∀ k, k.isCombinational → K k) (hu : g.Unshared)
  (hwf : WellFounded g.Feeds) (htop : g.Collected)
include hg hK hu hwf htop

/-- An equation is written with the gates behind its input. -/
theorem ends_addEquation {s : List Equation × NodeSet} (hc : c ∈ g.top)
    (hnew : ∀ n, (∃ d ∈ g.refsOf c, g.Under d n) → s.2.isNew n) :
    Ends g.Stops (fun s' => ∃ es, s'.1 = s.1 ++ es ∧
      Writes (fun n => ∃ d ∈ g.refsOf c, g.Under d n) (es.flatMap fun e => e.term.gates) s.2 s'.2)
      (g.addEquation s c) := by
  rcases htop.read hg.toSound hc with ⟨n, d, hn, hr⟩
  have hrefs := hr.refsOf_eq hg.toWired
  have hout := hg.output_of_sink hr.refs hr.sink
  rcases hg.listed (hg.mirror hr.refs) with ⟨m, hm⟩
  rcases Option.isSome_iff_exists.mp (isSome_of_isSink hr.sink) with ⟨x, hx⟩
  rcases exists_equationName hg.toOwned hr.mem with ⟨name, hname⟩
  have hfirst : g.firstSource? x.refs = .ok (some d) := by
    rcases exists_conn_of_isOutput hout with ⟨z, hz, hdir⟩
    rw [← refsOf_of_conn? hx, hrefs, firstSource?, conn_eq_ok.mpr hz, ok_bind, if_pos hdir]
    rfl
  simp only [hrefs, mem_singleton, exists_eq_left] at hnew ⊢
  rw [addEquation, conn_eq_ok.mpr hx, ok_bind, hfirst]
  simp only [hname, ok_bind]
  refine ((ends_termOf hg hK hu hwf hm hout (.leaves ⟨c, n, hr, hn⟩) hnew).mono (fun e he => ?_)
    fun r hr => hr).bind ?_
  · exact ⟨c, hc, d, hr.refs, name, hname, he⟩
  · rintro ⟨t, written⟩ hwrites
    exact .ok ⟨[⟨c, name, t⟩], rfl, by simpa using hwrites⟩

/-- Writing the equations writes every gate that is needed, once. -/
theorem ends_equations : Ends g.Stops (fun es => (es.flatMap fun e => e.term.gates).Nodup ∧
    ∀ n, n ∈ es.flatMap (fun e => e.term.gates) ↔ g.Needed n) g.equations := by
  have hloop := Writes.foldlM
    (s := ([], NodeSet.empty g.nodes.size))
    (fun c hc s hs => ends_addEquation hg hK hu hwf htop hc hs) ?_ ?_
  · refine hloop.bind ?_
    rintro ⟨es, written⟩ ⟨_, rfl, hwrites⟩
    exact .ok ⟨hwrites.nodup, fun n => hwrites.mem⟩
  · -- different inputs have no gate in common
    refine (htop.nodup hg.toSound).imp_of_mem fun {c c'} hc hc' hne n => ?_
    rintro ⟨d, hd, hn⟩ ⟨d', hd', hn'⟩
    rcases htop.read hg.toSound hc with ⟨m, _, hm, hr⟩
    rcases htop.read hg.toSound hc' with ⟨m', _, hm', hr'⟩
    exact disjoint_at_boundary hg hK hu hm hm' ⟨hr.mem, hr.sink, hd⟩ ⟨hr'.mem, hr'.sink, hd'⟩ hne hn hn'
  · -- nothing is written at the start
    rintro c - n ⟨d, -, hn⟩
    rw [NodeSet.isNew_empty, decide_eq_true_eq]
    exact node?_isSome.mp (isSome_of_hasKind hn.isCombinational)

omit hK hu hwf in
/-- The gates that are needed for an equation are those with a live output. -/
theorem needed_iff (hdesign : g.connsOf designId = []) :
    g.Needed n ↔ g.hasKind NodeKind.isCombinational n ∧
      ∃ o ∈ g.connsOf n, g.isOutput o ∧ g.Live o := by
  constructor
  · rintro ⟨c, hc, d, hd, hn⟩
    rcases htop.read hg.toSound hc with ⟨m, _, hm, hr⟩
    exact ⟨hn.isCombinational, hn.live (.leaves ⟨c, m, ⟨hr.mem, hr.sink, hd⟩, hm⟩)⟩
  · rintro ⟨hn, o, ho, hout, hlive⟩
    induction hlive generalizing n with
    | leaves hl =>
      rcases hl with ⟨c, m, hr, hm⟩
      exact ⟨c, htop.mem_top hg.toSound hdesign hm hr, _, hr.refs, .here hn ho hout⟩
    | gate hr hm hp hpout _ ih =>
      rcases ih hm hp hpout with ⟨c, hc, d, hd, hunder⟩
      exact ⟨c, hc, d, hd, hunder.trans (hr.mem_driversAt hg.toWired) (.here hn ho hout)⟩

end Equations

end Network

end PldSynth
