import Mathlib.Logic.Relation
import PldSynth.Equation.OfNetwork
import PldSynth.Proofs.Network.Meaning

/-!
# The equations of a network as definitions

The equations of a network define the values of its pins and pin nodes: the left-hand side is the node
that owns the input, and a signal on the right-hand side is the node that owns the output. For a network of
gates, pins and pin nodes in which every driver has a value, there is exactly one solution for given
values of the pins that nothing drives (`exists_solves`, `Solves.unique`).
-/

namespace PldSynth

open Attempt List
open PldSynth.NodeKind (isBoundary isNamed isSequential)

/-! ## Values of terms -/

mutual

/-- The value of a term, from the values of the signals and of the literals. -/
def Term.eval (signal : ConnId → Bool) (literal : Nat → Bool) : Term → Bool
  | .signal source _ => signal source
  | .constant _ value => literal value
  | .invert _ arg => !arg.eval signal literal
  | .combine _ op args => op.eval (Term.evals signal literal args)

/-- The values of several terms. -/
def Term.evals (signal : ConnId → Bool) (literal : Nat → Bool) : List Term → List Bool
  | [] => []
  | t :: ts => t.eval signal literal :: Term.evals signal literal ts

end

namespace Network

variable {K : NodeKind → Bool} {g : Network} {v : ConnId → Bool} {signal : ConnId → Bool}
  {literal : Nat → Bool} {n m : NodeId} {c d o : ConnId} {b : Bool} {σ : NodeId → Bool}
  {r : Option ConnId} {f : NodeSet → ConnId → Attempt (Term × NodeSet)} {levels : Nat} {P : ConnId → Prop}
  {es : List Equation}

/-- The value of the node that a connection belongs to. -/
def valueAt (g : Network) (σ : NodeId → Bool) (c : ConnId) : Bool :=
  σ ((g.ownerOf? c).getD designId)

/-- The values `σ` of the nodes satisfy all equations. -/
def Solves (g : Network) (literal : Nat → Bool) (es : List Equation) (σ : NodeId → Bool) : Prop :=
  ∀ e ∈ es, g.valueAt σ e.input = e.term.eval (g.valueAt σ) literal

theorem Owned.valueAt_eq (hg : g.Owned) (hc : c ∈ g.connsOf n) : g.valueAt σ c = σ n := by
  rw [valueAt, hg.owner hc, Option.getD_some]

/-! ## The term behind an output -/

theorem soleDriver?_eq_ok (h : g.soleDriver? c = .ok r) : (g.refsOf c).head? = r := by
  simp only [soleDriver?, bind_eq_ok, conn_eq_ok] at h
  obtain ⟨x, hx, h⟩ := h
  rw [refsOf_of_conn? hx]
  split at h
  · rename_i hr
    rw [hr]
    exact pure_eq_ok.mp h
  · rename_i hr
    rw [hr]
    exact pure_eq_ok.mp h
  · exact absurd h bind_throw_ne_ok

theorem gateDrivers_eq_ok {ds : List ConnId} (h : g.gateDrivers n = .ok ds) : ds = g.driversAt n := by
  simp only [gateDrivers, bind_eq_ok, pure_eq_ok, mapM_eq_ok,
    sinks_eq_ok] at h
  obtain ⟨cs, ⟨-, rfl⟩, rs, hrs, rfl⟩ := h
  rw [driversAt]
  generalize (g.connsOf n).filter g.isSink = cs at hrs
  induction hrs with
  | nil => rfl
  | cons hd _ ih =>
    rw [filterMap_cons, filterMap_cons, soleDriver?_eq_ok hd, ih]
    rfl

/-- Terms that are worked out one after the other with `f`, which is also given the gates written so far. -/
inductive Chain (f : NodeSet → ConnId → Attempt (Term × NodeSet)) :
    List ConnId → NodeSet → List Term → NodeSet → Prop
  | nil {w} : Chain f [] w [] w
  | cons {d ds w w1 w2 t ts} (head : f w d = .ok (t, w1)) (rest : Chain f ds w1 ts w2) :
    Chain f (d :: ds) w (t :: ts) w2

theorem Chain.forall₂ {ds : List ConnId} {ts : List Term} {w w' : NodeSet} (h : Chain f ds w ts w') :
    List.Forall₂ (fun d t => ∃ w w', f w d = .ok (t, w')) ds ts := by
  induction h with
  | nil => exact .nil
  | cons head _ ih => exact .cons ⟨_, _, head⟩ ih

/-- A loop that collects terms, as a chain. -/
theorem foldlM_terms {ds : List ConnId} {s r : List Term × NodeSet} (h : ds.foldlM (fun s d => do
      let (t, written) ← f s.2 d
      return (s.1 ++ [t], written)) s = .ok r) : ∃ ts, r.1 = s.1 ++ ts ∧ Chain f ds s.2 ts r.2 := by
  induction ds generalizing s with
  | nil =>
    rw [foldlM_nil_eq_ok] at h
    subst h
    exact ⟨[], by simp, .nil⟩
  | cons d ds ih =>
    obtain ⟨s', hs', hrest⟩ := foldlM_cons_eq_ok.mp h
    simp only [bind_eq_ok, pure_eq_ok] at hs'
    obtain ⟨⟨t, w⟩, ht, rfl⟩ := hs'
    obtain ⟨ts, hts, hall⟩ := ih hrest
    exact ⟨t :: ts, by simp [hts], .cons ht hall⟩

theorem evals_of_forall₂ {ds : List ConnId} {ts : List Term} {vals : ConnId → Bool}
    {R : ConnId → Term → Prop} (h : List.Forall₂ R ds ts)
    (heq : ∀ d ∈ ds, ∀ t, R d t → t.eval signal literal = vals d) :
    Term.evals signal literal ts = ds.map vals := by
  induction h with
  | nil => rfl
  | cons hdt _ ih =>
    rw [Term.evals, map_cons, heq _ mem_cons_self _ hdt,
      ih fun d hd => heq d (mem_cons_of_mem _ hd)]

/-- The name under which the output `o` of the node `n` is read, if `n` ends the logic behind an
equation. -/
def signalName? (g : Network) (n : NodeId) (o : ConnId) : Option String :=
  match g.kindOf? n with
  | some .flipFlop | some .latch | some .triState => do
    return (← g.nodeNameOf? n) ++ "." ++ (← g.connNameOf? o)
  | some .pin | some .pinNode => g.nodeNameOf? n
  | some .design => g.connNameOf? o
  | _ => none

/-- The term `t` can be read off the output `o` of the node `n` in one step: an atom, or a gate over
terms that were read off its drivers with `read`. -/
inductive ReadsOff (g : Network) (read : ConnId → Term → Prop) (n : NodeId) (o : ConnId) : Term → Prop
  | signal {name} (hk : g.hasKind isBoundary n = true)
    (hname : g.signalName? n o = some name) : ReadsOff g read n o (.signal o name)
  | constant (hk : g.kindOf? n = some .constant) :
    ReadsOff g read n o (.constant o ((g.constantOf? n).getD 0))
  | invert {d t} (hk : g.kindOf? n = some .inverter) (hd : g.driversAt n = [d]) (ht : read d t) :
    ReadsOff g read n o (.invert n t)
  | combine {op ts} (hk : g.kindOf? n = some (.gate op)) (hlen : 2 ≤ (g.driversAt n).length)
    (ht : List.Forall₂ read (g.driversAt n) ts) : ReadsOff g read n o (.combine n op ts)

/-- The term `t` is written for the output `o` of the node `n` in one step: an atom, or a gate that was not
written before over terms that `f` writes for its drivers. Before it the gates in `w` were written, after it
those in the last argument. -/
inductive WritesOff (g : Network) (f : NodeSet → ConnId → Attempt (Term × NodeSet)) (n : NodeId)
    (o : ConnId) (w : NodeSet) : Term → NodeSet → Prop
  | signal {name} (hk : g.hasKind isBoundary n = true)
    (hname : g.signalName? n o = some name) : WritesOff g f n o w (.signal o name) w
  | constant (hk : g.kindOf? n = some .constant) :
    WritesOff g f n o w (.constant o ((g.constantOf? n).getD 0)) w
  | invert {d t w'} (hk : g.kindOf? n = some .inverter) (hnew : w.isNew n) (hd : g.driversAt n = [d])
    (ht : f (w.insert n) d = .ok (t, w')) : WritesOff g f n o w (.invert n t) w'
  | combine {op ts w'} (hk : g.kindOf? n = some (.gate op)) (hnew : w.isNew n)
    (hlen : 2 ≤ (g.driversAt n).length) (ht : Chain f (g.driversAt n) (w.insert n) ts w') :
    WritesOff g f n o w (.combine n op ts) w'

theorem WritesOff.readsOff {w w' : NodeSet} {t : Term}
    (h : g.WritesOff f n o w t w') : g.ReadsOff (fun d t => ∃ w w', f w d = .ok (t, w')) n o t := by
  cases h with
  | signal hk hname => exact .signal hk hname
  | constant hk => exact .constant hk
  | invert hk _ hd ht => exact .invert hk hd ⟨_, _, ht⟩
  | combine hk _ hlen ht => exact .combine hk hlen ht.forall₂

theorem claimGate_eq_ok {name : String} {w w' : NodeSet} (h : g.claimGate name w n = .ok w') :
    w.isNew n ∧ w' = w.insert n := by
  rw [claimGate] at h
  split at h
  · rename_i hnew
    exact ⟨hnew, (pure_eq_ok.mp h).symm⟩
  · exact absurd h bind_throw_ne_ok

/-- One step of writing a term, read backwards. -/
theorem writesOff_termOf {name : String} {w w' : NodeSet} {t : Term}
    (hn : g.ownerOf? o = some n) (h : g.termOf name (levels + 1) w o = .ok (t, w')) :
    g.WritesOff (g.termOf name levels) n o w t w' := by
  rw [termOf, bind_eq_ok] at h
  obtain ⟨x, hx, h⟩ := h
  rw [conn_eq_ok] at hx
  obtain rfl : x.owner = n := by simpa [ownerOf?_def, hx] using hn
  split at h
  swap
  · exact absurd h bind_throw_ne_ok
  simp only [bind_eq_ok, node_eq_ok] at h
  obtain ⟨y, hy, h⟩ := h
  have hkind : g.kindOf? x.owner = some y.kind := by simp [kindOf?_def, hy]
  have hatom : y.kind.isBoundary → g.hasKind isBoundary x.owner := fun hk =>
    hasKind_of hkind hk
  cases hk : y.kind <;> rw [hk] at h hkind hatom <;>
    simp only [bind_eq_ok, pure_eq_ok, throw_eq_ok, Prod.mk.injEq] at h
  case flipFlop | latch | triState =>
    -- these are written with the name of the port
    obtain ⟨s, hs, rfl, rfl⟩ := h
    simp only [path, bind_eq_ok, pure_eq_ok, conn_eq_ok, nodeName_eq_ok] at hs
    obtain ⟨x', hx', s', hs', rfl⟩ := hs
    cases hx.symm.trans hx'
    exact .signal (hatom rfl) (by simp [signalName?, hkind, hs', connNameOf?, hx])
  case pin | pinNode | design =>
    obtain ⟨rfl, rfl⟩ := h
    exact .signal (hatom rfl) (by simp [signalName?, hkind, nodeNameOf?, connNameOf?, hx, hy])
  case constant =>
    obtain ⟨rfl, rfl⟩ := h
    have hval : (g.constantOf? x.owner) = y.constant := by simp [constantOf?, hy]
    exact hval ▸ .constant hkind
  case inverter =>
    obtain ⟨w1, hclaim, ds, hds, h⟩ := h
    obtain ⟨hnew, rfl⟩ := claimGate_eq_ok hclaim
    obtain rfl := gateDrivers_eq_ok hds
    split at h
    · rename_i d hd
      simp only [bind_eq_ok, pure_eq_ok, Prod.mk.injEq] at h
      obtain ⟨⟨t', w2⟩, ht, rfl, rfl⟩ := h
      exact .invert hkind hnew hd ht
    · cases h
  case gate op =>
    obtain ⟨w1, hclaim, ds, hds, h⟩ := h
    obtain ⟨hnew, rfl⟩ := claimGate_eq_ok hclaim
    obtain rfl := gateDrivers_eq_ok hds
    split at h
    · simp only [bind_eq_ok, throw_eq_ok, false_and, exists_false] at h
    · rename_i hlen
      simp only [bind_eq_ok, pure_eq_ok, Prod.mk.injEq] at h
      obtain ⟨r, hr, rfl, rfl⟩ := h
      obtain ⟨ts, hts, hall⟩ := foldlM_terms hr
      exact hts ▸ .combine hkind hnew (Nat.le_of_not_lt hlen) hall

theorem exists_owner_of_termOf {name : String} {w w' : NodeSet} {t : Term}
    (h : g.termOf name (levels + 1) w o = .ok (t, w')) : ∃ n, g.ownerOf? o = some n := by
  rw [termOf, bind_eq_ok] at h
  obtain ⟨x, hx, -⟩ := h
  rw [conn_eq_ok] at hx
  exact ⟨x.owner, by simp [ownerOf?_def, hx]⟩

theorem readsOff_termOf {name : String} {w w' : NodeSet} {t : Term}
    (hn : g.ownerOf? o = some n) (h : g.termOf name (levels + 1) w o = .ok (t, w')) :
    g.ReadsOff (fun d t => ∃ w w', g.termOf name levels w d = .ok (t, w')) n o t :=
  (writesOff_termOf hn h).readsOff

/-- The outputs that end the logic behind an equation have the values that the network computes for
them, as far as they satisfy `P`. -/
def Agrees (g : Network) (v : ConnId → Bool) (signal : ConnId → Bool) (P : ConnId → Prop) : Prop :=
  ∀ ⦃n o b⦄, P o → o ∈ g.connsOf n → g.hasKind isBoundary n = true → g.Computes v o b →
    signal o = b

/-- Constants have the values of their literals. -/
def LiteralsAt (g : Network) (v : ConnId → Bool) (literal : Nat → Bool) : Prop :=
  ∀ ⦃n o⦄, o ∈ g.connsOf n → g.kindOf? n = some .constant → v o = literal ((g.constantOf? n).getD 0)

theorem Computes.listed (h : g.Computes v o b) : ∃ n, o ∈ g.connsOf n := by
  cases h with
  | given _ hm => exact ⟨_, hm⟩
  | derived _ _ hm => exact ⟨_, hm⟩

/-- The value at an output of a gate comes from the values at its drivers. -/
theorem Computes.eval_drivers {k : NodeKind} (hg : g.Owned) (h : g.Computes v o b)
    (hn : g.isDerived n) (hk : g.kindOf? n = some k) (ho : o ∈ g.connsOf n) :
    ∃ vals : ConnId → Bool, b = k.eval ((g.driversAt n).map vals) ∧
      ∀ d ∈ g.driversAt n, g.Computes v d (vals d) := by
  cases h with
  | given hm ho' => simp [hg.eq_of_mem ho ho', hm] at hn
  | derived _ hk' ho' _ vals hd =>
    obtain rfl := hg.eq_of_mem ho ho'
    obtain rfl := Option.mem_unique hk hk'
    exact ⟨vals, rfl, hd⟩

/-- A term has the value that the network computes for the output that it is read off. -/
theorem eval_termOf {name : String} {w w' : NodeSet} {t : Term}
    (hg : g.Owned) (hP : ∀ {d o}, g.Feeds d o → P o → P d) (hsig : g.Agrees v signal P)
    (hlit : g.LiteralsAt v literal) (ho : P o) (hb : g.Computes v o b)
    (h : g.termOf name levels w o = .ok (t, w')) : t.eval signal literal = b := by
  induction levels generalizing w w' o t b with
  | zero =>
    cases h
  | succ levels ih =>
    obtain ⟨n, hmem⟩ := hb.listed
    -- the terms of the drivers are right by induction
    have hdrivers : g.isDerived n → ∀ d ∈ g.driversAt n, ∀ {b t}, g.Computes v d b →
        (∃ w w', g.termOf name levels w d = .ok (t, w')) → t.eval signal literal = b := by
      rintro hder d hd b t hb ⟨w, w', ht⟩
      exact ih (hP ⟨n, hder, hmem, hd⟩ ho) hb ht
    cases readsOff_termOf (hg.owner hmem) h with
    | signal hk _ => exact hsig ho hmem hk hb
    | constant hk =>
      rw [Term.eval, ← hlit hmem hk]
      cases hb with
      | given => rfl
      | derived hder _ ho' =>
        obtain rfl := hg.eq_of_mem hmem ho'
        rw [isDerived_eq_false hk ⟨rfl, rfl⟩] at hder
        cases hder
    | invert hk hd ht =>
      have hder := isDerived_of_isCombinational hk rfl
      obtain ⟨vals, rfl, hvals⟩ := hb.eval_drivers hg hder hk hmem
      rw [hd] at hvals hdrivers ⊢
      rw [Term.eval, hdrivers hder _ mem_cons_self (hvals _ mem_cons_self) ht]
      rfl
    | combine hk _ ht =>
      have hder := isDerived_of_isCombinational hk rfl
      obtain ⟨vals, rfl, hvals⟩ := hb.eval_drivers hg hder hk hmem
      rw [Term.eval, evals_of_forall₂ ht fun d hd t ht => hdrivers hder d hd (hvals d hd) ht]
      rfl

/-! ## The list of equations -/

/-- The connection on the first wire of `c` whose other end can drive. -/
def sourceOf? (g : Network) (c : ConnId) : Option ConnId :=
  (g.refsOf c).find? g.isSource

/-- The equation `e` was written for the input `c`. -/
def WrittenFor (g : Network) (c : ConnId) (e : Equation) : Prop :=
  e.input = c ∧ g.equationName c = .ok e.name ∧ ∃ d, g.sourceOf? c = some d ∧
    ∃ w w', g.termOf e.name Equation.maxDepth w d = .ok (e.term, w')

/-- The first source among several connections. -/
theorem firstSource?_eq_ok {l : List ConnId} (h : g.firstSource? l = .ok r) : l.find? g.isSource = r := by
  induction l with
  | nil => exact pure_eq_ok.mp h
  | cons d l ih =>
    simp only [firstSource?, bind_eq_ok, conn_eq_ok] at h
    obtain ⟨x, hx, h⟩ := h
    have hdir : g.isSource d = x.direction.isOutput := by simp [isSource, directionOf?_def, hx]
    rw [find?_cons, hdir]
    cases hout : x.direction.isOutput with
    | true =>
      rw [hout] at h
      exact pure_eq_ok.mp h
    | false =>
      rw [hout] at h
      exact ih h

/-- An input gets an equation if it has a source. -/
theorem addEquation_spec {s s' : List Equation × NodeSet} (h : g.addEquation s c = .ok s') :
    if (g.sourceOf? c).isSome then ∃ e, s'.1 = s.1 ++ [e] ∧ g.WrittenFor c e else s'.1 = s.1 := by
  simp only [addEquation, bind_eq_ok, conn_eq_ok] at h
  obtain ⟨x, hx, r, hr, h⟩ := h
  have hsource : g.sourceOf? c = r := by
    rw [sourceOf?, refsOf_of_conn? hx]
    exact firstSource?_eq_ok hr
  cases r with
  | none =>
    cases h
    simp [hsource]
  | some d =>
    simp only [bind_eq_ok, pure_eq_ok] at h
    obtain ⟨name, hname, ⟨t, w⟩, ht, rfl⟩ := h
    rw [if_pos (by simp [hsource])]
    exact ⟨_, rfl, rfl, hname, d, hsource, _, _, ht⟩

/-- There is one equation for every input with a source, in the order of the list of inputs. -/
theorem equations_spec (h : g.equations = .ok es) :
    List.Forall₂ g.WrittenFor (g.top.filter fun c => (g.sourceOf? c).isSome) es := by
  simp only [equations, bind_eq_ok, pure_eq_ok] at h
  obtain ⟨r, hr, rfl⟩ := h
  refine foldlM_inits
    (P := fun l s => List.Forall₂ g.WrittenFor (l.filter fun c => (g.sourceOf? c).isSome) s.1) ?_ .nil hr
  intro pre c post s s' hl hs hstep
  have hspec := addEquation_spec hstep
  rw [filter_append]
  cases hc : (g.sourceOf? c).isSome with
  | false =>
    rw [hc, if_neg Bool.false_ne_true] at hspec
    simpa [hc, hspec] using hs
  | true =>
    rw [hc] at hspec
    obtain ⟨e, he, heq⟩ := hspec
    rw [he, filter_cons, hc]
    exact rel_append hs (.cons heq .nil)

/-- The equation `e` is that of the input `c`: its term is read off the driver of `c`. -/
def Equates (g : Network) (c : ConnId) (e : Equation) : Prop :=
  e.input = c ∧ ∃ d, g.refsOf c = [d] ∧
    ∃ w w', g.termOf e.name Equation.maxDepth w d = .ok (e.term, w')

theorem Wired.sourceOf? (hg : g.Wired) (hs : g.isSink c) (hd : g.refsOf c = [d]) :
    g.sourceOf? c = some d := by
  have hout : g.isOutput d := hg.output_of_sink (by simp [hd]) hs
  have hsource : g.isSource d := by
    rw [isOutput, beq_iff_eq] at hout
    simp [isSource, hout, Direction.isOutput]
  simp [Network.sourceOf?, hd, hsource]

/-- There is one equation for every input on the list of the network, in its order, if all of them are
driven. -/
theorem equates_of_driven (hg : g.Wired)
    (htop : ∀ c ∈ g.top, g.isSink c ∧ g.refsOf c ≠ []) (h : g.equations = .ok es) :
    List.Forall₂ g.Equates g.top es := by
  have hdriven : ∀ c ∈ g.top, ∃ d, g.refsOf c = [d] ∧ g.sourceOf? c = some d := by
    intro c hc
    obtain ⟨hs, hne⟩ := htop c hc
    obtain ⟨d, hd⟩ := (hg.eq_nil_or_singleton hs).resolve_left hne
    exact ⟨d, hd, hg.sourceOf? hs hd⟩
  have hall : (g.top.filter fun c => (g.sourceOf? c).isSome) = g.top := by
    rw [filter_eq_self]
    intro c hc
    obtain ⟨d, -, hd⟩ := hdriven c hc
    simp [hd]
  have hspec := equations_spec h
  rw [hall] at hspec
  refine forall₂_iff_zip.mpr ⟨hspec.length_eq, fun {c e} hmem => ?_⟩
  obtain ⟨hinput, -, d, hd, hterm⟩ := (forall₂_iff_zip.mp hspec).2 hmem
  obtain ⟨d', hd', hsource⟩ := hdriven c (of_mem_zip hmem).1
  cases hsource.symm.trans hd
  exact ⟨hinput, d, hd', hterm⟩

/-! ## Values of nodes -/

/-- The pin or pin node `n` has the value `b`: it shows `b`, or it is given and so is `b`. -/
def Holds (g : Network) (v : ConnId → Bool) (n : NodeId) (b : Bool) : Prop :=
  g.Shows v n b ∨ (g.isDerived n = false ∧ ∃ o ∈ g.connsOf n, g.isOutput o = true ∧ v o = b)

theorem Fresh.isDerived_of_isSink (hg : g.Fresh K) (hk : g.hasKind isNamed n) (hc : c ∈ g.connsOf n)
    (hs : g.isSink c) : g.isDerived n := by
  obtain ⟨d, hd⟩ := hg.driven hc hs
  exact (hg.driversAt_named hk hc hs hd).1

/-- A pin or pin node has one value at most. -/
theorem Holds.unique {b' : Bool} (hg : g.Fresh K) (hk : g.hasKind isNamed n) (h : g.Holds v n b)
    (h' : g.Holds v n b') : b = b' := by
  have hclash : ∀ {b}, g.Shows v n b → g.isDerived n = false → False := by
    rintro b ⟨c, hc, hs, -⟩ hn
    rw [hg.isDerived_of_isSink hk hc hs] at hn
    cases hn
  rcases h with h | ⟨hn, o, ho, hout, rfl⟩ <;> rcases h' with h' | ⟨hn', o', ho', hout', rfl⟩
  · obtain ⟨c, hc, hs, d, hd, hb⟩ := h
    obtain ⟨c', hc', hs', d', hd', hb'⟩ := h'
    obtain rfl := hg.single hk hc hc' hs hs'
    obtain rfl := singleton_inj.mp (hd.symm.trans hd')
    exact hb.unique hg.toOwned hb'
  · exact (hclash h hn').elim
  · exact (hclash h' hn).elim
  · have hreg := hg.regular <| by
      obtain ⟨k, hk', hp⟩ := hasKind_iff.mp hk
      exact hasKind_of hk' (by simp [hp])
    rw [hreg.lone ho ho' hout hout']

/-- What a pin or pin node drives has its value. -/
theorem Computes.holds (hg : g.Fresh K) (hk : g.hasKind isNamed n) (ho : o ∈ g.connsOf n)
    (h : g.Computes v o b) : g.Holds v n b := by
  cases hn : g.isDerived n with
  | false =>
    cases h with
    | given _ _ hout => exact .inr ⟨hn, o, ho, hout, rfl⟩
    | derived hm _ ho' => simp [hg.eq_of_mem ho ho', hm] at hn
  | true =>
    obtain ⟨k, hk', hp⟩ := hasKind_iff.mp hk
    obtain ⟨vals, rfl, hvals⟩ := h.eval_drivers hg.toOwned hn hk' ho
    -- a pin or pin node is derived only if it can be driven
    have hcomb : k.isCombinational = false := by cases k <;> first | rfl | cases hp
    have hsink : (g.connsOf n).any g.isSink := by
      simpa [isDerived, hasKind, hk', hcomb, hp, hg.unmerged n, Absorbed.isNothing_iff] using hn
    obtain ⟨c, hc, hs⟩ := any_eq_true.mp hsink
    obtain ⟨d, hd⟩ := hg.driven hc hs
    have hdrv := (hg.driversAt_named hk hc hs hd).2
    rw [hdrv] at hvals ⊢
    refine .inl ⟨c, hc, hs, d, hd, ?_⟩
    simpa [k.eval_of_isNamed hp] using hvals d

/-! ## The solution -/

/-- The network is built from gates, constants, pins and pin nodes only, and the list of its inputs is up to date. -/
structure Combinational (K : NodeKind → Bool) (g : Network) : Prop extends Fresh K g where
  design : g.connsOf designId = []
  logic : ∀ n ∈ g.cells, g.hasKind isSequential n = false
  collected : g.top = g.equationOwners.flatMap g.wiredSinks

namespace Combinational

theorem isNamed_of_isBoundary (hg : g.Combinational K) (ho : o ∈ g.connsOf n)
    (hk : g.hasKind isBoundary n) : g.hasKind isNamed n := by
  rcases hg.inUse ho with rfl | hn | hn | hn
  · simp [hg.design] at ho
  · obtain ⟨k, hk', hcell⟩ := hg.cell_kind hn
    have hseq := hg.logic n hn
    rw [hasKind, hk', Option.any_some] at hk hseq
    rw [NodeKind.not_isBoundary_of_isCell hcell hseq] at hk
    cases hk
  · exact hasKind_of (hg.pin_kind hn) rfl
  · exact hasKind_of (hg.pinNode_kind hn) rfl

/-- The list of inputs is that of the pins and pin nodes. -/
theorem mem_top (hg : g.Combinational K) : c ∈ g.top ↔
    ∃ n ∈ g.pins ++ g.pinNodes, c ∈ g.connsOf n ∧ g.isSink c := by
  have hnone : g.cells.filter (g.hasKind isSequential) = [] := by
    rw [filter_eq_nil_iff]
    intro n hn
    simp [hg.logic n hn]
  rw [hg.collected, equationOwners, hnone, append_nil, mem_flatMap]
  constructor
  · rintro ⟨n, hn, hc⟩
    simp only [wiredSinks, mem_filter, Bool.and_eq_true] at hc
    exact ⟨n, hn, hc.1, hc.2.1⟩
  · rintro ⟨n, hn, hc, hs⟩
    obtain ⟨d, hd⟩ := hg.driven hc hs
    exact ⟨n, hn, by simp [wiredSinks, hc, hs, hd]⟩

theorem equates (hg : g.Combinational K) (h : g.equations = .ok es) : List.Forall₂ g.Equates g.top es := by
  apply equates_of_driven hg.toWired _ h
  intro c hc
  obtain ⟨n, -, hmem, hs⟩ := hg.mem_top.mp hc
  obtain ⟨d, hd⟩ := hg.driven hmem hs
  exact ⟨hs, by simp [hd]⟩

variable {es : List Equation}

/-- An equation holds in the values that the network computes, if the signals on its right-hand side
have these values. -/
theorem eval_of_equates {e : Equation} (hg : g.Combinational K)
    (hlit : g.LiteralsAt v literal) (hP : ∀ {d o}, g.Feeds d o → P o → P d)
    (hσ : ∀ {n o b}, P o → o ∈ g.connsOf n → g.hasKind isNamed n →
      g.Computes v o b → σ n = b)
    (he : g.Equates c e) (hd : g.refsOf c = [d]) (hPd : P d) (hb : g.Computes v d b) :
    e.term.eval (g.valueAt σ) literal = b := by
  obtain ⟨-, d', hd', w, w', ht⟩ := he
  obtain rfl := singleton_inj.mp (hd'.symm.trans hd)
  refine eval_termOf hg.toOwned hP ?_ hlit hPd hb ht
  intro n o b ho hmem hk hb
  rw [hg.valueAt_eq hmem]
  exact hσ ho hmem (hg.isNamed_of_isBoundary hmem hk) hb

/-- The values that the network computes solve the equations. -/
theorem exists_solves (hg : g.Combinational K) (h : g.equations = .ok es)
    (hlit : g.LiteralsAt v literal) : ∃ σ, g.Solves literal es σ ∧
      ∀ {n b}, g.hasKind isNamed n → g.Holds v n b → σ n = b := by
  classical
  let σ : NodeId → Bool := fun n => decide (g.Holds v n true)
  have hσ : ∀ {n b}, g.hasKind isNamed n → g.Holds v n b → σ n = b := by
    intro n b hk hb
    cases b with
    | true => simpa [σ] using hb
    | false =>
      have : ¬ g.Holds v n true := fun hb' => nomatch hb.unique hg.toFresh hk hb'
      simpa [σ] using this
  refine ⟨σ, ?_, hσ⟩
  intro e he
  obtain ⟨c, hc, heq⟩ := exists_left_of_forall₂ (hg.equates h) he
  obtain ⟨n, hn, hmem, hs⟩ := hg.mem_top.mp hc
  have hk : g.hasKind isNamed n := hg.isNamed_of_mem hn
  obtain ⟨d, hd⟩ := hg.driven hmem hs
  obtain ⟨b, hb⟩ := hg.settled v hs (d := d) (by simp [hd])
  have hright := hg.eval_of_equates hlit (fun _ _ => trivial)
    (fun _ ho hk hb => hσ hk (hb.holds hg.toFresh hk ho)) heq hd trivial hb
  rw [hright, heq.1, hg.valueAt_eq hmem]
  exact hσ hk (.inl ⟨c, hmem, hs, d, hd, hb⟩)

/-- A solution gives a pin or pin node the value that it shows, if it is right about the signals
behind the node. -/
theorem value_of_shows (hg : g.Combinational K) (h : g.equations = .ok es)
    (hlit : g.LiteralsAt v literal) (hsol : g.Solves literal es σ) (hP : ∀ {d o}, g.Feeds d o → P o → P d)
    (hσ : ∀ {n o b}, P o → o ∈ g.connsOf n → g.hasKind isNamed n →
      g.Computes v o b → σ n = b)
    (hk : g.hasKind isNamed n) (hc : c ∈ g.connsOf n) (hs : g.isSink c) (hd : g.refsOf c = [d])
    (hPd : P d) (hb : g.Computes v d b) : σ n = b := by
  have htop : c ∈ g.top := hg.mem_top.mpr ⟨n, hg.mem_of_isNamed hc hk, hc, hs⟩
  obtain ⟨e, he, heq⟩ := exists_right_of_forall₂ (hg.equates h) htop
  have hright := hg.eval_of_equates hlit hP hσ heq hd hPd hb
  rw [← hg.valueAt_eq (σ := σ) hc, ← heq.1, hsol e he, hright]

/-- There is no other solution: a solution that has the given values at the pins that nothing drives
has the computed values everywhere. -/
theorem value_of_solves (hg : g.Combinational K) (h : g.equations = .ok es)
    (hlit : g.LiteralsAt v literal) (hsol : g.Solves literal es σ)
    (hgiven : ∀ {n o}, g.hasKind isNamed n → g.isDerived n = false →
      o ∈ g.connsOf n → g.isOutput o → σ n = v o)
    (hk : g.hasKind isNamed n) (hb : g.Holds v n b) : σ n = b := by
  -- first the nodes that drive something, by induction on what is behind their outputs
  have houts : ∀ {n o b}, o ∈ g.connsOf n → g.hasKind isNamed n →
      g.Computes v o b → σ n = b := by
    intro n o b ho hk hb
    have hacc := (hb.acc hg.toOwned).transGen
    induction hacc generalizing n b with
    | intro o _ ih =>
      rcases hb.holds hg.toFresh hk ho with ⟨c, hc, hs, d, hd, hbd⟩ | ⟨hn, o', ho', hout', rfl⟩
      · obtain ⟨hder, hdrv⟩ := hg.driversAt_named hk hc hs hd
        have hfeeds : g.Feeds d o := ⟨n, hder, ho, by simp [hdrv]⟩
        refine hg.value_of_shows h hlit hsol
          (fun hf hx => .head hf hx) (fun hx ho hk hb => ih _ hx ho hk hb) hk hc hs hd
          (.single hfeeds) hbd
      · exact hgiven hk hn ho' hout'
  rcases hb with ⟨c, hc, hs, d, hd, hbd⟩ | ⟨hn, o, ho, hout, rfl⟩
  · exact hg.value_of_shows h hlit hsol (fun _ _ => trivial)
      (fun _ => houts) hk hc hs hd trivial hbd
  · exact hgiven hk hn ho hout

end Combinational

end Network

end PldSynth
