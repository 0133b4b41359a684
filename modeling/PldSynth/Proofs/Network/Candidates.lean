import PldSynth.Proofs.Equation.Size
import PldSynth.Proofs.Network.Bounds

/-!
# The cheapest pin node goes first

Which pin node is removed next depends on what its copies would cost. The cost of a pin node is the size of
the text that is written for it, once for each consumer, and the next one is the first of the cheapest
(`nextCandidate_cheapest`).
-/

namespace PldSynth.Network

open Attempt List

variable {g : Network} {n m pn : NodeId} {c d : ConnId} {es : List Equation}

/-- There is an offer for every pin node that may be removed. -/
theorem not_expendable_of_offer? (h : g.offer? n = .ok none) : ¬ g.Expendable n := by
  rintro ⟨hnothing, hfeedback⟩
  simp only [offer?, bind_eq_ok, node_eq_ok] at h
  obtain ⟨y, hy, h⟩ := h
  have habs : y.absorbed.isNothing := by
    rw [absorbedOf, hy] at hnothing
    exact (Absorbed.isNothing_iff _).mpr hnothing
  rw [if_pos habs, hfeedback, ok_bind] at h
  simp only [Bool.false_eq_true, if_false, bind_eq_ok, pure_eq_ok] at h
  obtain ⟨cost, -, h⟩ := h
  cases h

/-- Of the pin nodes in the list that may be removed, the first of the cheapest is offered at its cost, and
none is offered if there is none. -/
def IsCheapest (g : Network) (ns : List NodeId) : Option (NodeId × Nat) → Prop
  | none => ∀ m ∈ ns, ¬ g.Expendable m
  | some (pn, cost) => g.Expendable pn ∧ g.copyCost pn = .ok cost ∧ ∃ pre post, ns = pre ++ pn :: post ∧
    (∀ m ∈ pre, g.Expendable m → ∃ k, g.copyCost m = .ok k ∧ cost < k) ∧
    ∀ m ∈ post, g.Expendable m → ∃ k, g.copyCost m = .ok k ∧ cost ≤ k

namespace IsCheapest

variable {ns : List NodeId} {offer : Option (NodeId × Nat)} {cost k : Nat}

/-- No other pin node of the list is cheaper. -/
theorem le (h : g.IsCheapest ns (some (pn, cost))) (hm : m ∈ ns) (he : g.Expendable m) :
    ∃ k, g.copyCost m = .ok k ∧ cost ≤ k := by
  obtain ⟨-, hcost, pre, post, rfl, hpre, hpost⟩ := h
  rcases mem_append.mp hm with hm | hm
  · obtain ⟨k, hk, hlt⟩ := hpre m hm he
    exact ⟨k, hk, Nat.le_of_lt hlt⟩
  · rcases mem_cons.mp hm with rfl | hm
    · exact ⟨cost, hcost, Nat.le_refl cost⟩
    · exact hpost m hm he

/-- A pin node in front makes no difference if it may not be removed or costs more. -/
theorem cons_of_lt (h : g.IsCheapest ns (some (pn, cost)))
    (hn : g.Expendable n → ∃ k, g.copyCost n = .ok k ∧ cost < k) :
    g.IsCheapest (n :: ns) (some (pn, cost)) := by
  obtain ⟨he, hcost, pre, post, rfl, hpre, hpost⟩ := h
  exact ⟨he, hcost, n :: pre, post, rfl, forall_mem_cons.mpr ⟨hn, hpre⟩, hpost⟩

theorem cons_of_not (h : g.IsCheapest ns offer) (hn : ¬ g.Expendable n) : g.IsCheapest (n :: ns) offer := by
  match offer, h with
  | none, h => exact forall_mem_cons.mpr ⟨hn, h⟩
  | some (pn, cost), h => exact h.cons_of_lt fun he => absurd he hn

/-- A pin node in front is the next one unless a later one is cheaper. -/
theorem cons {l : List (NodeId × Nat)} (h : g.IsCheapest ns (cheapest l)) (hn : g.Expendable n)
    (hk : g.copyCost n = .ok k) : g.IsCheapest (n :: ns) (cheapest ((n, k) :: l)) := by
  rw [cheapest]
  generalize cheapest l = offer at h ⊢
  rcases offer with _ | ⟨pn, cost⟩
  · exact ⟨hn, hk, [], ns, rfl, forall_mem_nil _, fun m hm he => absurd he (h m hm)⟩
  · by_cases hlt : cost < k
    · simp only [if_pos hlt]
      exact h.cons_of_lt fun _ => ⟨k, hk, hlt⟩
    · simp only [if_neg hlt]
      refine ⟨hn, hk, [], ns, rfl, forall_mem_nil _, fun m hm he => ?_⟩
      obtain ⟨j, hj, hle⟩ := h.le hm he
      exact ⟨j, hj, Nat.le_trans (Nat.le_of_not_lt hlt) hle⟩

end IsCheapest

/-- The cheapest offer is the first of the cheapest pin nodes. -/
theorem isCheapest_offers {ns : List NodeId} {offers : List (Option (NodeId × Nat))}
    (h : List.Forall₂ (fun n r => g.offer? n = .ok r) ns offers) :
    g.IsCheapest ns (cheapest (offers.filterMap id)) := by
  induction h with
  | nil => exact nofun
  | @cons n r ns offers hr _ ih =>
    cases r with
    | none =>
      exact ih.cons_of_not (not_expendable_of_offer? hr)
    | some x =>
      obtain ⟨rfl, hexpendable, hcost⟩ := offer?_eq_some hr
      exact ih.cons hexpendable hcost

/-- An input with one wire has an equation exactly if the other end of the wire can drive. -/
theorem exists_equation_iff (h : g.equations = .ok es) (hc : c ∈ g.top) (hd : g.refsOf c = [d]) :
    (∃ e ∈ es, e.input = c) ↔ g.isSource d := by
  have hsource : (g.sourceOf? c).isSome ↔ g.isSource d := by
    rw [sourceOf?, hd]
    simp
  rw [← hsource]
  constructor
  · rintro ⟨e, he, rfl⟩
    obtain ⟨c, hc, hwritten⟩ := exists_left_of_forall₂ (equations_spec h) he
    rw [hwritten.1]
    exact (mem_filter.mp hc).2
  · intro hsome
    obtain ⟨e, he, hwritten⟩ := exists_right_of_forall₂ (equations_spec h) (mem_filter.mpr ⟨hc, hsome⟩)
    exact ⟨e, he, hwritten.1⟩

/-- The term of an equation is what is written for the driver of its input. -/
theorem exists_termOf {e : Equation} (h : g.equations = .ok es) (he : e ∈ es) (hd : g.refsOf e.input = [d]) :
    ∃ w w', g.termOf e.name Equation.maxDepth w d = .ok (e.term, w') := by
  obtain ⟨c, -, rfl, -, d', hd', hterm⟩ := exists_left_of_forall₂ (equations_spec h) he
  rw [sourceOf?, hd] at hd'
  obtain rfl := mem_singleton.mp (mem_of_find?_eq_some hd')
  exact hterm

/-- Let the equations of a network be written. A pin node with one wired input costs as many atoms and gates
as there are in the expression that is written for it, once for every consumer. The next pin node to remove
is the first of the cheapest that may be removed. -/
theorem nextCandidate_cheapest (h : g.equations = .ok es) :
    (∀ pn c d, g.kindOf? pn = some .pinNode → (g.connsOf pn).filter g.isSink = [c] → c ∈ g.top →
      g.refsOf c = [d] → ((∃ e ∈ es, e.input = c) ↔ g.isSource d) ∧
        ∀ e ∈ es, e.input = c →
          g.copyCost pn = .ok ((e.term.atoms + e.term.gates.length) * g.fanOutOf pn)) ∧
    (g.HandlesInRange → ∃ r, g.nextCandidate = .ok r) ∧
    ∀ r, g.nextCandidate = .ok r → ∃ offer, r = offer.map Prod.fst ∧ g.IsCheapest g.pinNodes offer := by
  refine ⟨fun pn c d hpn hsinks hc hd => ⟨exists_equation_iff h hc hd, ?_⟩, fun hg => ?_, fun r hr => ?_⟩
  · rintro e he rfl
    obtain ⟨w, w', hterm⟩ := exists_termOf h he hd
    exact copyCost_eq hpn hsinks hd hterm
  · refine (follows_nextCandidate hg.closed fun pn hpn => ?_).exists_ok
    exact hg.listed_isSome (mem_append_right _ hpn)
  · simp only [nextCandidate, bind_eq_ok, pure_eq_ok, mapM_eq_ok] at hr
    obtain ⟨offers, hoffers, rfl⟩ := hr
    exact ⟨_, rfl, isCheapest_offers hoffers⟩

/-- Two pin nodes. `q` is the inversion of `a`, and `p` the conjunction of `q` and itself. -/
def rivals : Network where
  nodes := ⟨#[{ name := "m", kind := .design },
    { name := "a", kind := .pin, conns := [⟨0⟩] },
    { name := "q", kind := .pinNode, conns := [⟨1⟩, ⟨2⟩] },
    { name := "p", kind := .pinNode, conns := [⟨3⟩, ⟨4⟩] },
    { name := "h", kind := .inverter, conns := [⟨5⟩, ⟨6⟩] },
    { name := "g", kind := .gate .conj, conns := [⟨7⟩, ⟨8⟩, ⟨9⟩] },
    { name := "y", kind := .pin, conns := [⟨10⟩] }]⟩
  conns := ⟨#[⟨⟨1⟩, .output, "a", [⟨5⟩]⟩, ⟨⟨2⟩, .input, pinNodeInput, [⟨6⟩]⟩,
    ⟨⟨2⟩, .output, pinNodeOutput, [⟨7⟩, ⟨8⟩]⟩, ⟨⟨3⟩, .input, pinNodeInput, [⟨9⟩]⟩,
    ⟨⟨3⟩, .output, pinNodeOutput, [⟨10⟩]⟩, ⟨⟨4⟩, .input, "A", [⟨0⟩]⟩, ⟨⟨4⟩, .output, "Y", [⟨1⟩]⟩,
    ⟨⟨5⟩, .input, "A", [⟨2⟩]⟩, ⟨⟨5⟩, .input, "B", [⟨2⟩]⟩, ⟨⟨5⟩, .output, "Y", [⟨3⟩]⟩,
    ⟨⟨6⟩, .input, "y", [⟨4⟩]⟩]⟩
  cells := [⟨4⟩, ⟨5⟩]
  pins := [⟨1⟩, ⟨6⟩]
  pinNodes := [⟨2⟩, ⟨3⟩]
  top := [⟨1⟩, ⟨3⟩, ⟨10⟩]

/-- The expression of `q` is the smaller one, but it is read twice, so `p` is next. -/
theorem nextCandidate_cheapest_rivals : rivals.HandlesInRange ∧ ∃ es, rivals.equations = .ok es ∧
    (∃ e ∈ es, e.input = ⟨1⟩ ∧ rivals.copyCost ⟨2⟩ = .ok ((e.term.atoms + e.term.gates.length) * 2)) ∧
    (∃ e ∈ es, e.input = ⟨3⟩ ∧ rivals.copyCost ⟨3⟩ = .ok ((e.term.atoms + e.term.gates.length) * 1)) ∧
    (rivals.copyCost ⟨2⟩).toOption = some 4 ∧ (rivals.copyCost ⟨3⟩).toOption = some 3 ∧
    rivals.nextCandidate = .ok (some ⟨3⟩) ∧
    ∃ cost, rivals.IsCheapest rivals.pinNodes (some (⟨3⟩, cost)) := by
  have hrange : rivals.HandlesInRange := by constructor <;> decide
  obtain ⟨es, hes⟩ := exists_of_isOk (x := rivals.equations) (by decide +kernel)
  obtain ⟨hcost, hrun, hcheapest⟩ := nextCandidate_cheapest hes
  obtain ⟨hq, hqcost⟩ := hcost ⟨2⟩ ⟨1⟩ ⟨6⟩ rfl (by decide) (by decide) rfl
  obtain ⟨hp, hpcost⟩ := hcost ⟨3⟩ ⟨3⟩ ⟨9⟩ rfl (by decide) (by decide) rfl
  obtain ⟨e, he, hein⟩ := hq.mpr (by decide)
  obtain ⟨e', he', hein'⟩ := hp.mpr (by decide)
  obtain ⟨r, hr⟩ := hrun hrange
  have hnext : rivals.nextCandidate.toOption = some (some ⟨3⟩) := by decide +kernel
  rw [hr] at hnext
  obtain rfl : r = some ⟨3⟩ := Option.some.inj hnext
  obtain ⟨offer, hoffer, hfirst⟩ := hcheapest _ hr
  obtain ⟨⟨pn, cost⟩, rfl, rfl⟩ := Option.map_eq_some_iff.mp hoffer.symm
  exact ⟨hrange, es, hes, ⟨e, he, hein, hqcost e he hein⟩, ⟨e', he', hein', hpcost e' he' hein'⟩,
    by decide +kernel, by decide +kernel, hr, cost, hfirst⟩

end PldSynth.Network
