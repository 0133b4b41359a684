import PldSynth.Proofs.Network.Budget
import PldSynth.Proofs.Network.FixedPoint
import PldSynth.Proofs.Network.Handles

/-!
# The loops of the rewriting passes come to an end

Two passes repeat a step for as long as there is something to do. `SweepRun` and `InlineRun` are these
loops without any bound, with a count of what they do. On any network whose handles were handed out,
however it is wired, both loops end, the number of pin nodes at the start bounds what they do, and the
passes answer what the loops answer (`rewriting_bounded`).

A pin node that is spliced out owns nothing afterwards, and the only node that gains connections owned one
before. So every splice leaves fewer pin nodes that own a connection. Nothing else can be counted on:
a splice changes the list of inputs that the sweep is going over, and without order in the wiring it may
add outputs or leave wires hanging.
-/

namespace PldSynth.Network

open Attempt List

variable {A : NodeId → Prop} {g g' g'' : Network} {n m a b t pn latch : NodeId}
  {c d o input output root out consumer : ConnId} {inputs : List ConnId} {limit : Nat} {bound : Nat}
  {s : Bool × Network} {copies : List (NodeId × NodeId)} {cone : Cone}

/-! ## Counting pin nodes that own a connection -/

instance (g : Network) (n : NodeId) : Decidable (g.LiveAt n) :=
  inferInstanceAs (Decidable (_ ∧ _))

/-- The handles of the pin nodes that own a connection. -/
def liveHandles (g : Network) : List Nat :=
  (List.range g.nodes.size).filter fun i => g.LiveAt ⟨i⟩

theorem mem_liveHandles : n.index ∈ g.liveHandles ↔ g.LiveAt n := by
  rw [liveHandles, mem_filter, mem_range, decide_eq_true_iff, and_iff_right_iff_imp]
  rintro ⟨hk, -⟩
  exact node?_isSome.mp (isSome_of_kindOf? hk)

theorem length_liveHandles (g : Network) : g.liveHandles.length = g.livePinNodes := by
  have hsize : g.nodes.size = g.nodes.items.toList.length := by simp [Arena.size]
  rw [liveHandles, ← countP_eq_length_filter, livePinNodes, ← countP_range_getElem? _ g.nodes.items.toList]
  refine countP_congr fun i _ => ?_
  rw [decide_eq_true_iff, LiveAt, Network.kindOf?, Network.connsOf, Arena.get?, Array.getElem?_toList]
  cases g.nodes.items[i]? <;> simp

theorem livePinNodes_le (h : ∀ n, g'.LiveAt n → g.LiveAt n) : g'.livePinNodes ≤ g.livePinNodes := by
  rw [← length_liveHandles, ← length_liveHandles]
  have hsub : g'.liveHandles ⊆ g.liveHandles := fun i hi =>
    mem_liveHandles.mpr (h ⟨i⟩ (mem_liveHandles.mp hi))
  exact (subperm_of_subset (nodup_range.filter _) hsub).length_le

/-- One pin node fewer owns a connection. -/
theorem livePinNodes_lt (h : ∀ n, g'.LiveAt n → g.LiveAt n ∧ n ≠ b) (hb : g.LiveAt b) :
    g'.livePinNodes < g.livePinNodes := by
  rw [← length_liveHandles, ← length_liveHandles]
  have hnew : b.index ∉ g'.liveHandles := fun hmem => (h b (mem_liveHandles.mp hmem)).2 rfl
  have hsub : b.index :: g'.liveHandles ⊆ g.liveHandles := by
    intro i hi
    rcases mem_cons.mp hi with rfl | hi
    · exact mem_liveHandles.mpr hb
    · exact mem_liveHandles.mpr (h ⟨i⟩ (mem_liveHandles.mp hi)).1
  exact (subperm_of_subset (nodup_cons.mpr ⟨hnew, nodup_range.filter _⟩) hsub).length_le

/-! ## Splices -/

/-- What the search has made sure of, with nothing known about the wiring. -/
theorem isForwarded_eq_ok (h : g.isForwarded input = .ok true) :
    ∃ x output b, g.conn? input = some x ∧ x.refs.head? = some output ∧ g.ownerOf? output = some b ∧
      b ≠ x.owner ∧ g.kindOf? b = some .pinNode ∧ g.connsOf x.owner ≠ [] := by
  simp only [isForwarded, bind_eq_ok, ite_eq_ok_true, conn_eq_ok, nodeKind_eq_ok] at h
  rcases h with ⟨_, hatt, rfl, x, hx, -, k, -, -, _, -, -, h⟩
  rcases isAttached_eq_ok hatt with ⟨a, ha, hmem⟩
  obtain rfl : x.owner = a := by simpa [ownerOf?_def, hx] using ha
  split at h
  · simp [pure_eq_ok] at h
  · rename_i output hhead
    simp only [bind_eq_ok, pure_eq_ok, owner_eq_ok, nodeKind_eq_ok, Bool.and_eq_true,
      decide_eq_true_eq] at h
    rcases h with ⟨b, hb, kb, hkb, hne, rfl⟩
    exact ⟨x, output, b, hx, hhead, hb, hne, hkb, ne_nil_of_mem hmem⟩

/-- A splice leaves fewer pin nodes that own a connection. -/
theorem follows_fuse (hg : g.HandlesInRange) (h : g.isForwarded input = .ok true) :
    Follows (fun g' => g'.HandlesInRange ∧ (∀ {c}, (g.conn? c).isSome → (g'.conn? c).isSome) ∧
      g'.livePinNodes < g.livePinNodes) (g.fuse input) := by
  rcases isForwarded_eq_ok h with ⟨x, output, b, hx, hhead, hb, hne, hkind, howned⟩
  have hinput : (g.conn? input).isSome := by rw [hx]; rfl
  have houtput := head_isSome hg hx hhead
  have ha : (g.node? x.owner).isSome := owner_isSome_of_conn? hg hx
  have hbsome : (g.node? b).isSome := hg.owner_isSome hb
  unfold fuse
  rw [conn_eq_ok.mpr hx, ok_bind]
  simp only [hhead]
  rw [owner_eq_ok.mpr hb, ok_bind, inputs_eq_ok.mpr ⟨hbsome, rfl⟩, ok_bind]
  split
  · rename_i kept hinputs
    have hkept : kept ∈ g.connsOf b := by
      have hmem : kept ∈ (g.connsOf b).filter g.isInput := by rw [hinputs]; exact mem_singleton_self _
      exact (mem_filter.mp hmem).1
    have hkeptSome := hg.conn_isSome hkept
    -- only the node that takes over the input gains connections
    refine (follows_detach (A := (· = x.owner)) hg hinput).bind fun g1 h1 => ?_
    have h2 := h1.trans (.renameConn (c := kept) h1.inRange x.name)
    refine (follows_reparent (A := (· = x.owner)) h2.inRange (h2.conn_isSome hkeptSome)
      (h2.node_isSome ha) rfl).bind fun g3 h3 => ?_
    have h3' := h2.trans h3
    refine (follows_moveConsumers (A := (· = x.owner)) h3'.inRange (h3'.node_isSome ha) rfl
      (h3'.conn_isSome houtput)).bind fun g4 h4 => ?_
    have h4' := h3'.trans h4
    refine (follows_node (h4'.node_isSome hbsome)).bind fun y _ => ?_
    have h5 := h4'.trans (.absorb (n := x.owner) h4'.inRange y.absorbed)
    refine (follows_retire (A := (· = x.owner)) h5.inRange (h5.node_isSome hbsome)).mono (fun _ => id) ?_
    rintro g' ⟨h6, hempty, -⟩
    have h' := h5.trans h6
    refine ⟨h'.inRange, h'.conn_isSome, livePinNodes_lt (fun n hn => ?_) ⟨hkind, ne_nil_of_mem hkept⟩⟩
    constructor
    · by_cases hna : n = x.owner
      · subst hna
        exact ⟨(h'.kind ha).symm.trans hn.1, howned⟩
      · exact h'.live hna hn
    · rintro rfl
      exact hn.2 hempty
  · exact (follows_nodeName hbsome).bind fun _ _ => .inr ⟨_, rfl, nofun⟩

/-! ## Sweeps without a bound -/

/-- Going over a list of inputs and splicing out the pin nodes that only forward. The count is that of the
pin nodes spliced out up to the end or up to the first failure. -/
inductive VisitRun : Network → List ConnId → (splices : Nat) → Attempt Network → Prop
  | done {g : Network} : VisitRun g [] 0 (.ok g)
  | skip {g : Network} {input : ConnId} {inputs : List ConnId} {splices : Nat} {r : Attempt Network}
      (answer : g.isForwarded input = .ok false) (rest : VisitRun g inputs splices r) :
      VisitRun g (input :: inputs) splices r
  | splice {g g' : Network} {input : ConnId} {inputs : List ConnId} {splices : Nat} {r : Attempt Network}
      (answer : g.isForwarded input = .ok true) (step : g.fuse input = .ok g')
      (rest : VisitRun g' inputs splices r) : VisitRun g (input :: inputs) (splices + 1) r
  | unanswered {g : Network} {input : ConnId} {inputs : List ConnId} {e : NetworkError}
      (answer : g.isForwarded input = .error e) : VisitRun g (input :: inputs) 0 (.error e)
  | stuck {g : Network} {input : ConnId} {inputs : List ConnId} {e : NetworkError}
      (answer : g.isForwarded input = .ok true) (step : g.fuse input = .error e) :
      VisitRun g (input :: inputs) 0 (.error e)

/-- Sweeping until a sweep splices out nothing, however many sweeps that takes. -/
inductive SweepRun : Network → (sweeps splices : Nat) → Attempt Network → Prop
  | last {g g' g'' : Network} (visits : VisitRun g g.top 0 (.ok g')) (rebuilt : g'.rebuildTop = .ok g'') :
      SweepRun g 1 0 (.ok g'')
  | again {g g' g'' : Network} {k sweeps splices : Nat} {r : Attempt Network}
      (visits : VisitRun g g.top (k + 1) (.ok g')) (rebuilt : g'.rebuildTop = .ok g'')
      (rest : SweepRun g'' sweeps splices r) : SweepRun g (sweeps + 1) (k + 1 + splices) r
  | failed {g : Network} {k : Nat} {e : NetworkError} (visits : VisitRun g g.top k (.error e)) :
      SweepRun g 1 k (.error e)
  | unbuilt {g g' : Network} {k : Nat} {e : NetworkError} (visits : VisitRun g g.top k (.ok g'))
      (rebuilt : g'.rebuildTop = .error e) : SweepRun g 1 k (.error e)

namespace VisitRun

variable {splices : Nat} {r : Attempt Network}

/-- The loop over the inputs counts what the run splices out. -/
theorem foldlM_eq (h : VisitRun g inputs splices r) (k : Nat) :
    inputs.foldlM fuseIfForwarded (k, g) = r.map fun g' => (k + splices, g') := by
  induction h generalizing k with
  | done => rfl
  | skip answer _ ih =>
    rw [foldlM_cons]
    simp only [fuseIfForwarded, answer, ok_bind]
    exact ih k
  | splice answer step _ ih =>
    rw [foldlM_cons]
    simp only [fuseIfForwarded, answer, step, ok_bind, if_pos]
    rw [← Nat.add_assoc, Nat.add_right_comm]
    exact ih (k + 1)
  | unanswered answer =>
    rw [foldlM_cons]
    simp only [fuseIfForwarded, answer]
    rfl
  | stuck answer step =>
    rw [foldlM_cons]
    simp only [fuseIfForwarded, answer, step, ok_bind, if_pos]
    rfl

theorem sweep_eq (h : VisitRun g g.top splices r) :
    g.sweep = r >>= fun g' => g'.rebuildTop.map fun g'' => (splices, g'') := by
  rw [sweep, h.foldlM_eq, Nat.zero_add]
  cases r with
  | error e => rfl
  | ok g' =>
    cases g'.rebuildTop <;> rfl

/-- Every splice uses up a pin node, so there are as many at most. -/
theorem spec (h : VisitRun g inputs splices r) (hg : g.HandlesInRange)
    (hinputs : ∀ c ∈ inputs, (g.conn? c).isSome) : splices ≤ g.livePinNodes ∧
      Follows (fun g' => g'.HandlesInRange ∧ splices + g'.livePinNodes ≤ g.livePinNodes) r := by
  induction h with
  | done =>
    refine ⟨Nat.zero_le _, .ok ⟨hg, ?_⟩⟩
    omega
  | skip _ _ ih => exact ih hg fun c hc => hinputs c (mem_cons_of_mem _ hc)
  | splice answer step _ ih =>
    have hstep := follows_fuse hg answer
    rw [step] at hstep
    rcases hstep.of_ok with ⟨hg', hsome, hlt⟩
    rcases ih hg' fun c hc => hsome (hinputs c (mem_cons_of_mem _ hc)) with ⟨hle, hrest⟩
    constructor
    · omega
    · refine hrest.mono (fun _ => id) fun g'' h'' => ⟨h''.1, ?_⟩
      omega
  | unanswered answer =>
    have hstep := follows_isForwarded (E := (· ≠ .unallocated)) hg.closed (hinputs _ mem_cons_self)
    rw [answer] at hstep
    exact ⟨Nat.zero_le _, .error hstep.of_error⟩
  | stuck answer step =>
    have hstep := follows_fuse hg answer
    rw [step] at hstep
    exact ⟨Nat.zero_le _, .error hstep.of_error⟩

end VisitRun

/-- Going over a list ends, for the list does not change on the way. -/
theorem exists_visitRun (g : Network) (inputs : List ConnId) : ∃ splices r, VisitRun g inputs splices r := by
  induction inputs generalizing g with
  | nil => exact ⟨0, _, .done⟩
  | cons input inputs ih =>
    cases answer : g.isForwarded input with
    | error e => exact ⟨0, _, .unanswered answer⟩
    | ok forwarded =>
      cases forwarded with
      | false =>
        rcases ih g with ⟨splices, r, h⟩
        exact ⟨splices, r, .skip answer h⟩
      | true =>
        cases step : g.fuse input with
        | error e => exact ⟨0, _, .stuck answer step⟩
        | ok g' =>
          rcases ih g' with ⟨splices, r, h⟩
          exact ⟨splices + 1, r, .splice answer step h⟩

theorem livePinNodes_rebuildTop (hg : g.HandlesInRange) (h : g.rebuildTop = .ok g') :
    g'.HandlesInRange ∧ g'.livePinNodes ≤ g.livePinNodes := by
  have hstep := follows_rebuildTop (A := fun _ => False) hg
  rw [h] at hstep
  exact ⟨hstep.of_ok.inRange, livePinNodes_le fun n => hstep.of_ok.live id⟩

namespace SweepRun

variable {sweeps splices : Nat} {r : Attempt Network}

/-- Every sweep but the last splices something out. -/
theorem spec (h : SweepRun g sweeps splices r) (hg : g.HandlesInRange) :
    splices ≤ g.livePinNodes ∧ sweeps ≤ splices + 1 ∧ Follows HandlesInRange r := by
  induction h with
  | last visits rebuilt =>
    have hg' := (visits.spec hg fun c => hg.top_isSome).2.of_ok.1
    exact ⟨Nat.zero_le _, Nat.le_refl _, .ok (livePinNodes_rebuildTop hg' rebuilt).1⟩
  | again visits rebuilt _ ih =>
    rcases (visits.spec hg fun c => hg.top_isSome).2.of_ok with ⟨hg', hle'⟩
    rcases livePinNodes_rebuildTop hg' rebuilt with ⟨hg'', hle''⟩
    rcases ih hg'' with ⟨hsplices, hsweeps, hr⟩
    refine ⟨?_, ?_, hr⟩ <;> omega
  | failed visits =>
    rcases visits.spec hg fun c => hg.top_isSome with ⟨hle, hr⟩
    exact ⟨hle, Nat.le_add_left 1 _, .error hr.of_error⟩
  | unbuilt visits rebuilt =>
    rcases visits.spec hg fun c => hg.top_isSome with ⟨hle, hr⟩
    have hstep := follows_rebuildTop (A := fun _ => True) hr.of_ok.1
    rw [rebuilt] at hstep
    exact ⟨hle, Nat.le_add_left 1 _, .error hstep.of_error⟩

/-- The bound of the pass does not cut the loop short. -/
theorem sweepAll_eq (h : SweepRun g sweeps splices r) (hbound : sweeps ≤ bound) :
    sweepAll bound g = r.map fun g' => (decide (splices ≠ 0), g') := by
  induction h generalizing bound with
  | last visits rebuilt =>
    obtain ⟨bound, rfl⟩ := Nat.exists_eq_add_of_le' hbound
    rw [sweepAll, visits.sweep_eq, ok_bind, rebuilt]
    rfl
  | @again _ _ _ k _ splices r visits rebuilt _ ih =>
    obtain ⟨bound, rfl⟩ := Nat.exists_eq_add_of_le' (Nat.le_trans (Nat.le_add_left 1 _) hbound)
    have hfused : decide (k + 1 + splices ≠ 0) := decide_eq_true (by omega)
    rw [sweepAll, visits.sweep_eq, ok_bind, rebuilt, hfused]
    show (do let s ← sweepAll bound _; return (true, s.2)) = _
    rw [ih (Nat.le_of_succ_le_succ hbound)]
    cases r <;> rfl
  | failed visits =>
    obtain ⟨bound, rfl⟩ := Nat.exists_eq_add_of_le' hbound
    rw [sweepAll, visits.sweep_eq]
    rfl
  | unbuilt visits rebuilt =>
    obtain ⟨bound, rfl⟩ := Nat.exists_eq_add_of_le' hbound
    rw [sweepAll, visits.sweep_eq, ok_bind, rebuilt]
    rfl

/-- Within the bound, the pass does what the sweeps do and then trims the latches. -/
theorem simplify_eq (h : SweepRun g sweeps splices r) (hg : g.HandlesInRange) :
    g.simplify = r >>= trimLatches (decide (splices ≠ 0)) := by
  rcases h.spec hg with ⟨hsplices, hsweeps, -⟩
  rw [simplify, h.sweepAll_eq (by omega)]
  cases r <;> rfl

end SweepRun

/-- The sweeps end, because all but the last leave fewer pin nodes that own a connection. -/
theorem exists_sweepRun (hg : g.HandlesInRange) : ∃ sweeps splices r, SweepRun g sweeps splices r := by
  induction hlive : g.livePinNodes using Nat.strong_induction_on generalizing g with
  | _ live ih =>
    rcases exists_visitRun g g.top with ⟨k, r, visits⟩
    cases r with
    | error e => exact ⟨1, k, _, .failed visits⟩
    | ok g' =>
      rcases (visits.spec hg fun c => hg.top_isSome).2.of_ok with ⟨hg', hle'⟩
      cases rebuilt : g'.rebuildTop with
      | error e => exact ⟨1, k, _, .unbuilt visits rebuilt⟩
      | ok g'' =>
        rcases livePinNodes_rebuildTop hg' rebuilt with ⟨hg'', hle''⟩
        cases k with
        | zero => exact ⟨1, 0, _, .last visits rebuilt⟩
        | succ k =>
          have hlt : g''.livePinNodes < live := by omega
          rcases ih _ hlt hg'' rfl with ⟨sweeps, splices, r, rest⟩
          exact ⟨sweeps + 1, k + 1 + splices, r, .again visits rebuilt rest⟩

/-! ## Latch controls -/

/-- Dropping a control follows no handle that was made up. -/
theorem follows_dropControl (hg : s.2.HandlesInRange) (hlatch : (s.2.node? latch).isSome)
    (hc : (s.2.conn? c).isSome) : Follows (fun s' => Confines A s.2 s'.2) (dropControl latch s c) := by
  refine (follows_conn hc).bind fun x hx => ?_
  cases LatchControl.ofPort? x.name with
  | none => exact .ok (.refl hg)
  | some control =>
    cases hd : x.refs.head? with
    | none => exact (follows_detach hg hc).bind fun g1 h1 => .ok h1
    | some driver =>
      have hdriver := head_isSome hg hx hd
      refine (follows_owner hg.closed hdriver).bind fun source ⟨_, hsource⟩ => ?_
      refine (follows_node hsource).bind fun y _ => ?_
      by_cases hzero : (y.kind = .constant && y.constant = some 0) = true
      · rw [if_pos hzero]
        refine (follows_detach (A := A) hg hc).bind fun g1 h1 => ?_
        refine (follows_fanOut (h1.conn_isSome hdriver)).bind fun count _ => ?_
        split
        · refine (follows_retire (A := A) h1.inRange (h1.node_isSome hsource)).bind fun g2 h2 => ?_
          exact .ok (h1.trans h2.1)
        · exact .ok h1
      · rw [if_neg hzero]
        exact (follows_nodeName hlatch).bind fun _ _ => .inr ⟨_, rfl, nofun⟩

theorem follows_dropControls (hg : s.2.HandlesInRange) (hlatch : (s.2.node? latch).isSome) :
    Follows (fun s' => Confines A s.2 s'.2) (dropControls s latch) := by
  refine (follows_inputs hg.closed hlatch).bind fun inputs hinputs => ?_
  refine Ends.foldlM_invariant (fun s' c hc hs => ?_) (.refl hg)
  have hstep := follows_dropControl (A := A) hs.inRange (hs.node_isSome hlatch)
    (hs.conn_isSome (hinputs c hc))
  exact hstep.mono (fun _ => id) fun _ h => hs.trans h

theorem follows_dropLatchControls (hg : g.HandlesInRange) :
    Follows (fun s => Confines A g s.2) g.dropLatchControls := by
  refine Ends.foldlM_invariant (fun s latch hlatch hs => ?_) (.refl hg)
  have hlisted : (g.node? latch).isSome :=
    hg.listed_isSome (mem_append_left _ (mem_append_left _ (mem_filter.mp hlatch).1))
  have hstep := follows_dropControls (A := A) hs.inRange (hs.node_isSome hlisted)
  exact hstep.mono (fun _ => id) fun _ h => hs.trans h

theorem follows_trimLatches (hg : g.HandlesInRange) (fused : Bool) :
    Follows (fun _ => True) (trimLatches fused g) := by
  refine (follows_dropLatchControls (A := fun _ => True) hg).bind fun s hs => ?_
  refine (follows_rebuildTop (A := fun _ => True) hs.inRange).bind fun g1 h1 => ?_
  exact (follows_checkAll h1.inRange).bind fun _ _ => .ok trivial

/-! ## The logic behind a pin node -/

section Cones

variable {E : NetworkError → Prop} {J : ConnId → Prop} (hg : g.Closed J)
include hg

/-- The nodes of a cone were handed out. -/
theorem follows_coneOf (hroot : J root) :
    Ends E (fun cone => ∀ n ∈ cone.inner, (g.node? n).isSome) (g.coneOf root) := by
  refine Ends.drain (fun cone o hcone ho => ?_) nofun
    (by simpa using hroot)
  refine (follows_owner hg ho).bind fun n ⟨_, hn⟩ => (follows_nodeKind hn).bind fun k _ => ?_
  split
  · exact .ok ⟨hcone, nofun⟩
  · split
    · exact .ok ⟨hcone, nofun⟩
    · refine (follows_inputs hg hn).bind fun inputs hinputs => ?_
      refine (follows_driversOf hg hinputs).bind fun drivers hdrivers => .ok ⟨fun m hm => ?_, hdrivers⟩
      rcases mem_append.mp hm with hm | hm
      · exact hcone m hm
      · rwa [mem_singleton.mp hm]

theorem follows_isFeedback (hpn : (g.node? pn).isSome) : Ends E (fun _ => True) (g.isFeedback pn) := by
  refine (follows_sinks hg hpn).bind fun sinks hsinks => ?_
  refine (follows_driversOf hg hsinks).bind fun drivers hdrivers => ?_
  exact Ends.anyM fun d hd => (follows_coneOf hg (hdrivers d hd)).bind fun _ _ => .ok trivial

theorem follows_expressionSize (hpn : (g.node? pn).isSome) :
    Ends E (fun _ => True) (g.expressionSize pn) := by
  refine (follows_sinks hg hpn).bind fun sinks hsinks => ?_
  refine (follows_driversOf hg hsinks).bind fun drivers hdrivers => ?_
  have hwalk : Ends E (fun _ => True) (drain g.costStep (drivers.length + g.listedConns)
      ((NodeSet.empty g.nodes.size).insert pn, 0) drivers) := by
    refine Ends.drain (fun s o _ ho => ?_) trivial hdrivers
    refine (follows_owner hg ho).bind fun n ⟨_, hn⟩ => (follows_nodeKind hn).bind fun k _ => ?_
    split
    · exact .ok ⟨trivial, nofun⟩
    · refine (follows_sinks hg hn).bind fun sinks hsinks => ?_
      exact (follows_driversOf hg hsinks).bind fun more hmore => .ok ⟨trivial, hmore⟩
  exact hwalk.bind fun _ _ => .ok trivial

/-- Weighing a pin node follows no handle that was made up. -/
theorem follows_offer? (hpn : (g.node? pn).isSome) : Ends E (fun _ => True) (g.offer? pn) := by
  have hcost : Ends E (fun _ => True) (g.copyCost pn) := by
    refine (follows_expressionSize hg hpn).bind fun size _ => ?_
    refine (follows_output? hg hpn).bind fun o ho => ?_
    cases o with
    | none => exact .ok trivial
    | some o => exact (follows_fanOut (hg.isSome (ho o rfl))).bind fun _ _ => .ok trivial
  refine (follows_node hpn).bind fun y _ => ?_
  split
  · refine (follows_isFeedback hg hpn).bind fun feedback _ => ?_
    split
    · exact .ok trivial
    · exact hcost.bind fun _ _ => .ok trivial
  · exact .ok trivial

theorem follows_nextCandidate (hpns : ∀ pn ∈ g.pinNodes, (g.node? pn).isSome) :
    Ends E (fun _ => True) g.nextCandidate := by
  have hoffers : Ends E (fun _ => True) (g.pinNodes.mapM g.offer?) :=
    (Ends.mapM fun pn hpn => follows_offer? hg (hpns pn hpn)).mono (fun _ => id) fun _ _ => trivial
  exact hoffers.bind fun _ _ => .ok trivial

end Cones

/-! ## Copies -/

/-- Any node may come to own a connection. -/
abbrev Anywhere (_ : NodeId) : Prop := True

section Copies

variable (hg : g.HandlesInRange)
include hg

/-- Copying a node makes up no handle. -/
theorem follows_copyNode (hn : (g.node? n).isSome) :
    Follows (fun r => Confines Anywhere g r.2 ∧ (r.2.node? r.1).isSome) (g.copyNode n) := by
  refine (follows_node hn).bind fun x hx => ?_
  have h1 : Confines Anywhere g (g.addCell x.name x.kind).2 := .addCell hg x.name x.kind
  have h2 := h1.trans (.modifyNode (f := fun y => { y with constant := x.constant })
    h1.inRange (fun _ => rfl) (fun y hy c hc => h1.inRange.conn_isSome (n := g.nextNode)
      (by rwa [connsOf_of_node? hy])) fun _ _ => id)
  have hnew2 : (((g.addCell x.name x.kind).2.modifyNode g.nextNode
      fun y => { y with constant := x.constant }).node? g.nextNode).isSome := by
    simp
  -- each connection of the node is copied onto the new one
  have hloop : Follows (fun s => Confines Anywhere g s ∧ (s.node? g.nextNode).isSome)
      (x.conns.foldlM (copyConn g.nextNode) ((g.addCell x.name x.kind).2.modifyNode g.nextNode
        fun y => { y with constant := x.constant })) := by
    refine Ends.foldlM_invariant (fun s c hc ⟨hs, hnode⟩ => ?_) ⟨h2, hnew2⟩
    have hsome : (g.conn? c).isSome := hg.conn_isSome (by rwa [connsOf_of_node? hx])
    refine (follows_conn (hs.conn_isSome hsome)).bind fun y _ => .ok ?_
    have hatt : Confines Anywhere s (s.attach g.nextNode y.name y.direction).2 :=
      .attach hs.inRange hnode trivial _ _
    exact ⟨hs.trans hatt, hatt.node_isSome hnode⟩
  exact hloop.bind fun s hs => .ok hs

theorem follows_copyNodes {ns : List NodeId} (hns : ∀ n ∈ ns, (g.node? n).isSome) :
    Follows (fun r => Confines Anywhere g r.2 ∧
      ∀ p ∈ r.1, (r.2.node? p.1).isSome ∧ (r.2.node? p.2).isSome) (g.copyNodes ns) := by
  refine Ends.foldlM_invariant (fun s n hn ⟨hs, hpairs⟩ => ?_) ⟨.refl hg, nofun⟩
  have hsome := hs.node_isSome (hns n hn)
  refine (follows_copyNode hs.inRange hsome).bind fun r ⟨hr, hnew⟩ => .ok ⟨hs.trans hr, fun p hp => ?_⟩
  rcases mem_append.mp hp with hp | hp
  · exact ⟨hr.node_isSome (hpairs p hp).1, hr.node_isSome (hpairs p hp).2⟩
  · rw [mem_singleton.mp hp]
    exact ⟨hr.node_isSome hsome, hnew⟩

theorem follows_copiedSource? (hcopies : ∀ p ∈ copies, (g.node? p.2).isSome)
    (hconsumer : (g.conn? consumer).isSome) (hd : (g.conn? d).isSome) :
    Follows (fun target => ∀ c ∈ target, (g.conn? c).isSome) (g.copiedSource? copies pn consumer d) := by
  refine (follows_owner hg.closed hd).bind fun n _ => ?_
  cases hlookup : copies.lookup n with
  | some copy =>
    rcases lookup_eq_some_iff.mp hlookup with ⟨l, l', rfl, -⟩
    exact follows_output? hg.closed (hcopies (n, copy) (by simp))
  | none =>
    dsimp only
    split
    · refine (follows_owner hg.closed hconsumer).bind fun m ⟨_, hm⟩ => follows_source? hg.closed hm
    · exact .ok (by simpa using hd)

/-- Wiring a connection of a copy makes up no handle. -/
theorem follows_wireCopiedConn {pair : ConnId × ConnId} (hcopies : ∀ p ∈ copies, (g.node? p.2).isSome)
    (hconsumer : (g.conn? consumer).isSome) (hpair : (g.conn? pair.1).isSome ∧ (g.conn? pair.2).isSome) :
    Follows (Confines Anywhere g) (wireCopiedConn copies pn consumer g pair) := by
  refine (follows_conn hpair.1).bind fun x hx => ?_
  split
  · cases hd : x.refs.head? with
    | none => exact .ok (.refl hg)
    | some source =>
      have hsource := head_isSome hg hx hd
      refine (follows_copiedSource? hg hcopies hconsumer hsource).bind fun target htarget => ?_
      cases target with
      | none => exact (follows_path hg hpair.2).bind fun _ _ => .inr ⟨_, rfl, nofun⟩
      | some target => exact .ok (.wire hg hpair.2 (htarget target rfl))
  · exact .ok (.refl hg)

theorem follows_wireCopy {pair : NodeId × NodeId} (hcopies : ∀ p ∈ copies, (g.node? p.2).isSome)
    (hconsumer : (g.conn? consumer).isSome) (hpair : (g.node? pair.1).isSome ∧ (g.node? pair.2).isSome) :
    Follows (Confines Anywhere g) (wireCopy copies pn consumer g pair) := by
  refine (follows_node hpair.1).bind fun old hold => (follows_node hpair.2).bind fun new hnew => ?_
  refine Ends.foldlM_invariant (fun s p hp hs => ?_) (.refl hg)
  rcases of_mem_zip hp with ⟨hp1, hp2⟩
  have hold' : (g.conn? p.1).isSome := hg.conn_isSome (by rwa [connsOf_of_node? hold])
  have hnew' : (g.conn? p.2).isSome := hg.conn_isSome (by rwa [connsOf_of_node? hnew])
  refine (follows_wireCopiedConn hs.inRange (fun q hq => hs.node_isSome (hcopies q hq))
    (hs.conn_isSome hconsumer) ⟨hs.conn_isSome hold', hs.conn_isSome hnew'⟩).mono (fun _ => id) ?_
  exact fun _ h => hs.trans h

/-- Nor does copying all the logic behind an output. -/
theorem follows_copyCone (hinner : ∀ n ∈ cone.inner, (g.node? n).isSome) (hroot : (g.conn? root).isSome)
    (hconsumer : (g.conn? consumer).isSome) :
    Follows (fun r => Confines Anywhere g r.2 ∧ (r.2.conn? r.1).isSome)
      (g.copyCone cone root pn consumer) := by
  refine (follows_copyNodes hg hinner).bind fun ⟨copies, g1⟩ ⟨h1, hcopies⟩ => ?_
  have hloop : Follows (Confines Anywhere g1) (copies.foldlM (wireCopy copies pn consumer) g1) := by
    refine Ends.foldlM_invariant (fun s p hp hs => ?_) (.refl h1.inRange)
    have hstep : Follows (Confines Anywhere s) (wireCopy copies pn consumer s p) :=
      follows_wireCopy hs.inRange (fun q hq => hs.node_isSome (hcopies q hq).2)
        (hs.conn_isSome (h1.conn_isSome hconsumer))
        ⟨hs.node_isSome (hcopies p hp).1, hs.node_isSome (hcopies p hp).2⟩
    exact hstep.mono (fun _ => id) fun _ h => hs.trans h
  refine hloop.bind fun g2 h2 => ?_
  have h' := h1.trans h2
  refine (follows_owner h'.inRange.closed (h'.conn_isSome hroot)).bind fun n ⟨_, hn⟩ => ?_
  cases hlookup : copies.lookup n with
  | none => exact .ok ⟨h', h'.conn_isSome hroot⟩
  | some copy =>
    have hcopy : (g2.node? copy).isSome := by
      rcases lookup_eq_some_iff.mp hlookup with ⟨l, l', rfl, -⟩
      exact h2.node_isSome (hcopies (n, copy) (by simp)).2
    refine (follows_output? h'.inRange.closed hcopy).bind fun o ho => ?_
    cases o with
    | none => exact (follows_nodeName hn).bind fun _ _ => .inr ⟨_, rfl, nofun⟩
    | some out => exact .ok ⟨h', ho out rfl⟩

theorem follows_inlineInto (hinner : ∀ n ∈ cone.inner, (g.node? n).isSome) (hroot : (g.conn? root).isSome)
    (hconsumer : (g.conn? consumer).isSome) :
    Follows (Confines Anywhere g) (inlineInto cone root pn out g consumer) := by
  refine (follows_owner hg.closed hconsumer).bind fun n _ => ?_
  split
  · exact .ok (.refl hg)
  · refine (follows_copyCone hg hinner hroot hconsumer).bind fun r ⟨hr, hcopy⟩ => .ok ?_
    have hcut : Confines Anywhere r.2 (r.2.cut consumer out) := .cut hr.inRange
    refine hr.trans (hcut.trans (.wire hcut.inRange ?_ (hcut.conn_isSome hcopy)))
    exact hcut.conn_isSome (hr.conn_isSome hconsumer)

theorem follows_retireIfUnread (hn : (g.node? n).isSome) :
    Follows (Confines Anywhere g) (g.retireIfUnread n) := by
  have hretire : Follows (Confines Anywhere g) (g.retire n) :=
    (follows_retire hg hn).mono (fun _ => id) fun _ h => h.1
  refine (follows_output? hg.closed hn).bind fun o ho => ?_
  cases o with
  | none => exact hretire
  | some o =>
    refine (follows_fanOut (ho o rfl)).bind fun count _ => ?_
    split
    · exact hretire
    · exact .ok (.refl hg)

/-- A pin node that was inlined is off the list, and no other one comes onto it. -/
theorem follows_inlinePinNode (hpn : (g.node? pn).isSome) :
    Follows (fun g' => Confines Anywhere g g' ∧ pn ∉ g'.pinNodes) (g.inlinePinNode pn) := by
  refine (follows_inputs hg.closed hpn).bind fun inputs hinputs => ?_
  split
  · rename_i input
    refine (follows_driver? hg.closed (hinputs input (mem_singleton_self _))).bind fun driver hdriver => ?_
    cases driver with
    | none => exact (follows_nodeName hpn).bind fun _ _ => .inr ⟨_, rfl, nofun⟩
    | some root =>
      have hroot := hdriver root rfl
      refine (follows_output? hg.closed hpn).bind fun output houtput => ?_
      cases output with
      | none => exact (follows_nodeName hpn).bind fun _ _ => .inr ⟨_, rfl, nofun⟩
      | some out =>
        refine (follows_coneOf hg.closed hroot).bind fun cone hinner => ?_
        refine (follows_conn (houtput out rfl)).bind fun x hx => ?_
        -- copying hands out new handles only
        have hcopies : Follows (Confines Anywhere g) (x.refs.foldlM (inlineInto cone root pn out) g) := by
          refine Ends.foldlM_invariant (fun s c hc hs => ?_) (.refl hg)
          have hsome : (g.conn? c).isSome := hg.ref_isSome (by rwa [refsOf_of_conn? hx])
          have hstep : Follows (Confines Anywhere s) (inlineInto cone root pn out s c) :=
            follows_inlineInto hs.inRange (fun n hn => hs.node_isSome (hinner n hn))
              (hs.conn_isSome hroot) (hs.conn_isSome hsome)
          exact hstep.mono (fun _ => id) fun _ h => hs.trans h
        refine hcopies.bind fun g1 h1 => ?_
        refine (follows_retire (A := Anywhere) h1.inRange (h1.node_isSome hpn)).bind fun g2 h2 => ?_
        have h' := h1.trans h2.1
        refine Ends.foldlM_invariant (fun s n hn hs => ?_) ⟨h', h2.2.2⟩
        have hstep := follows_retireIfUnread hs.1.inRange (hs.1.node_isSome (hinner n hn))
        exact hstep.mono (fun _ => id) fun _ h => ⟨hs.1.trans h, fun hmem => hs.2 (h.pinNodes.subset hmem)⟩
  · exact (follows_nodeName hpn).bind fun _ _ => .inr ⟨_, rfl, nofun⟩

end Copies

/-! ## Inlining without a bound -/

/-- Inlining pin nodes until few enough are left or none can go, however often that is. The count is that
of the rounds begun. -/
inductive InlineRun (limit : Nat) : Network → (rounds : Nat) → Attempt (Bool × Network) → Prop
  | within {g : Network} (few : g.pinNodes.length ≤ limit) : InlineRun limit g 0 (.ok (false, g))
  | exhausted {g : Network} (many : limit < g.pinNodes.length) (answer : g.nextCandidate = .ok none) :
      InlineRun limit g 1 (.ok (false, g))
  | unanswered {g : Network} {e : NetworkError} (many : limit < g.pinNodes.length)
      (answer : g.nextCandidate = .error e) : InlineRun limit g 1 (.error e)
  | stuck {g : Network} {pn : NodeId} {e : NetworkError} (many : limit < g.pinNodes.length)
      (answer : g.nextCandidate = .ok (some pn)) (step : g.inlineRound pn = .error e) :
      InlineRun limit g 1 (.error e)
  | again {g g' : Network} {pn : NodeId} {rounds : Nat} {r : Attempt (Bool × Network)}
      (many : limit < g.pinNodes.length) (answer : g.nextCandidate = .ok (some pn))
      (step : g.inlineRound pn = .ok g') (rest : InlineRun limit g' rounds r) :
      InlineRun limit g (rounds + 1) (r.map fun s => (true, s.2))

theorem inlineAll_succ (many : limit < g.pinNodes.length) (answer : g.nextCandidate = .ok (some pn)) :
    inlineAll limit (bound + 1) g =
      g.inlineRound pn >>= fun g' => (inlineAll limit bound g').map fun s => (true, s.2) := by
  rw [inlineAll, if_neg (Nat.not_le.mpr many), answer, ok_bind]
  dsimp only
  cases g.inlineRound pn with
  | error e => rfl
  | ok g' =>
    simp only [ok_bind]
    cases inlineAll limit bound g' <;> rfl

/-- A round shortens the list of pin nodes. -/
theorem follows_inlineRound (hg : g.HandlesInRange) (hpn : pn ∈ g.pinNodes) :
    Follows (fun g' => g'.HandlesInRange ∧ g'.pinNodes.length < g.pinNodes.length)
      (g.inlineRound pn) := by
  have hsome := hg.listed_isSome (mem_append_right _ hpn)
  refine (follows_inlinePinNode hg hsome).bind fun g1 ⟨h1, hgone⟩ => ?_
  refine (follows_rebuildTop (A := Anywhere) h1.inRange).bind fun g2 h2 => ?_
  refine (follows_checkAll h2.inRange).bind fun _ _ => .ok ⟨h2.inRange, ?_⟩
  have hsub := h2.pinNodes.trans h1.pinNodes
  refine Nat.lt_of_le_of_ne hsub.length_le fun heq => hgone (h2.pinNodes.subset ?_)
  rwa [hsub.eq_of_length heq]

namespace InlineRun

variable {rounds : Nat} {r : Attempt (Bool × Network)}

/-- There are no more rounds than pin nodes. -/
theorem spec (h : InlineRun limit g rounds r) (hg : g.HandlesInRange) :
    rounds ≤ g.pinNodes.length ∧ Follows (fun _ => True) r := by
  induction h with
  | within few => exact ⟨Nat.zero_le _, .ok trivial⟩
  | exhausted many _ => exact ⟨Nat.lt_of_le_of_lt (Nat.zero_le _) many, .ok trivial⟩
  | unanswered many answer =>
    have hstep := follows_nextCandidate (E := (· ≠ .unallocated)) hg.closed fun _ hpn =>
      hg.listed_isSome (mem_append_right _ hpn)
    rw [answer] at hstep
    exact ⟨Nat.lt_of_le_of_lt (Nat.zero_le _) many, .error hstep.of_error⟩
  | stuck many answer step =>
    have hstep := follows_inlineRound hg (nextCandidate_spec answer).1
    rw [step] at hstep
    exact ⟨Nat.lt_of_le_of_lt (Nat.zero_le _) many, .error hstep.of_error⟩
  | again many answer step _ ih =>
    have hstep := follows_inlineRound hg (nextCandidate_spec answer).1
    rw [step] at hstep
    rcases hstep.of_ok with ⟨hg', hlt⟩
    rcases ih hg' with ⟨hle, hr⟩
    refine ⟨by omega, ?_⟩
    rcases hr with ⟨s, rfl, -⟩ | ⟨e, rfl, he⟩
    · exact .ok trivial
    · exact .error he

/-- The bound of the pass does not cut the loop short. -/
theorem inlineAll_eq (h : InlineRun limit g rounds r) (hbound : rounds ≤ bound) :
    inlineAll limit bound g = r := by
  induction h generalizing bound with
  | within few =>
    cases bound with
    | zero => rfl
    | succ bound =>
      rw [inlineAll, if_pos few]
      rfl
  | exhausted many answer =>
    obtain ⟨bound, rfl⟩ := Nat.exists_eq_add_of_le' hbound
    rw [inlineAll, if_neg (Nat.not_le.mpr many), answer]
    rfl
  | unanswered many answer =>
    obtain ⟨bound, rfl⟩ := Nat.exists_eq_add_of_le' hbound
    rw [inlineAll, if_neg (Nat.not_le.mpr many), answer]
    rfl
  | stuck many answer step =>
    obtain ⟨bound, rfl⟩ := Nat.exists_eq_add_of_le' hbound
    rw [inlineAll_succ many answer, step]
    rfl
  | again many answer step _ ih =>
    obtain ⟨bound, rfl⟩ := Nat.exists_eq_add_of_le' (Nat.le_trans (Nat.le_add_left 1 _) hbound)
    rw [inlineAll_succ many answer, step, ok_bind, ih (Nat.le_of_succ_le_succ hbound)]

end InlineRun

/-- The rounds end, because each of them shortens the list of pin nodes. -/
theorem exists_inlineRun (hg : g.HandlesInRange) (limit : Nat) : ∃ rounds r, InlineRun limit g rounds r := by
  induction hlength : g.pinNodes.length using Nat.strong_induction_on generalizing g with
  | _ length ih =>
    by_cases few : g.pinNodes.length ≤ limit
    · exact ⟨0, _, .within few⟩
    · have many := Nat.not_le.mp few
      cases answer : g.nextCandidate with
      | error e => exact ⟨1, _, .unanswered many answer⟩
      | ok candidate =>
        cases candidate with
        | none => exact ⟨1, _, .exhausted many answer⟩
        | some pn =>
          cases step : g.inlineRound pn with
          | error e => exact ⟨1, _, .stuck many answer step⟩
          | ok g' =>
            have hstep := follows_inlineRound hg (nextCandidate_spec answer).1
            rw [step] at hstep
            rcases hstep.of_ok with ⟨hg', hlt⟩
            rcases ih _ (hlength ▸ hlt) hg' rfl with ⟨rounds, r, rest⟩
            exact ⟨rounds + 1, _, .again many answer step rest⟩

/-! ## The passes -/

/-- On a network whose handles were all handed out, however it is wired, the loops of both passes end. The
sweeps splice out at most as many pin nodes as own a connection at the start, and there is at most one
sweep more than that; what the pass answers is what the unbounded loop leads to. Likewise the number of
pin nodes on the list bounds the rounds of inlining. Neither pass follows a handle that was not handed
out. -/
theorem rewriting_bounded (g : Network) (hg : g.HandlesInRange) :
    (∃ sweeps splices r, SweepRun g sweeps splices r) ∧
    (∀ sweeps splices r, SweepRun g sweeps splices r →
      splices ≤ g.livePinNodes ∧ sweeps ≤ g.livePinNodes + 1 ∧
        g.simplify = r >>= trimLatches (decide (splices ≠ 0))) ∧
    g.simplify ≠ .error .unallocated ∧
    ∀ limit, (∃ rounds r, InlineRun limit g rounds r) ∧
      (∀ rounds r, InlineRun limit g rounds r →
        rounds ≤ g.pinNodes.length ∧ g.expand (some limit) = r) ∧
      g.expand (some limit) ≠ .error .unallocated := by
  rcases exists_sweepRun hg with ⟨sweeps, splices, r, hrun⟩
  refine ⟨⟨sweeps, splices, r, hrun⟩, fun sweeps splices r h => ?_, ?_, fun limit => ?_⟩
  · rcases h.spec hg with ⟨hsplices, hsweeps, -⟩
    exact ⟨hsplices, Nat.le_trans hsweeps (Nat.succ_le_succ hsplices), h.simplify_eq hg⟩
  · have hfollows : Follows (fun _ => True) g.simplify := by
      rw [hrun.simplify_eq hg]
      exact (hrun.spec hg).2.2.bind fun g' hg' => follows_trimLatches hg' _
    intro heq
    rw [heq] at hfollows
    exact hfollows.of_error rfl
  · rcases exists_inlineRun hg limit with ⟨rounds, r, hrounds⟩
    have hexpand : ∀ {rounds r}, InlineRun limit g rounds r → g.expand (some limit) = r :=
      fun h => h.inlineAll_eq (h.spec hg).1
    refine ⟨⟨rounds, r, hrounds⟩, fun rounds r h => ⟨(h.spec hg).1, hexpand h⟩, fun heq => ?_⟩
    have hfollows := (hrounds.spec hg).2
    rw [← hexpand hrounds, heq] at hfollows
    exact hfollows.of_error rfl

/-- A chain of pin nodes with little order in it: the pin nodes `a` and `b` are on no list, their outputs do
not know who reads them, the inverter reads itself, and its output says that it belongs to the pin `z`. -/
def tangle : Network where
  nodes := ⟨#[{ name := "m", kind := .design },
    { name := "y", kind := .pin, conns := [⟨0⟩] },
    { name := "a", kind := .pinNode, conns := [⟨1⟩, ⟨2⟩] },
    { name := "b", kind := .pinNode, conns := [⟨3⟩, ⟨4⟩] },
    { name := "i", kind := .inverter, conns := [⟨5⟩, ⟨6⟩] },
    { name := "p", kind := .pinNode, conns := [⟨7⟩, ⟨8⟩] },
    { name := "z", kind := .pin, conns := [⟨9⟩] }]⟩
  conns := ⟨#[⟨⟨1⟩, .input, "y", [⟨2⟩]⟩, ⟨⟨2⟩, .input, pinNodeInput, [⟨4⟩]⟩,
    ⟨⟨2⟩, .output, pinNodeOutput, []⟩, ⟨⟨3⟩, .input, pinNodeInput, [⟨6⟩]⟩,
    ⟨⟨3⟩, .output, pinNodeOutput, []⟩, ⟨⟨4⟩, .input, "A", [⟨6⟩]⟩, ⟨⟨6⟩, .output, "Y", [⟨5⟩]⟩,
    ⟨⟨5⟩, .input, pinNodeInput, [⟨6⟩]⟩, ⟨⟨5⟩, .output, pinNodeOutput, [⟨9⟩]⟩,
    ⟨⟨6⟩, .input, "z", [⟨8⟩]⟩]⟩
  cells := [⟨4⟩]
  pins := [⟨1⟩, ⟨6⟩]
  pinNodes := [⟨5⟩]
  top := [⟨0⟩]

/-- All three pin nodes go before the check finds the wiring out of order. -/
theorem rewriting_bounded_tangle : tangle.HandlesInRange ∧ tangle.livePinNodes = 3 ∧
    (∃ sweeps splices r, SweepRun tangle sweeps splices r ∧ splices ≤ 3 ∧ sweeps ≤ 4) ∧
    tangle.simplify = .error (.mismatch "y.y" (.unanswered "z.Y")) ∧
    ∃ rounds r, InlineRun 0 tangle rounds r ∧ rounds ≤ 1 := by
  have hrange : tangle.HandlesInRange := by
    constructor <;> decide
  have hlive : tangle.livePinNodes = 3 := by decide
  rcases rewriting_bounded tangle hrange with ⟨⟨sweeps, splices, r, hrun⟩, hbound, -, hinline⟩
  rcases hbound sweeps splices r hrun with ⟨hsplices, hsweeps, -⟩
  rcases hinline 0 with ⟨⟨rounds, r', hrounds⟩, hinline, -⟩
  refine ⟨hrange, hlive, ⟨sweeps, splices, r, hrun, hsplices, hsweeps⟩, ?_, rounds, r', hrounds, ?_⟩
  · decide +kernel
  · exact (hinline rounds r' hrounds).1

end PldSynth.Network
