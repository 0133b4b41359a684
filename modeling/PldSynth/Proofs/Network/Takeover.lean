import PldSynth.Network.Takeover
import PldSynth.Proofs.Network.Merging

/-!
# Taking over one register or buffer

A cell is taken over in three steps. A node is found for it, an existing pin or pin node or a new pin
node (`Seats`). The inputs of the cell go over to that node, and the input of the node that the cell
drove gives way: a register drops it, a buffer leaves it to the driver of its data input. Then the
consumers follow and the cell goes out of use. `Takeover.Applies` is what all that comes to, for
registers and buffers alike.
-/

namespace PldSynth.Network

open Attempt List
open PldSynth.NodeKind (isCell isNamed isSequential)

variable {K : NodeKind → Bool} {g g' g1 : Network} {n m t cell : NodeId} {c d x o slot : ConnId}
  {cs : List ConnId} {source : Node} {l : List ConnId} {g2 : Network} {r : (NodeId × ConnId) × Network}

/-! ## The node that takes over -/

/-- The owners of these kinds, one for each connection. -/
theorem ownersOfKind_eq_ok {p : NodeKind → Bool} {ns : List NodeId} (h : g.ownersOfKind p cs = .ok ns) :
    List.Forall₂ (fun c n => g.ownerOf? c = some n)
      (cs.filter fun c => (g.ownerOf? c).any (g.hasKind p)) ns := by
  simp only [ownersOfKind, bind_eq_ok, pure_eq_ok, mapM_eq_ok, owner_eq_ok,
    nodeKind_eq_ok] at h
  obtain ⟨owners, howners, rfl⟩ := h
  induction howners with
  | nil => exact .nil
  | @cons c r cs owners hc _ ih =>
    obtain ⟨n, hn, k, hk, rfl⟩ := hc
    have hp : (g.ownerOf? c).any (g.hasKind p) = p k := by simp [hn, hasKind, hk]
    rw [filter_cons, filter_cons, hp]
    cases hpk : p k with
    | false => simpa [hpk] using ih
    | true =>
      exact .cons hn ih

/-- The node `t` reads the output `o` at the connection `slot` and nowhere else, and it is a pin unless
nothing else reads `o` at all. -/
structure Seat (g : Network) (o : ConnId) (t : NodeId) (slot : ConnId) : Prop where
  named : g.hasKind isNamed t = true
  mem : slot ∈ g.connsOf t
  sink : g.isSink slot = true
  refs : g.refsOf slot = [o]
  alone : ∀ x ∈ g.refsOf o, x ∈ g.connsOf t → x = slot
  pin : g.kindOf? t = some .pin ∨ g.refsOf o = [slot]

/-- The kinds of nodes that may take over the owner of an output: pins, and pin nodes too if nothing else
reads the output. -/
def hostKind (g : Network) (o : ConnId) : NodeKind → Bool :=
  if 1 < (g.refsOf o).length then (· = .pin) else isNamed

/-- The consumers of an output that belong to a node of one of these kinds. -/
def hostSlots (g : Network) (o : ConnId) : List ConnId :=
  (g.refsOf o).filter fun c => (g.ownerOf? c).any (g.hasKind (g.hostKind o))

/-- A node is found if exactly one consumer fits. -/
theorem hostSlots_of_existingTarget? (h : g.existingTarget? o = .ok (some t)) :
    ∃ slot, g.hostSlots o = [slot] ∧ g.ownerOf? slot = some t := by
  simp only [existingTarget?, bind_eq_ok, conn_eq_ok] at h
  obtain ⟨y, hy, ns, hns, h⟩ := h
  rw [← refsOf_of_conn? hy] at hns
  split at h
  swap
  · simp [pure_eq_ok] at h
  rename_i n
  obtain rfl : n = t := by simpa [pure_eq_ok] using h
  have hall : List.Forall₂ (fun c n => g.ownerOf? c = some n) (g.hostSlots o) [n] :=
    ownersOfKind_eq_ok hns
  generalize g.hostSlots o = l at hall
  cases hall with
  | cons hc hnil =>
    cases hnil
    exact ⟨_, rfl, hc⟩

/-- A node that is found to take the cell over reads its output once. -/
theorem seat_existingTarget? (hg : g.Sound) (ho : g.isOutput o) (h : g.existingTarget? o = .ok (some t)) :
    ∃ slot, Seat g o t slot := by
  obtain ⟨slot, hslot, hown⟩ := hostSlots_of_existingTarget? h
  obtain ⟨hmem, hkind⟩ := mem_filter.mp (hslot ▸ mem_singleton_self slot)
  obtain ⟨n, hn⟩ := hg.listed (hg.mirror hmem)
  obtain rfl : n = t := Option.mem_unique (hg.owner hn) hown
  rw [hown] at hkind
  have hpn : ∀ k, g.hostKind o k → k.isNamed := by
    intro k hk
    unfold hostKind at hk
    split at hk
    · rw [of_decide_eq_true hk]
      rfl
    · exact hk
  refine ⟨slot, ?_, hn, hg.sink_of_output hmem ho, hg.refsOf_consumer ho hmem, ?_, ?_⟩
  · obtain ⟨k, hk, hpk⟩ := hasKind_iff.mp hkind
    exact hasKind_of hk (hpn k hpk)
  · intro x hx hxn
    have hin : x ∈ g.hostSlots o :=
      mem_filter.mpr ⟨hx, by rw [hg.owner hxn]; exact hkind⟩
    rw [hslot] at hin
    exact mem_singleton.mp hin
  · -- beside other consumers only a pin node is taken
    by_cases hlen : 1 < (g.refsOf o).length
    · obtain ⟨k, hk, hpk⟩ := hasKind_iff.mp hkind
      rw [hostKind, if_pos hlen] at hpk
      exact .inl (of_decide_eq_true hpk ▸ hk)
    · right
      match hl : g.refsOf o, hmem, hlen with
      | [y], hmem, _ => rw [mem_singleton.mp hmem]
      | _ :: _ :: _, _, hlen => simp at hlen

/-- The node that takes over the owner of `o` is there already, or it is put in. -/
inductive Seats (g : Network) (o : ConnId) : NodeId → ConnId → Network → Prop
  | existing {t : NodeId} {slot : ConnId} (h : Seat g o t slot) : Seats g o t slot g
  | fresh {g1 : Network} {source : Node} (h : PutsPinNode o source g g1)
    (hn : ∃ n, g.ownerOf? o = some n ∧ g.node? n = some source) : Seats g o g.nextNode g.putIn g1

theorem seat_puts (hg : g.Sound) (ho : g.isOutput o) (h : PutsPinNode o source g g') :
    Seat g' o g.nextNode g.putIn := by
  have hrefs := h.refsOf_self hg ho
  refine ⟨hasKind_iff.mpr ⟨.pinNode, by simp [h.kindOf?], rfl⟩, by simp [h.connsOf],
    by simp [h.isSink, putOut_ne_putIn.symm], h.refsOf_putIn hg ho, ?_, .inr hrefs⟩
  intro x hx _
  rw [hrefs] at hx
  exact mem_singleton.mp hx

namespace Seats

variable (h : Seats g o t slot g1)
include h

theorem seat (hg : g.Sound) (ho : g.isOutput o) : Seat g1 o t slot := by
  cases h with
  | existing h => exact h
  | fresh h => exact seat_puts hg ho h

theorem sound (hg : g.Sound) (ho : g.isOutput o) (hl : ∃ n, o ∈ g.connsOf n) : g1.Sound := by
  cases h with
  | existing => exact hg
  | fresh h => exact h.sound hg ho hl

theorem evolves : Evolves g g1 := by
  cases h with
  | existing => exact .refl g
  | fresh h => exact h.evolves

theorem connsOf (hn : (g.node? n).isSome) : g1.connsOf n = g.connsOf n := by
  cases h with
  | existing => rfl
  | fresh h => rw [h.connsOf, if_neg (ne_nextNode hn)]

theorem connNameOf? (hc : (g.conn? c).isSome) : g1.connNameOf? c = g.connNameOf? c := by
  cases h with
  | existing => rfl
  | fresh h => exact h.connNameOf? hc

theorem absorbedOf : g1.absorbedOf n = g.absorbedOf n := by
  cases h with
  | existing => rfl
  | fresh h => exact h.absorbedOf

end Seats

theorem seats_takeoverTarget {r : NodeId × Network} (hg : g.Sound) (ho : g.isOutput o)
    (h : g.takeoverTarget o = .ok r) : ∃ slot, Seats g o r.1 slot r.2 := by
  simp only [takeoverTarget, bind_eq_ok] at h
  obtain ⟨target, htarget, h⟩ := h
  split at h
  · cases pure_eq_ok.mp h
    obtain ⟨slot, hslot⟩ := seat_existingTarget? hg ho htarget
    exact ⟨slot, .existing hslot⟩
  · obtain ⟨n, source, hn, hs, hr, hputs⟩ := puts_putPinNode hg.toWired h
    rw [hr]
    exact ⟨_, .fresh hputs ⟨n, hn, hs⟩⟩

/-- A pin or pin node that has taken over nothing can be driven at one connection at most. -/
def Undivided (g : Network) : Prop :=
  ∀ ⦃n c c'⦄, g.hasKind isNamed n = true → g.absorbedOf n = .nothing → c ∈ g.connsOf n →
    c' ∈ g.connsOf n → g.isSink c = true → g.isSink c' = true → c = c'

theorem soleInput_eq_ok (h : g.soleInput n = .ok c) : (g.connsOf n).filter g.isInput = [c] := by
  simp only [soleInput, bind_eq_ok, inputs_eq_ok] at h
  obtain ⟨cs, ⟨-, hcs⟩, h⟩ := h
  split at h
  · rw [hcs, pure_eq_ok.mp h]
  · exact absurd h bind_throw_ne_ok

theorem PutsPinNode.inputs (h : PutsPinNode o source g g') :
    (g'.connsOf g.nextNode).filter g'.isInput = [g.putIn] := by
  have hout : g'.isInput g.putOut = false := by simp [isInput, h.directionOf?]
  have hin : g'.isInput g.putIn := by simp [isInput, h.directionOf?, putOut_ne_putIn.symm]
  simp [h.connsOf, hout, hin]

/-- What holds of the place where a register goes: the node has no register yet, and if it has a
buffer, then the register drives the data of that buffer and nothing else. -/
structure Vacant (g : Network) (o : ConnId) (t : NodeId) (slot : ConnId) : Prop where
  register : (g.absorbedOf t).register = false
  buffer : (g.absorbedOf t).buffer = true →
    g.refsOf o = [slot] ∧ g.connNameOf? slot ≠ some bufferEnable

theorem vacant_nextNode : Vacant g o g.nextNode slot := by
  constructor <;> simp [absorbedOf, Absorbed.nothing]

theorem seats_putTarget (hg : g.Sound)
    (h : g.putTarget o = .ok r) : Seats g o r.1.1 r.1.2 r.2 ∧ Vacant g o r.1.1 r.1.2 := by
  simp only [putTarget, bind_eq_ok, pure_eq_ok] at h
  obtain ⟨p, hp, c, hc, rfl⟩ := h
  obtain ⟨n, source, hn, hs, hr, hputs⟩ := puts_putPinNode hg.toWired hp
  have hin := soleInput_eq_ok hc
  rw [hr, hputs.inputs, singleton_inj] at hin
  rw [hr, ← hin]
  exact ⟨.fresh hputs ⟨n, hn, hs⟩, vacant_nextNode⟩

/-- Where a register goes. -/
theorem seats_registerTarget (hg : g.Sound) (hone : g.Undivided)
    (ho : g.isOutput o) (h : g.registerTarget o = .ok r) :
    Seats g o r.1.1 r.1.2 r.2 ∧ Vacant g o r.1.1 r.1.2 := by
  simp only [registerTarget, bind_eq_ok, node_eq_ok] at h
  obtain ⟨⟨t, g1⟩, htarget, x, hx, h⟩ := h
  obtain ⟨slot, hseats⟩ := seats_takeoverTarget hg ho htarget
  change Seats g o t slot g1 at hseats
  cases hseats with
  | fresh hputs hn =>
    -- the new pin node has taken over nothing
    have habs : x.absorbed = .nothing := by
      have := hputs.absorbedOf (m := g.nextNode)
      simpa [absorbedOf, hx] using this
    simp only [habs, Absorbed.nothing, Bool.false_eq_true, if_false, bind_eq_ok,
      pure_eq_ok] at h
    obtain ⟨c, hc, rfl⟩ := h
    have hin := soleInput_eq_ok hc
    rw [hputs.inputs, singleton_inj] at hin
    rw [← hin]
    exact ⟨.fresh hputs hn, vacant_nextNode⟩
  | existing hseat =>
    have habs : g.absorbedOf t = x.absorbed := by simp [absorbedOf, hx]
    split at h
    · exact seats_putTarget hg h
    rename_i hreg
    split at h
    · split at h
      · exact absurd h bind_throw_ne_ok
      rename_i hbuf slot' hfind
      simp only [bind_eq_ok, conn_eq_ok, fanOut_eq_ok] at h
      obtain ⟨y, hy, k, ⟨-, hk⟩, h⟩ := h
      split at h
      · exact seats_putTarget hg h
      rename_i hcond
      cases pure_eq_ok.mp h
      rw [← connsOf_of_node? hx] at hfind
      have hmem := mem_of_find?_eq_some hfind
      have hrefs : o ∈ g.refsOf slot' := by simpa using find?_some hfind
      obtain rfl := hseat.alone slot' (hg.mirror hrefs) hmem
      have hcond : y.name ≠ bufferEnable ∧ k ≤ 1 := by simpa using hcond
      refine ⟨.existing hseat, ⟨by simpa [habs] using hreg, fun _ => ⟨?_, ?_⟩⟩⟩
      · have hin := hg.mirror hrefs
        have hlen : (g.refsOf o).length = 1 := by
          have hpos := length_pos_of_mem hin
          omega
        obtain ⟨z, hz⟩ := length_eq_one_iff.mp hlen
        rw [hz, mem_singleton] at hin
        rw [hz, hin]
      · simpa [connNameOf?, hy] using hcond.1
    · rename_i hbuf
      simp only [bind_eq_ok, pure_eq_ok] at h
      obtain ⟨c, hc, rfl⟩ := h
      have hnothing : g.absorbedOf t = .nothing := by
        rw [habs, ← Absorbed.isNothing_iff]
        simp [Absorbed.isNothing, hreg, hbuf]
      obtain ⟨hmem, hin⟩ := mem_filter.mp (soleInput_eq_ok hc ▸ mem_singleton_self c)
      obtain rfl := hone hseat.named hnothing hmem hseat.mem (isSink_of_isInput hin) hseat.sink
      refine ⟨.existing hseat, ⟨by simpa [habs] using hreg, fun hb => ?_⟩⟩
      rw [hnothing] at hb
      cases hb

/-! ## The inputs of a buffer -/

/-- The connection is the data input of a buffer. -/
def isData (g : Network) (c : ConnId) : Bool :=
  g.connNameOf? c == some bufferData

/-- The node has one data input at most. -/
def OneDataAt (g : Network) (n : NodeId) : Prop :=
  ∀ ⦃c c'⦄, c ∈ g.connsOf n → c' ∈ g.connsOf n → g.isData c = true → g.isData c' = true → c = c'

/-- One data input at most passes any test. -/
theorem OneDataAt.length_le (h : g.OneDataAt n) (hnd : (g.connsOf n).Nodup) (p : ConnId → Bool) :
    ((g.connsOf n).filter fun c => p c && g.isData c).length ≤ 1 := by
  have hall : ∀ c ∈ (g.connsOf n).filter fun c => p c && g.isData c,
      c ∈ g.connsOf n ∧ g.isData c := fun c hc =>
    ⟨(mem_filter.mp hc).1, (Bool.and_eq_true_iff.mp (mem_filter.mp hc).2).2⟩
  have hnd := hnd.filter fun c => p c && g.isData c
  match hl : (g.connsOf n).filter fun c => p c && g.isData c with
  | [] => simp
  | [_] => simp
  | c :: c' :: l =>
    rw [hl] at hnd hall
    obtain ⟨hc, hcd⟩ := hall c (by simp)
    obtain ⟨hc', hcd'⟩ := hall c' (by simp)
    simp [h hc hc' hcd hcd'] at hnd

/-- `g'` is `g` after the inputs `l` of a buffer were handled: those that are not data stand on `t`, and
the driver of the data drives `slot`. -/
structure Refills (t : NodeId) (slot : ConnId) (l : List ConnId) (g g' : Network) : Prop
    extends KeepsRecords g g' where
  sound : g'.Sound
  evolves : Evolves g g'
  connsOf : ∀ m, g'.connsOf m = (g.connsOf m).filter (· ∉ l.filter (!g.isData ·)) ++
    if m = t then l.filter (!g.isData ·) else []
  refsOf : ∀ {x}, g.isSink x = true → g'.refsOf x =
    if x = slot then (l.filter g.isData).flatMap g.refsOf
    else if x ∈ l.filter g.isData then [] else g.refsOf x

theorem Refills.refl (hg : g.Sound) (hslot : g.refsOf slot = []) : Refills t slot [] g g where
  __ := KeepsRecords.refl g
  sound := hg
  evolves := .refl g
  connsOf m := by simp
  refsOf {x} _ := by
    by_cases hx : x = slot
    · simp [hx, hslot]
    · simp [hx]

/-- An input that is not data goes over as it is. -/
theorem Refills.step_control (h : Refills t slot l g g1) (hdata : g.isData c = false)
    (hc : ∃ n, c ∈ g.connsOf n) (hnot : c ∉ l) (ht : g.hasKind isNamed t) (hu : g.InUse t)
    (hstep : g1.reparent c t = .ok g') : Refills t slot (l ++ [c]) g g' := by
  have hmem : ∃ n, c ∈ g1.connsOf n := by
    obtain ⟨n, hn⟩ := hc
    refine ⟨n, ?_⟩
    rw [h.connsOf]
    simp [hn, hnot]
  have hgather := (Gathers.refl h.sound).step hmem (by simp) (h.hasKind ht) (h.inUse.mpr hu) hstep
  have hfilter : (l ++ [c]).filter (!g.isData ·) = l.filter (!g.isData ·) ++ [c] := by simp [hdata]
  have hsame : (l ++ [c]).filter g.isData = l.filter g.isData := by simp [hdata]
  refine ⟨h.toKeepsRecords.trans hgather.toKeepsRecords, hgather.sound, h.evolves.trans hgather.evolves,
    fun m => ?_, fun {x} hx => ?_⟩
  · rw [hgather.connsOf, h.connsOf, hfilter]
    have hkeep : (l.filter (!g.isData ·)).filter (· ∉ [] ++ [c]) = l.filter (!g.isData ·) := by
      rw [filter_eq_self]
      intro e he
      have : e ≠ c := fun hec => hnot (hec ▸ (mem_filter.mp he).1)
      simpa using this
    rw [filter_append, filter_filter]
    have hboth : (fun e => decide (e ∉ [] ++ [c]) && decide (e ∉ l.filter (!g.isData ·))) =
        fun e => decide (e ∉ l.filter (!g.isData ·) ++ [c]) := by
      funext e
      simp only [nil_append, mem_append, mem_singleton, not_or, Bool.decide_and]
      exact Bool.and_comm _ _
    rw [hboth]
    split
    · rw [hkeep, append_assoc]
      rfl
    · rw [filter_nil, append_nil]
  · rw [hgather.refsOf, h.refsOf hx, hsame]

/-- The data input leaves its driver to the slot. -/
theorem Refills.step_data (h : Refills t slot l g g1) (hdata : g.isData c)
    (hsole : l.filter g.isData = []) (hc : g.isSink c) (hne : c ≠ slot) (hs : g.isSink slot)
    (hmem : ∃ n, slot ∈ g1.connsOf n) (hd : g.refsOf c = [d]) (hg : g.Sound) :
    Refills t slot (l ++ [c]) g ((g1.cut c d).wire slot d) := by
  have hout := hg.output_of_sink (d := d) (by simp [hd]) hc
  have hcd := ne_of_isSink hc hout
  have hsd := ne_of_isSink hs hout
  have hcut := rewires_cut hcd (g := g1)
  have hwire := rewires_wire hsd (g := g1.cut c d)
  have hrefs1 : g1.refsOf c = [d] := by simp [h.refsOf hc, hne, hsole, hd]
  have hslot1 : g1.refsOf slot = [] := by simp [h.refsOf hs, hsole]
  have hs1 : (g1.cut c d).isSink slot := by
    rw [isSink_congr hcut.directionOf?, h.evolves.isSink (isSome_of_isSink hs)]
    exact hs
  have hout1 : (g1.cut c d).isOutput d := by
    rw [isOutput_congr hcut.directionOf?, h.evolves.isOutput (isSome_of_isOutput hout)]
    exact hout
  -- the slot is free, since there is no other data input
  have hempty : (g1.cut c d).refsOf slot = [] := by
    rw [refsOf_cut hcd, if_neg hne.symm, if_neg hsd, hslot1]
  have hdl : ∃ n, d ∈ (g1.cut c d).connsOf n := by
    simpa only [hcut.connsOf] using h.sound.listed (h.sound.mirror (c := c) (by simp [hrefs1]))
  have hsound := (h.sound.cut hcd).wire hs1 hout1 hempty (by simpa only [hcut.connsOf] using hmem) hdl
  have hfilter : (l ++ [c]).filter (!g.isData ·) = l.filter (!g.isData ·) := by simp [hdata]
  have hdatas : (l ++ [c]).filter g.isData = [c] := by simp [hdata, hsole]
  refine ⟨h.toKeepsRecords.trans (.trans (.of_applies hcut rfl) (.of_applies hwire rfl)), hsound,
    h.evolves.trans (hcut.evolves.trans hwire.evolves), fun m => ?_, fun {x} hx => ?_⟩
  · rw [hwire.connsOf, hcut.connsOf, h.connsOf, hfilter]
  · have hxd := ne_of_isSink hx hout
    rw [refsOf_wire hsd (isSome_of_isSink hs1) (isSome_of_isOutput hout1), if_neg hxd, hempty, hdatas]
    by_cases hxs : x = slot
    · simp [hxs, hd]
    · rw [if_neg hxs, if_neg hxs, refsOf_cut hcd, if_neg hxd]
      by_cases hxc : x = c
      · simp [hxc, hrefs1]
      · rw [h.refsOf hx, if_neg hxs, hsole]
        simp [hxc]

/-- A data input that nothing drives leaves nothing behind. -/
theorem Refills.step_idle (h : Refills t slot l g g1) (hdata : g.isData c) (hd : g.refsOf c = []) :
    Refills t slot (l ++ [c]) g g1 := by
  have hfilter : (l ++ [c]).filter (!g.isData ·) = l.filter (!g.isData ·) := by simp [hdata]
  have hdatas : (l ++ [c]).filter g.isData = l.filter g.isData ++ [c] := by simp [hdata]
  refine ⟨h.toKeepsRecords, h.sound, h.evolves, fun m => ?_, fun {x} hx => ?_⟩
  · rw [hfilter]
    exact h.connsOf m
  · rw [h.refsOf hx, hdatas, flatMap_append, flatMap_singleton, hd]
    by_cases hxc : x = c
    · simp [hxc, hd]
    · simp [hxc]

/-- The inputs of a buffer can be handled one after the other. -/
theorem exists_refills (hg : g.Sound) (hone : (l.filter g.isData).length ≤ 1)
    (hl : ∀ c ∈ l, c ∈ g.connsOf n ∧ g.isSink c) (hnd : l.Nodup) (ht : g.hasKind isNamed t)
    (hslot : slot ∈ g.connsOf t) (hs : g.isSink slot) (hempty : g.refsOf slot = []) (hnt : n ≠ t) :
    ∃ g', l.foldlM (moveBufferInput t slot) g = .ok g' ∧ Refills t slot l g g' := by
  refine (Ends.foldlM_inits (P := fun l s => Refills t slot l g s) ?_ (.refl hg hempty)).exists_result
  intro pre c post s heq hr
  obtain ⟨hc, hcs⟩ := hl c (by simp [heq])
  have hnot : c ∉ pre := by
    rw [heq] at hnd
    exact fun hm => (nodup_append.mp hnd).2.2 _ hm _ mem_cons_self rfl
  have hcslot : c ≠ slot := by
    rintro rfl
    exact hnt (hg.eq_of_mem hc hslot)
  have hmem : ∀ {m e}, e ∈ g.connsOf m → e ∉ pre → e ∈ s.connsOf m := by
    intro m e he hpre
    rw [hr.connsOf]
    simp [he, hpre]
  have hc1 := hmem hc hnot
  obtain ⟨y, hy⟩ := Option.isSome_iff_exists.mp (hr.sound.conn_isSome hc1)
  have hname : g.connNameOf? c = some y.name := by
    rw [← hr.connNameOf?]
    simp [connNameOf?, hy]
  simp only [moveBufferInput, conn_eq_ok.mpr hy, ok_bind]
  by_cases hdata : y.name = bufferData
  · rw [if_pos hdata]
    have hdata : g.isData c := by simp [isData, hname, hdata]
    -- there is no other data input, so nothing drives the slot yet
    have hpre : pre.filter g.isData = [] := by
      rw [heq, filter_append, filter_cons, if_pos hdata, length_append,
        length_cons] at hone
      exact length_eq_zero_iff.mp (by omega)
    have hrefs : y.refs = g.refsOf c := by
      rw [← refsOf_of_conn? hy, hr.refsOf hcs, if_neg hcslot, hpre]
      simp
    rcases hg.eq_nil_or_singleton hcs with hd | ⟨d, hd⟩
    · rw [hrefs, hd]
      exact .ok (hr.step_idle hdata hd)
    · have hpl : slot ∉ pre := fun hm => hnt (hg.eq_of_mem (hl slot (by simp [heq, hm])).1 hslot)
      have hsome : (s.conn? d).isSome :=
        hr.evolves.conn_isSome (isSome_of_mem_refsOf (hg.mirror (d := d) (c := c) (by simp [hd])))
      have hdemand : s.demand [c, d] = .ok () := demand_eq_ok (by simp [hy, hsome])
      rw [hrefs, hd]
      simp only [head?_cons, unlink, hdemand, ok_bind]
      exact .ok (hr.step_data hdata hpre hcs hcslot hs ⟨t, hmem hslot hpl⟩ hd hg)
  · rw [if_neg hdata]
    have hdata : g.isData c = false := by simpa [isData, hname] using hdata
    obtain ⟨s', h'⟩ := exists_reparent (hr.sound.owner hc1) (isSome_of_mem_connsOf hc1)
      (isSome_of_hasKind (hr.hasKind ht))
    exact .inl ⟨s', h', hr.step_control hdata ⟨n, hc⟩ hnot ht (hg.inUse hslot) h'⟩

/-! ## One cell -/

/-- A cell and the node that takes it over. -/
structure Takeover where
  cell : NodeId
  target : NodeId
  /-- The output of the cell. -/
  output : ConnId
  /-- The connection at which the target read the output. -/
  slot : ConnId
  /-- What the target keeps of its connections. -/
  kept : List ConnId
  /-- The inputs of the cell that the target receives. -/
  moved : List ConnId
  /-- What drives the slot afterwards, if the target keeps it. -/
  sources : List ConnId
  mark : Absorbed

/-- The takeover is about a sequential cell of `g`, an output of it and a node that reads that output,
and it shares out the connections of the two. -/
structure Takeover.Fits (s : Takeover) (g : Network) : Prop where
  seat : Seat g s.output s.target s.slot
  cell_kind : g.hasKind isSequential s.cell = true
  output_mem : s.output ∈ g.connsOf s.cell
  isOutput : g.isOutput s.output = true
  isInput : ∀ {c}, c ∈ s.moved → c ∈ g.connsOf s.cell ∧ g.isInput c = true
  kept_sub : ∀ {c}, c ∈ s.kept → c ∈ g.connsOf s.target
  kept_of_ne : ∀ {c}, c ∈ g.connsOf s.target → c ≠ s.slot → c ∈ s.kept

/-- `g'` is `g` after the takeover. -/
structure Takeover.Applies (s : Takeover) (g g' : Network) : Prop extends s.Fits g where
  sound : g'.Sound
  evolves : Evolves g g'
  kindOf? : ∀ m, g'.kindOf? m = g.kindOf? m
  absorbedOf : ∀ m, g'.absorbedOf m =
    if m = s.target then (g.absorbedOf m).union s.mark else g.absorbedOf m
  connNameOf? : ∀ {x}, (g.conn? x).isSome → g'.connNameOf? x = g.connNameOf? x
  cells : g'.cells = g.cells.filter (· ≠ s.cell)
  pins : g'.pins = g.pins
  pinNodes : g'.pinNodes = g.pinNodes
  connsOf : ∃ new, (∀ m, g'.connsOf m = if m = s.cell then [] else
      if m = s.target then s.kept ++ s.moved ++ new else g.connsOf m) ∧
    (new = [] ∨ ∃ e, new = [e] ∧ g.conn? e = none ∧ g'.isOutput e = true ∧
      ∀ x ∈ g.connsOf s.target, g.isOutput x = false)
  /-- An input of the cell that read the cell itself is cut off. -/
  loop : ∀ {c}, c ∈ s.moved → c ∈ g.refsOf s.output → g'.refsOf c = []
  /-- Any other consumer reads the target. -/
  consumer : ∀ {c m}, c ∈ g.refsOf s.output → c ≠ s.slot → c ∉ s.moved → c ∈ g'.connsOf m →
    ∃ out ∈ g'.connsOf s.target, g'.isOutput out = true ∧ g'.refsOf c = [out]
  /-- What did not read the cell reads the same as before. -/
  frame : ∀ {c m}, g.isSink c = true → c ≠ s.slot → c ∉ g.refsOf s.output → c ∈ g'.connsOf m →
    g'.refsOf c = (g.refsOf c).filter (· ∉ g.connsOf s.cell)
  slot_refs : ∀ {m}, s.slot ∈ g'.connsOf m → g'.refsOf s.slot = s.sources.filter (· ∉ g.connsOf s.cell)

/-- The takeover of a register. -/
def Takeover.ofRegister (g : Network) (cell target : NodeId) (output slot : ConnId) : Takeover where
  cell := cell
  target := target
  output := output
  slot := slot
  kept := (g.connsOf target).filter (· ≠ slot)
  moved := (g.connsOf cell).filter g.isInput
  sources := []
  mark := .oneRegister

/-- The takeover of a buffer. -/
def Takeover.ofBuffer (g : Network) (cell target : NodeId) (output slot : ConnId) : Takeover where
  cell := cell
  target := target
  output := output
  slot := slot
  kept := g.connsOf target
  moved := (g.connsOf cell).filter fun c => g.isInput c && !g.isData c
  sources := ((g.connsOf cell).filter fun c => g.isInput c && g.isData c).flatMap g.refsOf
  mark := .oneBuffer

theorem isCell_of_isSequential (h : g.hasKind isSequential n) : g.hasKind isCell n := by
  obtain ⟨k, hk, hseq⟩ := hasKind_iff.mp h
  exact hasKind_of hk (by simp [isCell, hseq])

theorem Seat.ne_cell (h : Seat g o t slot) (hcell : g.hasKind isSequential cell) : cell ≠ t :=
  ne_of_isCell (isCell_of_isSequential hcell) h.named

section

variable (hseat : Seat g o t slot) (hcell : g.hasKind isSequential cell)
  (hmem : o ∈ g.connsOf cell) (hout : g.isOutput o)
include hseat hcell hmem hout

theorem Seat.fits_ofRegister : (Takeover.ofRegister g cell t o slot).Fits g where
  seat := hseat
  cell_kind := hcell
  output_mem := hmem
  isOutput := hout
  isInput := mem_filter.mp
  kept_sub hc := (mem_filter.mp hc).1
  kept_of_ne hc hcs := mem_filter.mpr ⟨hc, decide_eq_true hcs⟩

theorem Seat.fits_ofBuffer : (Takeover.ofBuffer g cell t o slot).Fits g where
  seat := hseat
  cell_kind := hcell
  output_mem := hmem
  isOutput := hout
  isInput hc := ⟨(mem_filter.mp hc).1, (Bool.and_eq_true_iff.mp (mem_filter.mp hc).2).1⟩
  kept_sub hc := hc
  kept_of_ne hc _ := hc

end

theorem Takeover.Fits.not_moved {s : Takeover} (hf : s.Fits g) (hd : g.isOutput d) : d ∉ s.moved :=
  fun hm => ne_of_isSink (isSink_of_isInput (hf.isInput hm).2) hd rfl

/-- `g'` is `g` when the inputs of the cell have gone over to the target, and the consumers have not yet
followed. -/
structure Takeover.Prepares (s : Takeover) (g g' : Network) : Prop extends KeepsRecords g g' where
  sound : g'.Sound
  evolves : Evolves g g'
  connsOf_target : g'.connsOf s.target = s.kept ++ s.moved
  mem_connsOf_cell : ∀ {c}, c ∈ g'.connsOf s.cell ↔ c ∈ g.connsOf s.cell ∧ c ∉ s.moved
  connsOf : ∀ {m}, m ≠ s.cell → m ≠ s.target → g'.connsOf m = g.connsOf m
  refsOf : ∀ {c m}, g.isSink c = true → c ≠ s.slot → c ∈ g'.connsOf m → m ≠ s.cell →
    g'.refsOf c = g.refsOf c
  slot_refs : s.slot ∈ g'.connsOf s.target → g'.refsOf s.slot = s.sources
  isOutput : ∀ d ∈ s.sources, g.isOutput d = true

namespace Takeover.Prepares

variable {s : Takeover} (h : s.Prepares g g1) (hf : s.Fits g) (hg : g.Sound)
  (hc : Closes s.cell s.target s.output s.mark g1 g')
include h hf

theorem isOutput_output : g1.isOutput s.output :=
  h.evolves.keeps_output hf.isOutput

/-- A driver that is no input of the cell belongs to the cell before and after the inputs have gone. -/
theorem filter_eq (hl : ∀ d ∈ l, g.isOutput d) :
    l.filter (· ∉ g1.connsOf s.cell) = l.filter (· ∉ g.connsOf s.cell) := by
  apply filter_congr
  intro d hd
  simp [h.mem_connsOf_cell, hf.not_moved (hl d hd)]

include hg

include hc

omit hf hg in
/-- A connection that can be driven and is still there was there before the consumers moved. -/
theorem mem_connsOf (hs : g.isSink c) (hm : c ∈ g'.connsOf m) : c ∈ g1.connsOf m ∧ m ≠ s.cell :=
  hc.mem_connsOf (h.evolves.conn_isSome (isSome_of_isSink hs)) hm

omit hf in
/-- The consumers of the cell are the same when its inputs have gone over, the slot apart. -/
theorem mem_refsOf_output (hs : g.isSink c) (hcs : c ≠ s.slot) (hm : c ∈ g'.connsOf m) :
    c ∈ g1.refsOf s.output ↔ c ∈ g.refsOf s.output := by
  obtain ⟨hm1, hmc⟩ := h.mem_connsOf hc hs hm
  have heq := h.refsOf hs hcs hm1 hmc
  constructor
  · intro hmem
    exact hg.mirror (heq ▸ h.sound.mirror hmem)
  · intro hmem
    exact h.sound.mirror (heq ▸ hg.mirror hmem)

/-- What stands on the target afterwards. -/
theorem connsOf_closed : ∃ new, (∀ m, g'.connsOf m = if m = s.cell then [] else
        if m = s.target then s.kept ++ s.moved ++ new else g.connsOf m) ∧
      (new = [] ∨ ∃ e, new = [e] ∧ g.conn? e = none ∧ g'.isOutput e ∧
        ∀ x ∈ g.connsOf s.target, g.isOutput x = false) := by
  have hne := hf.seat.ne_cell hf.cell_kind
  obtain ⟨new, hconns, hcase⟩ := hc.connsOf
  refine ⟨new, fun m => ?_, ?_⟩
  · rw [hconns]
    by_cases hmc : m = s.cell
    · simp [hmc]
    · by_cases hmt : m = s.target
      · simp [hmt, hne.symm, h.connsOf_target]
      · simp [hmc, hmt, h.connsOf hmc hmt]
  · rcases hcase with hnil | ⟨e, he, hnone, heout, hall⟩
    · exact .inl hnil
    refine .inr ⟨e, he, ?_, heout, fun x hx => ?_⟩
    · cases hes : g.conn? e with
      | none => rfl
      | some y =>
        have := h.evolves.conn_isSome (c := e) (by simp [hes])
        simp [hnone] at this
    · by_cases hxs : x = s.slot
      · have := hf.seat.sink
        rw [isSink_eq_not_isOutput (isSome_of_isSink this)] at this
        simpa [hxs] using this
      · have hx1 := hall x (by simp [h.connsOf_target, hf.kept_of_ne hx hxs])
        rwa [h.evolves.isOutput (hg.conn_isSome hx)] at hx1

theorem loop (hmv : c ∈ s.moved) (hmem : c ∈ g.refsOf s.output) : g'.refsOf c = [] := by
  have hne := hf.seat.ne_cell hf.cell_kind
  obtain ⟨new, hconns, -⟩ := hc.connsOf
  obtain ⟨out, -, hrefs⟩ := hc.refsOf
  have hs := isSink_of_isInput (hf.isInput hmv).2
  have hs1 := h.evolves.keeps_sink hs
  have hct : c ∈ g1.connsOf s.target := by simp [h.connsOf_target, hmv]
  have hm : c ∈ g'.connsOf s.target := by simp [hconns, hne.symm, hct]
  have hcs : c ≠ s.slot := by
    rintro rfl
    exact hne (hg.eq_of_mem (hf.isInput hmv).1 hf.seat.mem)
  rw [hrefs hs1 hm, if_pos ((h.mem_refsOf_output hg hc hs hcs hm).mpr hmem), if_pos hct]

/-- What read the cell reads the target. -/
theorem consumer (hmem : c ∈ g.refsOf s.output) (hcs : c ≠ s.slot) (hmv : c ∉ s.moved)
    (hm : c ∈ g'.connsOf m) : ∃ out ∈ g'.connsOf s.target, g'.isOutput out ∧ g'.refsOf c = [out] := by
  obtain ⟨out, hex, hrefs⟩ := hc.refsOf
  have hs := hg.sink_of_output hmem hf.isOutput
  have hs1 := h.evolves.keeps_sink hs
  have hmem1 := (h.mem_refsOf_output hg hc hs hcs hm).mpr hmem
  have hct : c ∉ g1.connsOf s.target := by
    rw [h.connsOf_target, mem_append]
    rintro (hk | hk)
    · exact hcs (hf.seat.alone c hmem (hf.kept_sub hk))
    · exact hmv hk
  obtain ⟨hot, ho⟩ := hex (ne_nil_of_mem hmem1)
  refine ⟨out, hot, ho, ?_⟩
  rw [hrefs hs1 hm, if_pos hmem1, if_neg hct]

theorem frame (hs : g.isSink c) (hcs : c ≠ s.slot) (hmem : c ∉ g.refsOf s.output) (hm : c ∈ g'.connsOf m) :
    g'.refsOf c = (g.refsOf c).filter (· ∉ g.connsOf s.cell) := by
  obtain ⟨out, -, hrefs⟩ := hc.refsOf
  have hs1 := h.evolves.keeps_sink hs
  obtain ⟨hm1, hmc⟩ := h.mem_connsOf hc hs hm
  rw [hrefs hs1 hm, if_neg (mt (h.mem_refsOf_output hg hc hs hcs hm).mp hmem),
    h.refsOf hs hcs hm1 hmc]
  exact h.filter_eq hf fun d hd => hg.output_of_sink hd hs

/-- What drives the slot afterwards. -/
theorem slot_closed (hm : s.slot ∈ g'.connsOf m) :
    g'.refsOf s.slot = s.sources.filter (· ∉ g.connsOf s.cell) := by
  have hsink := hf.seat.sink
  obtain ⟨out, -, hrefs⟩ := hc.refsOf
  have hs1 := h.evolves.keeps_sink hsink
  obtain ⟨hm1, hmc⟩ := h.mem_connsOf hc hsink hm
  -- the slot stands on the target if it stands anywhere
  have hmt : m = s.target := by
    by_contra hmt
    rw [h.connsOf hmc hmt] at hm1
    exact hmt (hg.eq_of_mem hm1 hf.seat.mem)
  subst hmt
  have hsrc := h.slot_refs hm1
  rw [hrefs hs1 hm, hsrc]
  split
  · -- the cell drove its own data: nothing is left for the slot
    rename_i hloop
    have : s.sources = [s.output] :=
      hsrc.symm.trans (h.sound.refsOf_consumer (h.isOutput_output hf) hloop)
    simp [this, hf.output_mem]
  · exact h.filter_eq hf h.isOutput

/-- The takeover, put together. -/
theorem applies : s.Applies g g' where
  __ := hf
  sound := hc.sound
  evolves := h.evolves.trans hc.evolves
  kindOf? m := by rw [hc.kindOf?, h.kindOf?]
  absorbedOf m := by rw [hc.absorbedOf, h.absorbedOf]
  connNameOf? hx := by rw [hc.connNameOf? (h.evolves.conn_isSome hx), h.connNameOf?]
  cells := by rw [hc.cells, h.cells]
  pins := by
    rw [hc.pins, h.pins]
    exact filter_ne_eq_self fun hm =>
      ne_of_isCell (isCell_of_isSequential hf.cell_kind) (hasKind_of (hg.pin_kind hm) rfl) rfl
  pinNodes := by
    rw [hc.pinNodes, h.pinNodes]
    exact filter_ne_eq_self fun hm =>
      ne_of_isCell (isCell_of_isSequential hf.cell_kind) (hasKind_of (hg.pinNode_kind hm) rfl) rfl
  connsOf := h.connsOf_closed hf hg hc
  loop := h.loop hf hg hc
  consumer := h.consumer hf hg hc
  frame := h.frame hf hg hc
  slot_refs := h.slot_closed hf hg hc

omit hc in
/-- The consumers follow, and the cell goes out of use. -/
theorem exists_applies : ∃ g2 g', g1.moveConsumers s.target s.output = .ok g2 ∧
    (g2.absorb s.target s.mark).retire s.cell = .ok g' ∧ s.Applies g g' := by
  have hmem : s.output ∈ g1.connsOf s.cell :=
    h.mem_connsOf_cell.mpr ⟨hf.output_mem, hf.not_moved hf.isOutput⟩
  have hout := h.isOutput_output hf
  have hne := hf.seat.ne_cell hf.cell_kind
  have hu := h.inUse.mpr (hg.inUse hf.seat.mem)
  have ht := h.hasKind hf.seat.named
  obtain ⟨g2, h2, -, hretire⟩ := exists_close h.sound hmem hout hne hu (isSome_of_hasKind ht)
  obtain ⟨g', h'⟩ := hretire s.mark
  exact ⟨g2, g', h2, h', h.applies hf hg (closes_retire h.sound hmem hout hne ht hu h2 h')⟩

end Takeover.Prepares

section

variable (hseat : Seat g o t slot) (hcell : g.hasKind isSequential cell)
  (hmem : o ∈ g.connsOf cell) (hout : g.isOutput o) (hg : g.Sound) (hone : g.OneDataAt cell)
include hseat hcell hg

/-- The slot gives way, and the inputs of the register go over. -/
theorem Seat.prepares_register : ∃ g1 cs g2, g.detach slot = .ok g1 ∧ g1.inputs cell = .ok cs ∧
    cs.foldlM (fun g c => g.reparent c t) g1 = .ok g2 ∧
    (Takeover.ofRegister g cell t o slot).Prepares g g2 := by
  have hne := hseat.ne_cell hcell
  obtain ⟨g1, hd⟩ := exists_detach hg.mirror (hg.owner hseat.mem) (isSome_of_mem_connsOf hseat.mem)
  have hd1 := applies_detach hg.mirror hg.owner hd
  have hs1 := hg.detached hd1
  have hdir : g1.isInput = g.isInput := funext fun c => isInput_congr hd1.directionOf?
  have hconns1 : ∀ m, g1.connsOf m = (g.connsOf m).filter (· ≠ slot) := fun m => connsOf_detached hd1
  have hother : ∀ {m}, m ≠ t → g1.connsOf m = g.connsOf m := fun hm => by
    rw [hconns1, hg.filter_conns_of_ne hseat.mem hm]
  have hsub : ∀ c ∈ (g.connsOf cell).filter g.isInput, c ∈ g1.connsOf cell := fun c hc => by
    rw [hother hne]
    exact (mem_filter.mp hc).1
  have ht1 : g1.hasKind isNamed t := by
    rw [hasKind, hd1.kindOf?]
    exact hseat.named
  have hu1 : g1.InUse t := (hd1.inUse rfl).mpr (hg.inUse hseat.mem)
  obtain ⟨g2, hr, hgather⟩ := exists_gathers hs1 (fun c hc => ⟨cell, hsub c hc⟩)
    ((hg.nodup_conns cell).filter _) ht1 hu1
  have hcs : g1.inputs cell = .ok ((g.connsOf cell).filter g.isInput) :=
    inputs_eq_ok.mpr ⟨hd1.node?_isSome.trans (isSome_of_hasKind hcell), by rw [hother hne, hdir]⟩
  refine ⟨g1, _, g2, hd, hcs, hr, .trans (.of_applies hd1 rfl) hgather.toKeepsRecords, hgather.sound,
    (evolves_detached hd1).trans hgather.evolves, ?_, fun {c} => ?_,
    fun {m} (hmc : m ≠ cell) (hmt : m ≠ t) => ?_, fun {c m} hs (hcs' : c ≠ slot) hm hmc => ?_,
    fun hm => ?_, by rintro _ ⟨⟩⟩
  · change g2.connsOf t = (g.connsOf t).filter (· ≠ slot) ++ (g.connsOf cell).filter g.isInput
    rw [hgather.connsOf, if_pos rfl, hs1.filter_notMem_conns hsub hne.symm, hconns1]
  · change c ∈ g2.connsOf cell ↔ c ∈ g.connsOf cell ∧ c ∉ (g.connsOf cell).filter g.isInput
    rw [hgather.connsOf, if_neg hne, append_nil, mem_filter, hother hne,
      decide_eq_true_eq]
  · rw [hgather.connsOf, if_neg hmt, append_nil, hs1.filter_notMem_conns hsub hmc, hother hmt]
  · rw [hgather.refsOf, refsOf_detached hd1, if_neg hcs', hg.filter_refsOf_ne hseat.sink hs]
  · -- the slot is gone
    change slot ∈ g2.connsOf t at hm
    rw [hgather.connsOf, hconns1, if_pos rfl, mem_append] at hm
    rcases hm with hm | hm
    · simp at hm
    · exact absurd (hg.eq_of_mem (mem_filter.mp hm).1 hseat.mem) hne

include hmem hout

theorem Seat.exists_register : ∃ g1 cs g2 g3 g', g.detach slot = .ok g1 ∧ g1.inputs cell = .ok cs ∧
    cs.foldlM (fun g c => g.reparent c t) g1 = .ok g2 ∧ g2.moveConsumers t o = .ok g3 ∧
    (g3.absorb t .oneRegister).retire cell = .ok g' ∧ (Takeover.ofRegister g cell t o slot).Applies g g' := by
  obtain ⟨g1, cs, g2, hd, hcs, hr, hprep⟩ := hseat.prepares_register hcell hg
  obtain ⟨g3, g', hmoves, hretire, happ⟩ :=
    hprep.exists_applies (hseat.fits_ofRegister hcell hmem hout) hg
  exact ⟨g1, cs, g2, g3, g', hd, hcs, hr, hmoves, hretire, happ⟩

omit hseat hcell hmem hout hg in
theorem filter_inputs (p : ConnId → Bool) :
    ((g.connsOf n).filter g.isInput).filter p = (g.connsOf n).filter fun c => g.isInput c && p c := by
  rw [filter_filter]
  congr 1
  funext c
  exact Bool.and_comm _ _

include hone

omit hmem hout in
/-- The inputs of a buffer go over to its seat. -/
theorem Seat.refills_buffer (hd : g.clearRefs slot = .ok g1) (hdata : g1.isData = g.isData) :
    ∃ g2, ((g.connsOf cell).filter g.isInput).foldlM (moveBufferInput t slot) g1 = .ok g2 ∧
      Refills t slot ((g.connsOf cell).filter g.isInput) g1 g2 := by
  have hd1 := rewires_clearRefs hg.mirror hd
  apply exists_refills (hg.clearRefs hd) _ _ ((hg.nodup_conns cell).filter _)
    _ _ _ _ (hseat.ne_cell hcell)
  · rw [hdata, filter_inputs]
    exact hone.length_le (hg.nodup_conns cell) _
  · intro c hc
    obtain ⟨hc, hin⟩ := mem_filter.mp hc
    rw [hd1.connsOf, isSink_congr hd1.directionOf?]
    exact ⟨hc, isSink_of_isInput hin⟩
  · rw [hasKind, hd1.kindOf?]
    exact hseat.named
  · rw [hd1.connsOf]
    exact hseat.mem
  · rw [isSink_congr hd1.directionOf?]
    exact hseat.sink
  · rw [refsOf_clearRefs hg.mirror hd, if_pos rfl]

omit hmem hout in
/-- The slot is freed, the data of the buffer takes its place, and the other inputs go over. -/
theorem Seat.prepares_buffer : ∃ g1 cs g2, g.clearRefs slot = .ok g1 ∧ g1.inputs cell = .ok cs ∧
    cs.foldlM (moveBufferInput t slot) g1 = .ok g2 ∧
    (Takeover.ofBuffer g cell t o slot).Prepares g g2 := by
  have hne := hseat.ne_cell hcell
  obtain ⟨g1, hd⟩ := exists_clearRefs hg.mirror (hg.conn_isSome hseat.mem)
  have hd1 := rewires_clearRefs hg.mirror hd
  have hdir : g1.isInput = g.isInput := funext fun c => isInput_congr hd1.directionOf?
  have hdata : g1.isData = g.isData := by
    funext c
    rw [isData, hd1.connNameOf?, isData]
  have hcs : g1.inputs cell = .ok ((g.connsOf cell).filter g.isInput) :=
    inputs_eq_ok.mpr ⟨hd1.node?_isSome.trans (isSome_of_hasKind hcell), by rw [hd1.connsOf, hdir]⟩
  obtain ⟨g2, hr, hfill⟩ := hseat.refills_buffer hcell hg hone hd hdata
  have hsink1 : ∀ {c}, g.isSink c → g1.isSink c := fun hs => by
    rwa [isSink_congr hd1.directionOf?]
  have hrefs1 : ∀ {c}, g.isSink c → c ≠ slot → g1.refsOf c = g.refsOf c := by
    intro c hs hc
    rw [refsOf_clearRefs hg.mirror hd, if_neg hc, hg.filter_refsOf_ne hseat.sink hs]
  have hdatas : ((g.connsOf cell).filter g.isInput).filter g1.isData =
      (g.connsOf cell).filter fun c => g.isInput c && g.isData c := by
    rw [hdata, filter_inputs]
  have hin : ∀ c ∈ (Takeover.ofBuffer g cell t o slot).moved, c ∈ g.connsOf cell := fun c hc =>
    (mem_filter.mp hc).1
  have hconns : ∀ m, g2.connsOf m = (g.connsOf m).filter (· ∉ (Takeover.ofBuffer g cell t o slot).moved) ++
      if m = t then (Takeover.ofBuffer g cell t o slot).moved else [] := by
    intro m
    rw [hfill.connsOf, hdata, filter_inputs, hd1.connsOf]
    rfl
  refine ⟨g1, _, g2, hd, hcs, hr, .trans (.of_applies hd1 rfl) hfill.toKeepsRecords, hfill.sound, hd1.evolves.trans hfill.evolves,
    ?_, fun {c} => ?_, fun {m} (hmc : m ≠ cell) (hmt : m ≠ t) => ?_,
    fun {c m} hs (hcs' : c ≠ slot) hm (hmc : m ≠ cell) => ?_, fun _ => ?_, fun d hd => ?_⟩
  · change g2.connsOf t = g.connsOf t ++ _
    rw [hconns, if_pos rfl, hg.filter_notMem_conns hin hne.symm]
  · change c ∈ g2.connsOf cell ↔ c ∈ g.connsOf cell ∧ _
    rw [hconns, if_neg hne, append_nil, mem_filter, decide_eq_true_eq]
  · rw [hconns, if_neg hmt, append_nil, hg.filter_notMem_conns hin hmc]
  · rw [hfill.refsOf (hsink1 hs), if_neg hcs', hdatas, hrefs1 hs hcs', if_neg]
    -- a data input is still with the cell
    intro hc
    obtain ⟨hcc, hc⟩ := mem_filter.mp hc
    have hc2 : c ∈ g2.connsOf cell := by
      rw [hconns, if_neg hne, append_nil, mem_filter]
      refine ⟨hcc, ?_⟩
      simp only [Bool.and_eq_true] at hc
      simp [Takeover.ofBuffer, hc]
    exact hmc (hfill.sound.eq_of_mem hm hc2)
  · change g2.refsOf slot = ((g.connsOf cell).filter fun c => g.isInput c && g.isData c).flatMap g.refsOf
    rw [hfill.refsOf (hsink1 hseat.sink), if_pos rfl, hdatas]
    apply flatMap_congr
    intro c hc
    obtain ⟨hcc, hc⟩ := mem_filter.mp hc
    apply hrefs1 (isSink_of_isInput (Bool.and_eq_true_iff.mp hc).1)
    rintro rfl
    exact hne (hg.eq_of_mem hcc hseat.mem)
  · obtain ⟨c, hc, hdc⟩ := mem_flatMap.mp hd
    obtain ⟨-, hc⟩ := mem_filter.mp hc
    exact hg.output_of_sink hdc (isSink_of_isInput (Bool.and_eq_true_iff.mp hc).1)

theorem Seat.exists_buffer : ∃ g1 cs g2 g3 g', g.clearRefs slot = .ok g1 ∧ g1.inputs cell = .ok cs ∧
    cs.foldlM (moveBufferInput t slot) g1 = .ok g2 ∧ g2.moveConsumers t o = .ok g3 ∧
    (g3.absorb t .oneBuffer).retire cell = .ok g' ∧ (Takeover.ofBuffer g cell t o slot).Applies g g' := by
  obtain ⟨g1, cs, g2, hd, hcs, hr, hprep⟩ := hseat.prepares_buffer hcell hg hone
  obtain ⟨g3, g', hmoves, hretire, happ⟩ :=
    hprep.exists_applies (hseat.fits_ofBuffer hcell hmem hout) hg
  exact ⟨g1, cs, g2, g3, g', hd, hcs, hr, hmoves, hretire, happ⟩

end

/-! ## The two kinds of cells -/

theorem liveOutput?_eq_ok (h : g.liveOutput? cell = .ok (some o)) :
    o ∈ g.connsOf cell ∧ g.isOutput o ∧ g.refsOf o ≠ [] := by
  simp only [liveOutput?, bind_eq_ok, output?_eq_ok] at h
  obtain ⟨r, ⟨-, hr⟩, h⟩ := h
  split at h
  · simp [pure_eq_ok] at h
  · simp only [bind_eq_ok, pure_eq_ok, fanOut_eq_ok] at h
    obtain ⟨k, ⟨-, rfl⟩, h⟩ := h
    split at h
    · rename_i hpos
      obtain rfl := Option.some.inj h
      exact ⟨mem_of_find?_eq_some hr, find?_some hr, length_pos_iff.mp hpos⟩
    · cases h

theorem Seats.isOutput (h : Seats g o t slot g1) (ho : g.isOutput o) : g1.isOutput o :=
  h.evolves.keeps_output ho

theorem Seats.mem_connsOf (h : Seats g o t slot g1) (ho : o ∈ g.connsOf cell) : o ∈ g1.connsOf cell := by
  rwa [h.connsOf (isSome_of_mem_connsOf ho)]

theorem Seats.hasKind_cell (h : Seats g o t slot g1)
    (hcell : g.hasKind isSequential cell) : g1.hasKind isSequential cell := by
  obtain ⟨k, hk, -⟩ := hasKind_iff.mp hcell
  exact (h.evolves.hasKind (isSome_of_kindOf? hk) _).trans hcell

/-- A register that something reads is taken over. -/
theorem takeOverRegister_spec {r : Bool × Network} (hg : g.Sound) (hone : g.Undivided)
    (hcell : g.hasKind isSequential cell) (h : g.takeOverRegister cell = .ok r) :
    r = (false, g) ∧ g.liveOutput? cell = .ok none ∨ ∃ o t slot g1, r.1 ∧ g.refsOf o ≠ [] ∧ Seats g o t slot g1 ∧
      Vacant g o t slot ∧ (Takeover.ofRegister g1 cell t o slot).Applies g1 r.2 := by
  simp only [takeOverRegister, bind_eq_ok] at h
  obtain ⟨o?, ho, h⟩ := h
  split at h
  · exact .inl ⟨(pure_eq_ok.mp h).symm, ho⟩
  rename_i o
  obtain ⟨hmem, hout, hne⟩ := liveOutput?_eq_ok ho
  rw [bind_eq_ok] at h
  obtain ⟨⟨⟨t, slot⟩, g1⟩, htarget, h⟩ := h
  obtain ⟨hseats, hvacant⟩ := seats_registerTarget hg hone hout htarget
  obtain ⟨g2, cs, g3, g4, g5, hd, hcs, hr, hmoves, hretire, happ⟩ :=
    (hseats.seat hg hout).exists_register (hseats.hasKind_cell hcell) (hseats.mem_connsOf hmem)
      (hseats.isOutput hout) (hseats.sound hg hout ⟨cell, hmem⟩)
  simp only [hd, hcs, hr, hmoves, hretire, ok_bind, pure_eq_ok] at h
  subst h
  exact .inr ⟨o, t, slot, g1, rfl, hne, hseats, hvacant, happ⟩

/-- A buffer that something reads is taken over, by a node that has no other buffer. -/
theorem takeOverBuffer_spec {r : Bool × Network} (hg : g.Sound)
    (hcell : g.hasKind isSequential cell) (hdata : g.OneDataAt cell) (h : g.takeOverBuffer cell = .ok r) :
    r = (false, g) ∧ g.liveOutput? cell = .ok none ∨ ∃ o t slot g1, r.1 ∧ g.refsOf o ≠ [] ∧ Seats g o t slot g1 ∧
      (g.absorbedOf t).buffer = false ∧ g.takeoverTarget o = .ok (t, g1) ∧
      (Takeover.ofBuffer g1 cell t o slot).Applies g1 r.2 := by
  simp only [takeOverBuffer, bind_eq_ok] at h
  obtain ⟨o?, ho, h⟩ := h
  split at h
  · exact .inl ⟨(pure_eq_ok.mp h).symm, ho⟩
  rename_i o
  obtain ⟨hmem, hout, hne⟩ := liveOutput?_eq_ok ho
  rw [bind_eq_ok] at h
  obtain ⟨⟨t, g1⟩, htarget, h⟩ := h
  obtain ⟨slot, hseats⟩ := seats_takeoverTarget hg hout htarget
  rw [bind_eq_ok] at h
  obtain ⟨x, hx, h⟩ := h
  rw [node_eq_ok] at hx
  split at h
  · exact absurd h bind_throw_ne_ok
  rename_i hbuf
  simp only [bind_eq_ok, sinks_eq_ok] at h
  obtain ⟨cs, ⟨-, hsinks⟩, h⟩ := h
  split at h
  swap
  · exact absurd h bind_throw_ne_ok
  rename_i slot'
  simp only [bind_eq_ok] at h
  obtain ⟨y, hy, h⟩ := h
  split at h
  swap
  · simp only [bind_eq_ok, throw_eq_ok, false_and, and_false, exists_false] at h
  have hg1 := hseats.sound hg hout ⟨cell, hmem⟩
  have hseat := hseats.seat hg hout
  -- the only connection of the target that can be driven is the slot
  obtain rfl : slot = slot' := by
    have : slot ∈ (g1.connsOf t).filter g1.isSink := mem_filter.mpr ⟨hseat.mem, hseat.sink⟩
    rw [hsinks] at this
    exact mem_singleton.mp this
  have habs : (g.absorbedOf t).buffer = false := by
    rw [← hseats.absorbedOf]
    simpa [absorbedOf, hx] using hbuf
  have hdata1 : g1.OneDataAt cell := by
    intro c c' hc hc' hcd hcd'
    rw [hseats.connsOf (isSome_of_mem_connsOf hmem)] at hc hc'
    rw [isData, hseats.connNameOf? (hg.conn_isSome hc)] at hcd
    rw [isData, hseats.connNameOf? (hg.conn_isSome hc')] at hcd'
    exact hdata hc hc' hcd hcd'
  obtain ⟨g2, ins, g3, g4, g5, hd, hins, hr, hmoves, hretire, happ⟩ := hseat.exists_buffer
    (hseats.hasKind_cell hcell) (hseats.mem_connsOf hmem) (hseats.isOutput hout) hg1 hdata1
  simp only [hd, hins, hr, hmoves, hretire, ok_bind, pure_eq_ok] at h
  subst h
  exact .inr ⟨o, t, slot, g1, rfl, hne, hseats, habs, htarget, happ⟩

end PldSynth.Network
