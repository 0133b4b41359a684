import Mathlib.Data.List.Nodup
import PldSynth.Proofs.Network.Edits

/-!
# Networks in order

A network is in order (`Sound`) if every connection stands on the list of its own node and on no
other (`Owned`), and if every wire joins an output with a connection that can be driven, is written
down on both ends, and is the only wire of the connection that it drives (`Wired`).

Cutting wires, taking a connection off its node, giving it to another node and taking a node out of
use all keep a network in order. For each of them the records afterwards are given in full.
-/

namespace PldSynth

open Attempt List

/-- The kinds of nodes that stand on the list of cells. -/
def NodeKind.isCell (k : NodeKind) : Bool :=
  k.isCombinational || k.isSequential || k = .constant

theorem NodeKind.isNamed_of_isCell {k : NodeKind} (h : k.isCell) : k.isNamed = false := by
  cases k <;> first | rfl | cases h

theorem NodeKind.not_isBoundary_of_isCell {k : NodeKind} (h : k.isCell) (hseq : k.isSequential = false) :
    k.isBoundary = false := by
  cases k with
  | flipFlop | latch | triState => cases hseq
  | design | pin | pinNode | unknown => cases h
  | gate | inverter | constant => rfl

namespace Network

/-- The node stands on one of the lists, or is the module itself. -/
def InUse (g : Network) (n : NodeId) : Prop :=
  n = designId ∨ n ∈ g.cells ∨ n ∈ g.pins ∨ n ∈ g.pinNodes

/-- Connections and nodes stand where they belong. -/
structure Owned (g : Network) : Prop where
  owner : ∀ {n c}, c ∈ g.connsOf n → g.ownerOf? c = some n
  nodup_conns : ∀ n, (g.connsOf n).Nodup
  inUse : ∀ {n c}, c ∈ g.connsOf n → g.InUse n
  design_kind : g.kindOf? designId = some .design
  cell_kind : ∀ {n}, n ∈ g.cells → ∃ k, g.kindOf? n = some k ∧ k.isCell = true
  pin_kind : ∀ {n}, n ∈ g.pins → g.kindOf? n = some .pin
  pinNode_kind : ∀ {n}, n ∈ g.pinNodes → g.kindOf? n = some .pinNode
  nodup_cells : g.cells.Nodup
  nodup_pins : g.pins.Nodup
  nodup_pinNodes : g.pinNodes.Nodup

/-- A wire is written down on both of its ends. -/
def Mirrored (g : Network) : Prop :=
  ∀ {c d}, d ∈ g.refsOf c → c ∈ g.refsOf d

/-- A connection stands on the list of no node but its own. -/
def Housed (g : Network) : Prop :=
  ∀ {n c}, c ∈ g.connsOf n → g.ownerOf? c = some n

/-- Wires join outputs with connections that can be driven, and each of the latter has one at
most. -/
structure Wired (g : Network) : Prop where
  mirror : g.Mirrored
  nodup_refs : ∀ c, (g.refsOf c).Nodup
  output_of_sink : ∀ {c d}, d ∈ g.refsOf c → g.isSink c = true → g.isOutput d = true
  sink_of_output : ∀ {c d}, d ∈ g.refsOf c → g.isOutput c = true → g.isSink d = true
  sole : ∀ {c}, g.isSink c = true → (g.refsOf c).length ≤ 1
  listed : ∀ {c d}, d ∈ g.refsOf c → ∃ n, c ∈ g.connsOf n

/-- The network is in order. -/
structure Sound (g : Network) : Prop extends Owned g, Wired g

variable {g g' : Network} {n m t : NodeId} {c d x : ConnId} {k : NodeKind} {cs : List ConnId}
  {l : List ConnId} {p : ConnId → ConnId → Bool}

/-! ## Consequences -/

theorem forall_mem_snoc {α : Type} {P : α → Prop} {l : List α} {a : α} (hl : ∀ b ∈ l, P b)
    (ha : P a) : ∀ b ∈ l ++ [a], P b :=
  forall_mem_append.mpr ⟨hl, forall_mem_singleton.mpr ha⟩

theorem filter_ne_eq_self {α : Type} [DecidableEq α] {l : List α} {a : α} (h : a ∉ l) :
    l.filter (· ≠ a) = l := by
  rw [filter_eq_self]
  intro e he
  have hne : e ≠ a := fun e' => h (e' ▸ he)
  simpa using hne

theorem isSome_of_mem_refsOf (h : d ∈ g.refsOf c) : (g.conn? c).isSome := by
  cases hc : g.conn? c with
  | none => simp [refsOf_def, hc] at h
  | some y => rfl

theorem isSome_of_mem_connsOf (h : c ∈ g.connsOf n) : (g.node? n).isSome := by
  cases hn : g.node? n with
  | none => simp [connsOf_def, hn] at h
  | some y => rfl

theorem isSink_or_isOutput (h : d ∈ g.refsOf c) : g.isSink c ∨ g.isOutput c := by
  have := isSink_eq_not_isOutput (isSome_of_mem_refsOf h)
  cases ho : g.isOutput c <;> simp_all

namespace Owned

theorem conn_isSome (hg : g.Owned) (h : c ∈ g.connsOf n) : (g.conn? c).isSome :=
  isSome_of_ownerOf? (hg.owner h)

/-- A connection stands on the list of one node only. -/
theorem eq_of_mem (hg : g.Owned) (hn : c ∈ g.connsOf n) (hm : c ∈ g.connsOf m) : n = m :=
  Option.mem_unique (hg.owner hn) (hg.owner hm)

theorem cell_isSome (hg : g.Owned) (h : n ∈ g.cells) : (g.node? n).isSome := by
  obtain ⟨k, hk, -⟩ := hg.cell_kind h
  exact isSome_of_kindOf? hk

theorem isNamed_of_mem (hg : g.Owned) (hn : n ∈ g.pins ++ g.pinNodes) : g.hasKind NodeKind.isNamed n := by
  rcases mem_append.mp hn with hn | hn
  · exact hasKind_of (hg.pin_kind hn) rfl
  · exact hasKind_of (hg.pinNode_kind hn) rfl

theorem kind_ne_unknown (hg : g.Owned) (hu : g.InUse n) (hk : g.kindOf? n = some k) : k ≠ .unknown := by
  rintro rfl
  rcases hu with rfl | hn | hn | hn
  · exact nomatch hk.symm.trans hg.design_kind
  · obtain ⟨k, hk', hcell⟩ := hg.cell_kind hn
    obtain rfl := Option.mem_unique hk hk'
    cases hcell
  · exact nomatch hk.symm.trans (hg.pin_kind hn)
  · exact nomatch hk.symm.trans (hg.pinNode_kind hn)

/-- Only one node in use stands for the design. -/
theorem eq_designId (hg : g.Owned) (hu : g.InUse n) (hk : g.kindOf? n = some .design) : n = designId := by
  rcases hu with hn | hn | hn | hn
  · exact hn
  · obtain ⟨k, hk', hcell⟩ := hg.cell_kind hn
    obtain rfl := Option.mem_unique hk hk'
    cases hcell
  · exact nomatch hk.symm.trans (hg.pin_kind hn)
  · exact nomatch hk.symm.trans (hg.pinNode_kind hn)

theorem mem_of_isNamed (hg : g.Owned) (hc : c ∈ g.connsOf n)
    (hk : g.hasKind NodeKind.isNamed n) : n ∈ g.pins ++ g.pinNodes := by
  rcases hg.inUse hc with rfl | hn | hn | hn
  · rw [hasKind, hg.design_kind] at hk
    cases hk
  · obtain ⟨k, hk', hcell⟩ := hg.cell_kind hn
    rw [hasKind, hk', Option.any_some, NodeKind.isNamed_of_isCell hcell] at hk
    cases hk
  · exact mem_append_left _ hn
  · exact mem_append_right _ hn

theorem mem_cells_of_isCell (hg : g.Owned) (hc : c ∈ g.connsOf n)
    (hk : g.hasKind NodeKind.isCell n) : n ∈ g.cells := by
  rcases hg.inUse hc with rfl | hn | hn | hn
  · rw [hasKind, hg.design_kind] at hk
    cases hk
  · exact hn
  · rw [hasKind, hg.pin_kind hn] at hk
    cases hk
  · rw [hasKind, hg.pinNode_kind hn] at hk
    cases hk

theorem filter_conns_of_ne (hg : g.Owned) (hc : c ∈ g.connsOf n) (hm : m ≠ n) :
    (g.connsOf m).filter (· ≠ c) = g.connsOf m :=
  filter_ne_eq_self fun h => hm (hg.eq_of_mem h hc)

/-- Connections of one node are not among those of another. -/
theorem filter_notMem_conns (hg : g.Owned) (hcs : ∀ c ∈ cs, c ∈ g.connsOf n) (hm : m ≠ n) :
    (g.connsOf m).filter (· ∉ cs) = g.connsOf m := by
  rw [filter_eq_self]
  intro c hc
  simpa using fun hcc => hm (hg.eq_of_mem hc (hcs c hcc))

end Owned

theorem isSome_of_hasKind {p : NodeKind → Bool} (h : g.hasKind p n) : (g.node? n).isSome := by
  obtain ⟨k, hk, -⟩ := hasKind_iff.mp h
  exact isSome_of_kindOf? hk

namespace Wired

/-- Both ends of a wire were handed out. -/
theorem ref_isSome (hg : g.Wired) (h : d ∈ g.refsOf c) : (g.conn? d).isSome :=
  isSome_of_mem_refsOf (hg.mirror h)

theorem refsOf_eq_singleton (hg : g.Wired) (hs : g.isSink c) (h : d ∈ g.refsOf c) : g.refsOf c = [d] := by
  have hlen := hg.sole hs
  match hr : g.refsOf c, h, hlen with
  | [e], h, _ => rw [mem_singleton.mp h]

theorem eq_nil_or_singleton (hg : g.Wired) (hs : g.isSink c) :
    g.refsOf c = [] ∨ ∃ d, g.refsOf c = [d] := by
  cases hr : g.refsOf c with
  | nil => exact .inl rfl
  | cons d l =>
    rw [← hr]
    exact .inr ⟨d, hg.refsOf_eq_singleton hs (by simp [hr])⟩

/-- What an output drives reads that output and nothing else. -/
theorem refsOf_consumer (hg : g.Wired) (ho : g.isOutput c) (h : d ∈ g.refsOf c) : g.refsOf d = [c] :=
  hg.refsOf_eq_singleton (hg.sink_of_output h ho) (hg.mirror h)

theorem ne_of_mem (hg : g.Wired) (h : d ∈ g.refsOf c) : c ≠ d := by
  rintro rfl
  rcases isSink_or_isOutput h with hs | ho
  · have := not_isSink_of_isOutput (hg.output_of_sink h hs)
    simp [this] at hs
  · exact ne_of_isSink (hg.sink_of_output h ho) ho rfl

/-- An output is no consumer. -/
theorem not_mem_refsOf (hg : g.Wired) (ho : g.isOutput c) (hd : g.isOutput d) : d ∉ g.refsOf c :=
  fun h => ne_of_isSink (hg.sink_of_output h ho) hd rfl

/-- What can be driven drives nothing that can be driven. -/
theorem filter_refsOf_ne (hg : g.Wired) (hd : g.isSink d) (hs : g.isSink c) :
    (g.refsOf c).filter (· ≠ d) = g.refsOf c :=
  filter_ne_eq_self fun hmem => ne_of_isSink hd (hg.output_of_sink hmem hs) rfl

/-- No connection reads two outputs. -/
theorem eq_of_consumer {o : ConnId} (hg : g.Wired) (ho : g.isOutput o) (hd : g.isOutput d)
    (h : c ∈ g.refsOf o) (h' : c ∈ g.refsOf d) : d = o :=
  singleton_inj.mp ((hg.refsOf_consumer hd h').symm.trans (hg.refsOf_consumer ho h))

end Wired

/-- What a network shows decides whether it is in order. -/
theorem Sound.congr (hg : g.Sound) (hk : ∀ n, g'.kindOf? n = g.kindOf? n)
    (hconns : ∀ n, g'.connsOf n = g.connsOf n) (hdir : ∀ c, g'.directionOf? c = g.directionOf? c)
    (howner : ∀ c, g'.ownerOf? c = g.ownerOf? c) (hrefs : ∀ c, g'.refsOf c = g.refsOf c)
    (hcells : g'.cells = g.cells) (hpins : g'.pins = g.pins) (hpinNodes : g'.pinNodes = g.pinNodes) :
    g'.Sound where
  owner hc := by
    rw [hconns] at hc
    rw [howner]
    exact hg.owner hc
  nodup_conns n := hconns n ▸ hg.nodup_conns n
  inUse hc := by
    rw [hconns] at hc
    rw [InUse, hcells, hpins, hpinNodes]
    exact hg.inUse hc
  design_kind := (hk _).trans hg.design_kind
  cell_kind hn := by
    rw [hk]
    exact hg.cell_kind (hcells ▸ hn)
  pin_kind hn := (hk _).trans (hg.pin_kind (hpins ▸ hn))
  pinNode_kind hn := (hk _).trans (hg.pinNode_kind (hpinNodes ▸ hn))
  nodup_cells := hcells ▸ hg.nodup_cells
  nodup_pins := hpins ▸ hg.nodup_pins
  nodup_pinNodes := hpinNodes ▸ hg.nodup_pinNodes
  mirror h := by
    rw [hrefs] at h ⊢
    exact hg.mirror h
  nodup_refs c := hrefs c ▸ hg.nodup_refs c
  output_of_sink h hs := by
    rw [hrefs] at h
    rw [isOutput_congr (hdir _)]
    exact hg.output_of_sink h (isSink_congr (hdir _) ▸ hs)
  sink_of_output h ho := by
    rw [hrefs] at h
    rw [isSink_congr (hdir _)]
    exact hg.sink_of_output h (isOutput_congr (hdir _) ▸ ho)
  sole hs := by
    rw [hrefs]
    exact hg.sole (isSink_congr (hdir _) ▸ hs)
  listed h := by
    rw [hrefs] at h
    simpa only [hconns] using hg.listed h

/-! ## Edits of wires -/

/-- Wires do not matter to where things stand. -/
theorem Owned.of_rewires {f : ConnId → List ConnId → List ConnId} (hg : g.Owned)
    (h : Rewires f g g') : g'.Owned where
  owner hc := by rw [h.ownerOf?]; exact hg.owner (h.connsOf ▸ hc)
  nodup_conns n := by rw [h.connsOf]; exact hg.nodup_conns n
  inUse hc := by
    have := hg.inUse (h.connsOf ▸ hc)
    rwa [InUse, h.cells, h.pins, h.pinNodes]
  design_kind := by rw [h.kindOf?]; exact hg.design_kind
  cell_kind hn := by rw [h.kindOf?]; exact hg.cell_kind (h.cells ▸ hn)
  pin_kind hn := by rw [h.kindOf?]; exact hg.pin_kind (h.pins ▸ hn)
  pinNode_kind hn := by rw [h.kindOf?]; exact hg.pinNode_kind (h.pinNodes ▸ hn)
  nodup_cells := by rw [h.cells]; exact hg.nodup_cells
  nodup_pins := by rw [h.pins]; exact hg.nodup_pins
  nodup_pinNodes := by rw [h.pinNodes]; exact hg.nodup_pinNodes

/-- Wires are in order if each driven connection and its driver name each other and nothing else
drives the former. -/
theorem Wired.of_drivers (hsink : ∀ {c d}, g.isSink c → d ∈ g.refsOf c →
      g.isOutput d ∧ c ∈ g.refsOf d ∧ g.refsOf c = [d]) (hout : ∀ {o}, g.isOutput o →
      (g.refsOf o).Nodup ∧ ∀ c ∈ g.refsOf o, g.isSink c ∧ g.refsOf c = [o])
    (hlisted : ∀ {c d}, d ∈ g.refsOf c → ∃ n, c ∈ g.connsOf n) : g.Wired where
  mirror {c d} h := by
    rcases isSink_or_isOutput h with hs | ho
    · exact (hsink hs h).2.1
    · simp [((hout ho).2 d h).2]
  nodup_refs c := by
    cases hr : g.refsOf c with
    | nil => exact nodup_nil
    | cons d l =>
      have hd : d ∈ g.refsOf c := by simp [hr]
      rw [← hr]
      rcases isSink_or_isOutput hd with hs | ho
      · rw [(hsink hs hd).2.2]
        exact nodup_singleton d
      · exact (hout ho).1
  output_of_sink h hs := (hsink hs h).1
  sink_of_output h ho := ((hout ho).2 _ h).1
  sole {c} hs := by
    cases hr : g.refsOf c with
    | nil => simp
    | cons d l =>
      have hd : d ∈ g.refsOf c := by simp [hr]
      rw [← hr, (hsink hs hd).2.2]
      simp
  listed := hlisted

/-- Taking wires away on both ends leaves the remaining ones in order. -/
theorem Wired.shrink (hg : g.Wired) (hdir : ∀ x, g'.directionOf? x = g.directionOf? x)
    (hsub : ∀ x, (g'.refsOf x).Sublist (g.refsOf x)) (hmirror : g'.Mirrored)
    (hlisted : ∀ {x y}, y ∈ g'.refsOf x → ∃ n, x ∈ g'.connsOf n) : g'.Wired where
  mirror := hmirror
  nodup_refs c := (hg.nodup_refs c).sublist (hsub c)
  output_of_sink h hs := by
    rw [isOutput_congr (hdir _)]
    exact hg.output_of_sink ((hsub _).subset h) (isSink_congr (hdir _) ▸ hs)
  sink_of_output h ho := by
    rw [isSink_congr (hdir _)]
    exact hg.sink_of_output ((hsub _).subset h) (isOutput_congr (hdir _) ▸ ho)
  sole hs := Nat.le_trans (hsub _).length_le (hg.sole (isSink_congr (hdir _) ▸ hs))
  listed := hlisted

/-- Wires that are taken away on both ends leave no end behind. -/
theorem Mirrored.filter (hg : g.Mirrored)
    (hrefs : ∀ x, g'.refsOf x = (g.refsOf x).filter (p x)) (hp : ∀ x y, p x y = p y x) : g'.Mirrored := by
  intro x y hy
  rw [hrefs, mem_filter] at hy ⊢
  exact ⟨hg hy.1, hp x y ▸ hy.2⟩

theorem Wired.filter (hg : g.Wired) (hdir : ∀ x, g'.directionOf? x = g.directionOf? x)
    (hrefs : ∀ x, g'.refsOf x = (g.refsOf x).filter (p x)) (hp : ∀ x y, p x y = p y x)
    (hlisted : ∀ {x y n}, p x y → x ∈ g.connsOf n → x ∈ g'.connsOf n) : g'.Wired := by
  refine hg.shrink hdir (fun x => ?_) (Mirrored.filter hg.mirror hrefs hp) fun {x y} hy => ?_
  · rw [hrefs]
    exact filter_sublist
  · rw [hrefs, mem_filter] at hy
    obtain ⟨n, hn⟩ := hg.listed hy.1
    exact ⟨n, hlisted hy.2 hn⟩

/-- Cutting every wire of a connection takes it off the lists at the other ends. -/
theorem rewires_clearRefs (hg : g.Mirrored) (h : g.clearRefs c = .ok g') :
    Rewires (fun x l => if x = c then [] else l.filter (· ≠ c)) g g' := by
  simp only [clearRefs, bind_eq_ok, pure_eq_ok, conn_eq_ok] at h
  obtain ⟨y, hy, -, -, rfl⟩ := h
  apply ((rewires_setRefs []).trans (rewires_foldl_forget y.refs)).congr
  intro x z hz
  by_cases hx : x = c
  · simp [hx]
  · by_cases hmem : x ∈ y.refs
    · simp [hx, hmem]
    · -- a connection that `c` does not list does not list `c`
      have hc : c ∉ z.refs := by
        intro hc
        apply hmem
        rw [← refsOf_of_conn? hy]
        exact hg (by rwa [refsOf_of_conn? hz])
      simp only [hx, hmem, if_false, filter_ne_eq_self hc]

theorem refsOf_clearRefs (hg : g.Mirrored) (h : g.clearRefs c = .ok g') :
    g'.refsOf x = if x = c then [] else (g.refsOf x).filter (· ≠ c) :=
  (rewires_clearRefs hg h).refsOf (.inr (by simp))

theorem clearRefs_eq_filter (hg : g.Mirrored) (h : g.clearRefs c = .ok g') (x : ConnId) :
    g'.refsOf x = (g.refsOf x).filter fun y => x ≠ c && y ≠ c := by
  rw [refsOf_clearRefs hg h]
  by_cases hx : x = c <;> simp [hx]

theorem mirrored_clearRefs (hg : g.Mirrored) (h : g.clearRefs c = .ok g') : g'.Mirrored :=
  hg.filter (clearRefs_eq_filter hg h) fun _ _ => Bool.and_comm _ _

theorem Sound.clearRefs (hg : g.Sound) (h : g.clearRefs c = .ok g') : g'.Sound := by
  have hr := rewires_clearRefs hg.mirror h
  exact ⟨hg.toOwned.of_rewires hr, hg.toWired.filter (fun x => hr.directionOf?)
    (clearRefs_eq_filter hg.mirror h) (fun _ _ => Bool.and_comm _ _) fun _ hx => hr.connsOf ▸ hx⟩

/-- Cutting the wires of several connections, one after the other. -/
theorem rewires_foldlM_clearRefs (hg : g.Mirrored) (h : l.foldlM clearRefs g = .ok g') :
    Rewires (fun x l' => if x ∈ l then [] else l'.filter (· ∉ l)) g g' := by
  induction l generalizing g with
  | nil =>
    rw [foldlM_nil_eq_ok] at h
    subst h
    simpa using Edit.Applies.refl g
  | cons c l ih =>
    obtain ⟨g1, h1, hrest⟩ := foldlM_cons_eq_ok.mp h
    apply ((rewires_clearRefs hg h1).trans (ih (mirrored_clearRefs hg h1) hrest)).congr
    intro x y _
    by_cases hx : x = c
    · simp [hx]
    · by_cases hl : x ∈ l
      · simp [hl]
      · simp only [hx, hl, if_false, filter_filter, mem_cons, or_self]
        congr 1
        simp [not_or, Bool.and_comm]

/-! ### Drawing and cutting one wire -/

theorem refsOf_wire (h : c ≠ d) (hc : (g.conn? c).isSome) (hd : (g.conn? d).isSome) :
    (g.wire c d).refsOf x =
      if x = c then g.refsOf c ++ [d] else if x = d then g.refsOf d ++ [c] else g.refsOf x := by
  by_cases hxc : x = c
  · subst hxc
    rw [(rewires_wire h).refsOf (.inl hc)]
    simp
  · by_cases hxd : x = d
    · subst hxd
      rw [(rewires_wire h).refsOf (.inl hd)]
      simp [hxc]
    · rw [(rewires_wire h).refsOf (.inr (by simp [hxc, hxd]))]
      simp [hxc, hxd]

section Wire

variable (hs : g.isSink c) (ho : g.isOutput d) (hr : g.refsOf c = [])
include hs ho

theorem refsOf_wire_output (hx : g.isOutput x) :
    (g.wire c d).refsOf x = if x = d then g.refsOf d ++ [c] else g.refsOf x := by
  rw [refsOf_wire (ne_of_isSink hs ho) (isSome_of_isSink hs) (isSome_of_isOutput ho),
    if_neg (ne_of_isSink hs hx).symm]

include hr

theorem refsOf_wire_sink (hx : g.isSink x) :
    (g.wire c d).refsOf x = if x = c then [d] else g.refsOf x := by
  rw [refsOf_wire (ne_of_isSink hs ho) (isSome_of_isSink hs) (isSome_of_isOutput ho), hr,
    if_neg (ne_of_isSink hx ho), nil_append]

/-- Whatever drives a connection is an output and names it. -/
theorem driver_of_wire (hg : g.Sound) {y : ConnId} (hx : g.isSink x) (hy : y ∈ (g.wire c d).refsOf x) :
    g.isOutput y ∧ x ∈ (g.wire c d).refsOf y ∧ (g.wire c d).refsOf x = [y] := by
  rw [refsOf_wire_sink hs ho hr hx] at hy ⊢
  by_cases hxc : x = c
  · rw [if_pos hxc, mem_singleton] at hy
    subst hy
    rw [refsOf_wire_output hs ho ho, if_pos hxc, if_pos rfl, hxc]
    exact ⟨ho, mem_append_right _ (mem_singleton_self c), rfl⟩
  · rw [if_neg hxc] at hy ⊢
    have hyo := hg.output_of_sink hy hx
    refine ⟨hyo, ?_, hg.refsOf_eq_singleton hx hy⟩
    rw [refsOf_wire_output hs ho hyo]
    split
    · rename_i hyd
      exact mem_append_left _ (hyd ▸ hg.mirror hy)
    · exact hg.mirror hy

/-- Whatever an output drives reads it and nothing else. -/
theorem consumers_of_wire (hg : g.Sound) (hx : g.isOutput x) : ((g.wire c d).refsOf x).Nodup ∧
    ∀ y ∈ (g.wire c d).refsOf x, g.isSink y ∧ (g.wire c d).refsOf y = [x] := by
  -- nothing lists `c`, which had no wire
  have hfree : c ∉ g.refsOf x := by
    intro hc
    have := hg.mirror hc
    simp [hr] at this
  have hold : ∀ y ∈ g.refsOf x, g.isSink y ∧ (g.wire c d).refsOf y = [x] := by
    intro y hy
    have hys := hg.sink_of_output hy hx
    have hyc : y ≠ c := fun e => hfree (e ▸ hy)
    rw [refsOf_wire_sink hs ho hr hys, if_neg hyc]
    exact ⟨hys, hg.refsOf_consumer hx hy⟩
  rw [refsOf_wire_output hs ho hx]
  split
  · rename_i hxd
    subst hxd
    constructor
    · exact nodup_append.mpr ⟨hg.nodup_refs x, nodup_singleton c,
        fun a ha b hb hab => hfree (mem_singleton.mp hb ▸ hab ▸ ha)⟩
    · refine forall_mem_snoc hold ⟨hs, ?_⟩
      rw [refsOf_wire_sink hs ho hr hs, if_pos rfl]
  · exact ⟨hg.nodup_refs x, hold⟩

/-- An output may drive any connection that nothing drives yet. -/
theorem Sound.wire (hg : g.Sound) (hc : ∃ n, c ∈ g.connsOf n) (hd : ∃ n, d ∈ g.connsOf n) :
    (g.wire c d).Sound := by
  have hne := ne_of_isSink hs ho
  have hw := rewires_wire hne (g := g)
  have hsink : ∀ x, (g.wire c d).isSink x = g.isSink x := fun x => isSink_congr hw.directionOf?
  have hout : ∀ x, (g.wire c d).isOutput x = g.isOutput x := fun x => isOutput_congr hw.directionOf?
  refine ⟨hg.toOwned.of_rewires hw, Wired.of_drivers ?_ ?_ ?_⟩
  · intro x y hx hy
    rw [hout]
    exact driver_of_wire hs ho hr hg (hsink x ▸ hx) hy
  · intro x hx
    simp only [hsink]
    exact consumers_of_wire hs ho hr hg (hout x ▸ hx)
  · intro x y hy
    rw [refsOf_wire hne (isSome_of_isSink hs) (isSome_of_isOutput ho)] at hy
    split at hy
    · rename_i hxc
      exact hxc ▸ hc
    · split at hy
      · rename_i hxd
        exact hxd ▸ hd
      · exact hg.listed hy

end Wire

/-- Of the wires all are kept but the one that is cut. -/
theorem cut_eq_filter :
    (g.cut c d).refsOf x = (g.refsOf x).filter fun y => !(x = c && y = d) && !(x = d && y = c) := by
  have hr : Rewires _ g (g.cut c d) := rewires_forget.trans rewires_forget
  rw [hr.refsOf (.inr (by simp))]
  by_cases hxc : x = c
  · subst hxc
    by_cases hxd : x = d
    · subst hxd
      simp [filter_filter]
    · simp [hxd]
  · by_cases hxd : x = d
    · subst hxd
      simp [hxc]
    · simp [hxc, hxd]

theorem symm_cut (x y : ConnId) :
    (!(x = c && y = d) && !(x = d && y = c)) = (!(y = c && x = d) && !(y = d && x = c)) := by
  rw [Bool.and_comm, Bool.and_comm (decide (x = d)), Bool.and_comm (decide (x = c))]

theorem refsOf_cut (h : c ≠ d) : (g.cut c d).refsOf x = if x = c then (g.refsOf c).filter (· ≠ d)
      else if x = d then (g.refsOf d).filter (· ≠ c) else g.refsOf x := by
  rw [(rewires_cut h).refsOf (.inr (by simp))]
  by_cases hxc : x = c
  · simp [hxc]
  · by_cases hxd : x = d
    · simp [hxd, h.symm]
    · simp [hxc, hxd]

theorem Sound.cut (hg : g.Sound) (h : c ≠ d) : (g.cut c d).Sound := by
  have hw := rewires_cut h (g := g)
  exact ⟨hg.toOwned.of_rewires hw, hg.toWired.filter (fun x => hw.directionOf?)
    (fun x => cut_eq_filter) symm_cut fun _ hx => hw.connsOf ▸ hx⟩

theorem refsOf_cut_sink (h : c ≠ d) (ho : g.isOutput d) (hx : g.isSink x) :
    (g.cut c d).refsOf x = if x = c then (g.refsOf c).filter (· ≠ d) else g.refsOf x := by
  rw [refsOf_cut h, if_neg (ne_of_isSink hx ho)]

/-! ## Edits of lists -/

/-- An edit keeps everything in place if every connection that a node lists afterwards was given to
that node, and only nodes that stay on the lists own connections. -/
theorem Owned.of_edit {e : Edit} (hg : g.Owned) (h : e.Applies g g')
    (howner : ∀ {n x}, x ∈ g'.connsOf n → g'.ownerOf? x = some n) (hnodup : ∀ n, (g'.connsOf n).Nodup)
    (huse : ∀ {n x}, x ∈ g'.connsOf n → g.InUse n ∧ e.keep n) : g'.Owned where
  owner := howner
  nodup_conns := hnodup
  inUse hx := by
    obtain ⟨hu, hk⟩ := huse hx
    simpa [InUse, h.cells, h.pins, h.pinNodes, hk] using hu
  design_kind := by rw [h.kindOf?]; exact hg.design_kind
  cell_kind hn := by
    rw [h.cells, mem_filter] at hn
    rw [h.kindOf?]
    exact hg.cell_kind hn.1
  pin_kind hn := by
    rw [h.pins, mem_filter] at hn
    rw [h.kindOf?]
    exact hg.pin_kind hn.1
  pinNode_kind hn := by
    rw [h.pinNodes, mem_filter] at hn
    rw [h.kindOf?]
    exact hg.pinNode_kind hn.1
  nodup_cells := by rw [h.cells]; exact hg.nodup_cells.filter _
  nodup_pins := by rw [h.pins]; exact hg.nodup_pins.filter _
  nodup_pinNodes := by rw [h.pinNodes]; exact hg.nodup_pinNodes.filter _

/-- Taking a connection off the list of its owner. -/
theorem Housed.node?_unlist (hg : g.Housed) (hc : g.ownerOf? c = some n) : (g.unlist n c).node? m =
      (g.node? m).map fun y => { y with conns := y.conns.filter (· ≠ c) } := by
  rw [unlist, node?_modifyNode]
  split
  · rfl
  · rename_i hm
    cases hy : g.node? m with
    | none => rfl
    | some y =>
      have hc' : c ∉ y.conns := by
        intro hmem
        rw [← connsOf_of_node? hy] at hmem
        have := (hg hmem).symm.trans hc
        exact hm (Option.some.inj this)
      simp only [Option.map_some, filter_ne_eq_self hc']

/-! ### Taking a connection off its node -/

/-- The connection leaves its node and loses its wires. -/
def detached (c : ConnId) : Edit where
  conns _ l := l.filter (· ≠ c)
  refs x l := if x = c then [] else l.filter (· ≠ c)

/-- What detaching a connection does. -/
theorem applies_detach (hm : g.Mirrored) (hg : g.Housed) (h : g.detach c = .ok g') :
    (detached c).Applies g g' := by
  simp only [detach, bind_eq_ok, pure_eq_ok, owner_eq_ok] at h
  obtain ⟨g1, h1, n, hn, -, -, rfl⟩ := h
  have hr := rewires_clearRefs hm h1
  have ho : g1.Housed := by
    intro n x hx
    rw [hr.ownerOf?]
    exact hg (hr.connsOf ▸ hx)
  refine ⟨fun m => ?_, hr.conn?, ?_, ?_, ?_, hr.names⟩
  · rw [ho.node?_unlist hn, hr.node?]
    simp [detached]
  · simpa [detached, unlist] using hr.cells
  · simpa [detached, unlist] using hr.pins
  · simpa [detached, unlist] using hr.pinNodes

theorem connsOf_detached (h : (detached c).Applies g g') : g'.connsOf m = (g.connsOf m).filter (· ≠ c) :=
  h.connsOf (.inr rfl)

theorem refsOf_detached (h : (detached c).Applies g g') :
    g'.refsOf x = if x = c then [] else (g.refsOf x).filter (· ≠ c) :=
  h.refsOf (.inr (by simp [detached]))

theorem detached_eq_filter (h : (detached c).Applies g g') (x : ConnId) :
    g'.refsOf x = (g.refsOf x).filter fun y => x ≠ c && y ≠ c := by
  rw [refsOf_detached h]
  by_cases hx : x = c <;> simp [hx]

theorem Housed.detached (hg : g.Housed) (h : (detached c).Applies g g') : g'.Housed := by
  intro n x hx
  rw [connsOf_detached h] at hx
  rw [h.ownerOf?, hg (mem_filter.mp hx).1]
  rfl

theorem nodup_detached (h : (detached c).Applies g g') (hg : ∀ n, (g.connsOf n).Nodup) (n : NodeId) :
    (g'.connsOf n).Nodup := by
  rw [connsOf_detached h]
  exact (hg n).filter _

theorem Sound.detached (hg : g.Sound) (h : (detached c).Applies g g') : g'.Sound where
  toOwned := by
    refine hg.toOwned.of_edit h (Housed.detached hg.owner h) (nodup_detached h hg.nodup_conns) ?_
    intro n x hx
    rw [connsOf_detached h] at hx
    exact ⟨hg.inUse (mem_filter.mp hx).1, rfl⟩
  toWired := by
    refine hg.toWired.filter (fun x => h.directionOf?) (detached_eq_filter h)
      (fun _ _ => Bool.and_comm _ _) fun hp hx => ?_
    rw [connsOf_detached h, mem_filter]
    exact ⟨hx, (Bool.and_eq_true_iff.mp hp).1⟩

/-! ### Giving a connection to another node -/

/-- The connection moves to the end of the list of `t`. -/
def reparented (c : ConnId) (t : NodeId) : Edit where
  conns m l := l.filter (· ≠ c) ++ if m = t then [c] else []
  owner x n := if x = c then t else n

theorem applies_reparent (hg : g.Housed) (h : g.reparent c t = .ok g') :
    (reparented c t).Applies g g' ∧ (g.conn? c).isSome ∧ (g.node? t).isSome := by
  simp only [reparent, bind_eq_ok, pure_eq_ok, owner_eq_ok, node_eq_ok] at h
  obtain ⟨n, hn, _, -, z, hz, rfl⟩ := h
  refine ⟨⟨fun m => ?_, fun x => ?_, ?_, ?_, ?_, rfl⟩, isSome_of_ownerOf? hn, by simp [hz]⟩
  · rw [node?_modifyNode, node?_modifyConn, hg.node?_unlist hn]
    by_cases hm : m = t <;> simp [hm, reparented, Function.comp_def]
  · rw [conn?_modifyNode, conn?_modifyConn, unlist]
    by_cases hx : x = c <;> simp [hx, reparented]
  · simp [reparented, unlist]
  · simp [reparented, unlist]
  · simp [reparented, unlist]

theorem connsOf_reparented (h : (reparented c t).Applies g g') (ht : (g.node? t).isSome) :
    g'.connsOf m = (g.connsOf m).filter (· ≠ c) ++ if m = t then [c] else [] := by
  apply h.connsOf
  by_cases hm : m = t
  · exact .inl (hm ▸ ht)
  · exact .inr (by simp [reparented, hm])

theorem refsOf_reparented (h : (reparented c t).Applies g g') : g'.refsOf x = g.refsOf x :=
  h.refsOf (.inr rfl)

theorem ownerOf?_reparented (h : (reparented c t).Applies g g') (hc : (g.conn? c).isSome) :
    g'.ownerOf? x = if x = c then some t else g.ownerOf? x := by
  rw [h.ownerOf?]
  by_cases hx : x = c
  · obtain ⟨y, hy⟩ := Option.isSome_iff_exists.mp hc
    simp [hx, ownerOf?_def, hy, reparented]
  · simp [hx, reparented]

theorem Housed.reparented (hg : g.Housed) (h : (reparented c t).Applies g g')
    (hc : (g.conn? c).isSome) (ht : (g.node? t).isSome) : g'.Housed := by
  intro n x hx
  rw [connsOf_reparented h ht, mem_append, mem_filter, decide_eq_true_eq] at hx
  rw [ownerOf?_reparented h hc]
  rcases hx with ⟨hx, hne⟩ | hx
  · rw [if_neg hne]
    exact hg hx
  · split at hx
    · rename_i hn
      rw [if_pos (mem_singleton.mp hx), hn]
    · cases hx

theorem nodup_reparented (h : (reparented c t).Applies g g') (ht : (g.node? t).isSome)
    (hg : ∀ n, (g.connsOf n).Nodup) (n : NodeId) : (g'.connsOf n).Nodup := by
  rw [connsOf_reparented h ht]
  have hf : ((g.connsOf n).filter (· ≠ c)).Nodup := (hg n).filter _
  split
  · exact nodup_append.mpr ⟨hf, nodup_singleton c, by simp⟩
  · rwa [append_nil]

/-- A connection may go over to a node in use. -/
theorem Sound.reparented (hg : g.Sound) (h : (reparented c t).Applies g g')
    (hc : (g.conn? c).isSome) (ht : (g.node? t).isSome) (hu : g.InUse t) : g'.Sound where
  toOwned := by
    refine hg.toOwned.of_edit h (Housed.reparented hg.owner h hc ht)
      (nodup_reparented h ht hg.nodup_conns) fun {n x} hx => ⟨?_, rfl⟩
    rw [connsOf_reparented h ht, mem_append, mem_filter] at hx
    rcases hx with ⟨hx, -⟩ | hx
    · exact hg.inUse hx
    · split at hx
      · rename_i hn
        exact hn ▸ hu
      · cases hx
  toWired := by
    apply hg.toWired.shrink (fun x => h.directionOf?)
    · intro x
      rw [refsOf_reparented h]
    · intro a b hb
      rw [refsOf_reparented h] at hb ⊢
      exact hg.mirror hb
    · intro a b hb
      rw [refsOf_reparented h] at hb
      by_cases ha : a = c
      · exact ⟨t, by rw [connsOf_reparented h ht]; simp [ha]⟩
      · obtain ⟨n, hn⟩ := hg.listed hb
        exact ⟨n, by rw [connsOf_reparented h ht]; simp [hn, ha]⟩

/-! ### Taking a node out of use -/

/-- The node `n` leaves the lists; its connections `cs` leave it and lose their wires. -/
def retired (n : NodeId) (cs : List ConnId) : Edit where
  conns m l := if m = n then [] else l
  refs x l := if x ∈ cs then [] else l.filter (· ∉ cs)
  keep m := m ≠ n

theorem applies_retire (hg : g.Mirrored) (h : g.retire n = .ok g') :
    (retired n (g.connsOf n)).Applies g g' := by
  simp only [retire, bind_eq_ok, pure_eq_ok, node_eq_ok] at h
  obtain ⟨y, hy, g1, h1, rfl⟩ := h
  have hm : (g.modifyNode n fun x => { x with conns := [] }).Mirrored := hg
  have hr := rewires_foldlM_clearRefs hm h1
  rw [← connsOf_of_node? hy] at hr
  refine ⟨fun m => ?_, hr.conn?, ?_, ?_, ?_, hr.names⟩
  · refine (hr.node? m).trans ?_
    by_cases hmn : m = n <;> simp [hmn, retired, Function.comp_def]
  · exact congrArg _ hr.cells
  · exact congrArg _ hr.pins
  · exact congrArg _ hr.pinNodes

theorem connsOf_retired (h : (retired n cs).Applies g g') :
    g'.connsOf m = if m = n then [] else g.connsOf m :=
  h.connsOf (.inr (by simp [retired]))

theorem refsOf_retired (h : (retired n cs).Applies g g') :
    g'.refsOf x = if x ∈ cs then [] else (g.refsOf x).filter (· ∉ cs) :=
  h.refsOf (.inr (by simp [retired]))

theorem retired_eq_filter (h : (retired n cs).Applies g g') (x : ConnId) :
    g'.refsOf x = (g.refsOf x).filter fun y => x ∉ cs && y ∉ cs := by
  rw [refsOf_retired h]
  by_cases hx : x ∈ cs <;> simp [hx]

theorem Housed.retired (hg : g.Housed) (h : (retired n cs).Applies g g') : g'.Housed := by
  intro m x hx
  rw [connsOf_retired h] at hx
  split at hx
  · cases hx
  · rw [h.ownerOf?, hg hx]
    rfl

theorem nodup_retired (h : (retired n cs).Applies g g') (hg : ∀ n, (g.connsOf n).Nodup) (m : NodeId) :
    (g'.connsOf m).Nodup := by
  rw [connsOf_retired h]
  split
  · exact nodup_nil
  · exact hg m

/-- A node may be retired with all it has. -/
theorem Sound.retired (hg : g.Sound) (h : (retired n (g.connsOf n)).Applies g g') : g'.Sound where
  toOwned := by
    refine hg.toOwned.of_edit h (Housed.retired hg.owner h) (nodup_retired h hg.nodup_conns) ?_
    intro m x hx
    rw [connsOf_retired h] at hx
    split at hx
    · cases hx
    · rename_i hm
      exact ⟨hg.inUse hx, by simp [Network.retired, hm]⟩
  toWired := by
    refine hg.toWired.filter (fun x => h.directionOf?) (retired_eq_filter h)
      (fun _ _ => Bool.and_comm _ _) fun {x y m} hp hx => ?_
    rw [connsOf_retired h, if_neg]
    · exact hx
    · rintro rfl
      simp [hx] at hp

end Network

end PldSynth
