import PldSynth.Proofs.Network.Layers
import PldSynth.Proofs.Network.Redirection

/-!
# Gates that are needed

An output of a gate is live if something outside of the logic reads it, or a gate whose own output is
live (`Live`). An equation is written for each reader outside of the logic, and it holds the gates
behind it, so a live gate is written once if nothing but one connection reads it (`Unshared`).

The edits of the passes move readers from one node to another but keep what is live and what has one
reader only. `KeepsLogic` is what they have in common, with one lemma for each edit. A pin node may be
put behind a gate only if the gate is live, since a pin node stands outside of the logic.
-/

namespace PldSynth.Network

open PldSynth.NodeKind (isBoundary isNamed)
open List

variable {K : NodeKind → Bool} {g g' g'' g1 g2 : Network} {n m a b : NodeId}
  {c c' d o p x input output kept : ConnId} {s : Takeover} {r : Bool × Network}

/-! ## Readers -/

/-- The node `n` reads the output `o` at its connection `c`. -/
structure ReadAt (g : Network) (o c : ConnId) (n : NodeId) : Prop where
  mem : c ∈ g.connsOf n
  sink : g.isSink c = true
  refs : o ∈ g.refsOf c

/-- The signal leaves the logic: a pin, a pin node, a register, a buffer or the design itself reads
it. -/
def Leaves (g : Network) (o : ConnId) : Prop :=
  ∃ c n, g.ReadAt o c n ∧ g.hasKind isBoundary n = true

/-- The connection is an output of a gate. -/
def GateOutput (g : Network) (o : ConnId) : Prop :=
  ∃ n, g.hasKind NodeKind.isCombinational n = true ∧ o ∈ g.connsOf n ∧ g.isOutput o = true

/-- The value of the output is needed outside of the logic. -/
inductive Live (g : Network) : ConnId → Prop
  | leaves {o : ConnId} (h : g.Leaves o) : Live g o
  | gate {o c p : ConnId} {n : NodeId} (hr : g.ReadAt o c n)
    (hn : g.hasKind NodeKind.isCombinational n = true) (hp : p ∈ g.connsOf n)
    (hout : g.isOutput p = true) (hlive : Live g p) : Live g o

/-- Every connection of a gate that can be driven is driven. -/
def GatesDriven (g : Network) : Prop :=
  ∀ ⦃n c⦄, g.hasKind NodeKind.isCombinational n = true → c ∈ g.connsOf n → g.isSink c = true →
    ∃ d, g.refsOf c = [d]

theorem Raw.gatesDriven (hg : g.Raw K) : g.GatesDriven :=
  fun _ _ _ hc hs => hg.driven hc hs

/-- One connection at most reads the output. -/
def SoleAt (g : Network) (o : ConnId) : Prop :=
  ∀ ⦃c c' n n'⦄, g.ReadAt o c n → g.ReadAt o c' n' → c = c'

/-- No live output of a gate is read twice. -/
def Unshared (g : Network) : Prop :=
  ∀ ⦃o⦄, g.GateOutput o → g.Live o → g.SoleAt o

theorem ReadAt.refsOf_eq (h : g.ReadAt o c n) (hg : g.Wired) : g.refsOf c = [o] :=
  hg.refsOf_eq_singleton h.sink h.refs

theorem GateOutput.isSome (h : g.GateOutput o) : (g.conn? o).isSome := by
  rcases h with ⟨n, -, -, hout⟩
  exact isSome_of_isOutput hout

/-- An output of a node that is no gate is no output of a gate. -/
theorem GateOutput.not_mem (h : g.GateOutput o) (hg : g.Owned)
    (hn : g.hasKind NodeKind.isCombinational n = false) : o ∉ g.connsOf n := by
  intro hmem
  rcases h with ⟨m, hm, ho, -⟩
  rw [hg.eq_of_mem hmem ho, hm] at hn
  cases hn

theorem NodeKind.not_isCombinational_of_isBoundary {k : NodeKind} (h : k.isBoundary) :
    k.isCombinational = false := by
  cases k <;> first | rfl | cases h

theorem not_isCombinational_of_isBoundary (h : g.hasKind isBoundary n) :
    g.hasKind NodeKind.isCombinational n = false := by
  rcases hasKind_iff.mp h with ⟨k, hk, hp⟩
  rw [hasKind, hk]
  exact NodeKind.not_isCombinational_of_isBoundary hp

theorem isBoundary_of_isNamed (h : g.hasKind isNamed n) : g.hasKind isBoundary n := by
  rcases hasKind_iff.mp h with ⟨k, hk, hp⟩
  refine hasKind_iff.mpr ⟨k, hk, ?_⟩
  cases k <;> first | rfl | cases hp

theorem isBoundary_of_isSequential (h : g.hasKind NodeKind.isSequential n) : g.hasKind isBoundary n := by
  rcases hasKind_iff.mp h with ⟨k, hk, hp⟩
  refine hasKind_iff.mpr ⟨k, hk, ?_⟩
  cases k <;> first | rfl | cases hp

/-- What can be driven stands outside of the logic or on a gate. -/
theorem Tidy.isBoundary_or_isCombinational (hg : g.Tidy K) (hc : c ∈ g.connsOf n)
    (hs : g.isSink c) : g.hasKind isBoundary n ∨
      g.hasKind NodeKind.isCombinational n := by
  rcases Option.isSome_iff_exists.mp (isSome_kindOf?.trans (isSome_of_mem_connsOf hc)) with ⟨k, hk⟩
  rw [hasKind, hasKind, hk, Option.any_some]
  have hne := hg.kind_ne_unknown (hg.inUse hc) hk
  cases k with
  | unknown => exact absurd rfl hne
  | constant =>
    have hreg := hg.regular (hasKind_of hk (by simp))
    rw [hreg.silent hk hc] at hs
    cases hs
  | gate | inverter => exact .inr rfl
  | _ => exact .inl rfl

/-! ## What the edits have in common -/

/-- The gates of `g` are the gates of `g'`, and what is live and what has one reader only is the same.
A gate may read less, but only if its driver had several readers and is read outside of the logic
instead. -/
structure KeepsLogic (g g' : Network) : Prop where
  evolves : Evolves g g'
  gates : ∀ {n}, g.hasKind NodeKind.isCombinational n = true → g'.connsOf n = g.connsOf n
  onlyGates : ∀ {n c}, g'.hasKind NodeKind.isCombinational n = true → c ∈ g'.connsOf n →
    (g.node? n).isSome
  logic : ∀ {o c n}, g.GateOutput o → g.hasKind NodeKind.isCombinational n = true → g'.ReadAt o c n →
    g.ReadAt o c n
  kept : ∀ {o c n}, g.GateOutput o → g.hasKind NodeKind.isCombinational n = true → g.ReadAt o c n →
    g'.ReadAt o c n ∨ g'.Leaves o
  stays : ∀ {o c n}, g.GateOutput o → g.SoleAt o → g.hasKind NodeKind.isCombinational n = true →
    g.ReadAt o c n → g'.ReadAt o c n
  leaves : ∀ {o}, g.GateOutput o → g.Leaves o → g'.Leaves o
  live : ∀ {o}, g.GateOutput o → g'.Leaves o → g.Live o
  sole : ∀ {o}, g.GateOutput o → g.SoleAt o → g'.SoleAt o

namespace KeepsLogic

theorem isCombinational (h : KeepsLogic g g') (hn : g'.hasKind NodeKind.isCombinational n)
    (hc : c ∈ g'.connsOf n) : g.hasKind NodeKind.isCombinational n := by
  rwa [← h.evolves.hasKind (h.onlyGates hn hc)]

theorem gateOutput (h : KeepsLogic g g') (ho : g.GateOutput o) : g'.GateOutput o := by
  rcases ho with ⟨n, hn, hmem, hout⟩
  refine ⟨n, (h.evolves.hasKind (isSome_of_mem_connsOf hmem) _).trans hn, ?_, ?_⟩
  · rwa [h.gates hn]
  · exact h.evolves.keeps_output hout

theorem gateOutput_of (h : KeepsLogic g g') (hg : g.Owned) (ho : g'.GateOutput o) : g.GateOutput o := by
  rcases ho with ⟨n, hn, hmem, hout⟩
  have hn0 := h.isCombinational hn hmem
  rw [h.gates hn0] at hmem
  refine ⟨n, hn0, hmem, ?_⟩
  rwa [h.evolves.isOutput (hg.conn_isSome hmem)] at hout

/-- The induction follows the readers; a gate that no longer reads the output has been replaced by a
reader outside of the logic. -/
theorem live_iff (h : KeepsLogic g g') (hg : g.Owned) (ho : g.GateOutput o) : g'.Live o ↔ g.Live o := by
  constructor
  · intro hlive
    induction hlive with
    | leaves hl => exact h.live ho hl
    | gate hr hn hp hout _ ih =>
      have hn0 := h.isCombinational hn hr.mem
      rw [h.gates hn0] at hp
      rw [h.evolves.isOutput (hg.conn_isSome hp)] at hout
      exact .gate (h.logic ho hn0 hr) hn0 hp hout (ih ⟨_, hn0, hp, hout⟩)
  · intro hlive
    induction hlive with
    | leaves hl => exact .leaves (h.leaves ho hl)
    | gate hr hn hp hout _ ih =>
      rcases h.kept ho hn hr with hr' | hl
      · refine .gate hr' ((h.evolves.hasKind (isSome_of_mem_connsOf hp) _).trans hn) ?_ ?_
          (ih ⟨_, hn, hp, hout⟩)
        · rwa [h.gates hn]
        · exact h.evolves.keeps_output hout
      · exact .leaves hl

theorem trans (h : KeepsLogic g g') (hg : g.Owned) (h' : KeepsLogic g' g'') : KeepsLogic g g'' where
  evolves := h.evolves.trans h'.evolves
  gates {n} hn := by
    have hs := isSome_of_hasKind hn
    rw [h'.gates ((h.evolves.hasKind hs _).trans hn), h.gates hn]
  onlyGates {n c} hn hc := by
    have hn' := h'.isCombinational hn hc
    rw [h'.gates hn'] at hc
    exact h.onlyGates hn' hc
  logic {o c n} ho hn hr := by
    have hn' := h.evolves.keeps_kind hn
    exact h.logic ho hn (h'.logic (h.gateOutput ho) hn' hr)
  kept {o c n} ho hn hr := by
    have hn' := h.evolves.keeps_kind hn
    rcases h.kept ho hn hr with hr' | hl
    · exact h'.kept (h.gateOutput ho) hn' hr'
    · exact .inr (h'.leaves (h.gateOutput ho) hl)
  stays {o c n} ho hs hn hr := by
    have hn' := h.evolves.keeps_kind hn
    exact h'.stays (h.gateOutput ho) (h.sole ho hs) hn' (h.stays ho hs hn hr)
  leaves ho hl := h'.leaves (h.gateOutput ho) (h.leaves ho hl)
  live ho hl := (h.live_iff hg ho).mp (h'.live (h.gateOutput ho) hl)
  sole ho hs := h'.sole (h.gateOutput ho) (h.sole ho hs)

theorem unshared (h : KeepsLogic g g') (hg : g.Owned) (hu : g.Unshared) : g'.Unshared := by
  intro o ho hlive
  have ho0 := h.gateOutput_of hg ho
  exact h.sole ho0 (hu ho0 ((h.live_iff hg ho0).mp hlive))

/-- An edit that moves each reader `c` of a gate to `f c`, and leaves the gates themselves alone. -/
theorem of_readers (f : ConnId → ConnId) (he : Evolves g g')
    (gates : ∀ {n}, g.hasKind NodeKind.isCombinational n → g'.connsOf n = g.connsOf n)
    (onlyGates : ∀ {n c}, g'.hasKind NodeKind.isCombinational n → c ∈ g'.connsOf n →
      (g.node? n).isSome) (fwd : ∀ {o c n}, g.GateOutput o → g.ReadAt o c n → ∃ n', g'.ReadAt o (f c) n' ∧
      (g.hasKind NodeKind.isCombinational n → f c = c ∧ n' = n) ∧
      (g.hasKind isBoundary n → g'.hasKind isBoundary n'))
    (bwd : ∀ {o c' n'}, g.GateOutput o → g'.ReadAt o c' n' → ∃ c n, g.ReadAt o c n ∧ f c = c' ∧
      (g'.hasKind NodeKind.isCombinational n' → c = c' ∧ n = n') ∧
      (g'.hasKind isBoundary n' → g.hasKind isBoundary n)) : KeepsLogic g g' := by
  have stays : ∀ {o c n}, g.GateOutput o → g.hasKind NodeKind.isCombinational n → g.ReadAt o c n →
      g'.ReadAt o c n := by
    intro o c n ho hn hr
    rcases fwd ho hr with ⟨n', hr', hsame, -⟩
    rcases hsame hn with ⟨hfc, rfl⟩
    rwa [hfc] at hr'
  exact
    { evolves := he
      gates := gates
      onlyGates := onlyGates
      logic {o c n} ho hn hr := by
        rcases bwd ho hr with ⟨c0, n0, hr0, -, hsame, -⟩
        rcases hsame (he.keeps_kind hn) with ⟨rfl, rfl⟩
        exact hr0
      kept ho hn hr := .inl (stays ho hn hr)
      stays ho _ hn hr := stays ho hn hr
      leaves {o} ho := by
        rintro ⟨c, n, hr, hn⟩
        rcases fwd ho hr with ⟨n', hr', -, hb⟩
        exact ⟨f c, n', hr', hb hn⟩
      live {o} ho := by
        rintro ⟨c', n', hr, hn⟩
        rcases bwd ho hr with ⟨c, n, hr0, -, -, hb⟩
        exact .leaves ⟨c, n, hr0, hb hn⟩
      sole {o} ho hs c c' n n' hr hr' := by
        rcases bwd ho hr with ⟨x, _, hx, rfl, -⟩
        rcases bwd ho hr' with ⟨x', _, hx', rfl, -⟩
        rw [hs hx hx'] }

end KeepsLogic

/-- Nothing happens to a network of which only the list of equations changes. -/
theorem keepsLogic_setTop (l : List ConnId) : KeepsLogic g { g with top := l } :=
  .of_readers id ((alike_setTop l).evolves (fun _ => rfl) fun _ _ => rfl) (fun _ => rfl)
    (fun _ hc => isSome_of_mem_connsOf hc) (fun {_ _ n} _ hr => ⟨n, ⟨hr.mem, hr.sink, hr.refs⟩, fun _ => ⟨rfl, rfl⟩, id⟩)
    (fun {_ c n} _ hr => ⟨c, n, ⟨hr.mem, hr.sink, hr.refs⟩, rfl, fun _ => ⟨rfl, rfl⟩, id⟩)

theorem PinNodesRead.keepsLogic (h : g.PinNodesRead) (hg : g.Tidy K) (hr : g.rebuildTop = .ok g') :
    KeepsLogic g g' := by
  rw [h.rebuildTop hg] at hr
  cases hr
  exact keepsLogic_setTop _

/-! ## Ports and pin nodes -/

namespace Exposes

variable (hx : Exposes p g g') (hp : p ∈ g.connsOf designId)
include hx

/-- What read an output reads it still. The port that is exposed does so on its pin. -/
theorem read_after (hr : g.ReadAt o c n) : g'.ReadAt o c (if c = p then g.nextNode else n) := by
  refine ⟨?_, (isSink_congr (hx.directionOf? c)).trans hr.sink, (hx.refsOf c).symm ▸ hr.refs⟩
  by_cases hcp : c = p
  · simp [hcp, hx.connsOf]
  · have hne : n ≠ g.nextNode := ne_nextNode (isSome_of_mem_connsOf hr.mem)
    simp [hcp, hne, hx.connsOf, hr.mem]

include hp in
theorem read_before (hr : g'.ReadAt o c n) : g.ReadAt o c (if n = g.nextNode then designId else n) := by
  refine ⟨?_, (isSink_congr (hx.directionOf? c)).symm.trans hr.sink, hx.refsOf c ▸ hr.refs⟩
  have hc := hr.mem
  rw [hx.connsOf] at hc
  split at hc
  · rw [mem_singleton.mp hc]
    rwa [if_pos ‹_›]
  · rw [if_neg ‹_›]
    exact (mem_filter.mp hc).1

/-- A port that is exposed is read outside of the logic before and after. -/
theorem keepsLogic (hg : g.Owned) (hp : p ∈ g.connsOf designId) : KeepsLogic g g' := by
  have hdesign : g.hasKind isBoundary designId :=
    hasKind_of hg.design_kind rfl
  have hpin : g'.hasKind isBoundary g.nextNode :=
    hasKind_of (by rw [hx.kindOf?, if_pos rfl]) rfl
  have hport : ∀ {n}, g.hasKind NodeKind.isCombinational n → p ∉ g.connsOf n := by
    intro n hn hmem
    rw [hg.eq_of_mem hmem hp, not_isCombinational_of_isBoundary hdesign] at hn
    cases hn
  refine .of_readers id hx.evolves (fun {n} hn => ?_) (fun {n c} hn _ => ?_) (fun {o c n} _ hr => ?_)
    fun {o c n} _ hr => ?_
  · rw [hx.connsOf, if_neg (ne_nextNode (isSome_of_hasKind hn)), filter_eq_self]
    intro c hc
    rw [decide_eq_true_eq]
    rintro rfl
    exact hport hn hc
  · by_contra hnone
    have hnn : n = g.nextNode := by
      by_contra hnn
      rw [hasKind, hx.kindOf?, if_neg hnn] at hn
      exact hnone (isSome_of_hasKind hn)
    rw [hnn, not_isCombinational_of_isBoundary hpin] at hn
    cases hn
  · -- only what reads the port moves, and it is no gate
    refine ⟨_, hx.read_after hr, fun hn => ⟨rfl, if_neg ?_⟩, fun hn => ?_⟩
    · rintro rfl
      exact hport hn hr.mem
    · split
      · exact hpin
      · exact (hx.evolves.hasKind (isSome_of_mem_connsOf hr.mem) _).trans hn
  · have hr0 := hx.read_before hp hr
    refine ⟨c, _, hr0, rfl, fun hn => ⟨rfl, if_neg ?_⟩, fun hn => ?_⟩
    · rintro rfl
      rw [not_isCombinational_of_isBoundary hpin] at hn
      cases hn
    · split at hr0
      · rw [if_pos ‹_›]
        exact hdesign
      · rw [if_neg ‹_›]
        rwa [hx.evolves.hasKind (isSome_of_mem_connsOf hr0.mem)] at hn

end Exposes

namespace PutsPinNode

variable {source : Node} (h : PutsPinNode d source g g') (hg : g.Sound) (hd : g.isOutput d)
include h hg hd

/-- The new pin node reads the output. -/
theorem leaves : g'.Leaves d := by
  refine ⟨g.putIn, g.nextNode, ⟨?_, ?_, ?_⟩, hasKind_iff.mpr ⟨.pinNode, ?_, rfl⟩⟩
  · simp [h.connsOf]
  · simp [h.isSink, putOut_ne_putIn.symm]
  · simp [h.refsOf_putIn hg hd]
  · rw [h.kindOf?, if_pos rfl]

/-- What reads an old output afterwards read it before, or is the new pin node. -/
theorem read_before (ho : (g.conn? o).isSome) (hr : g'.ReadAt o c n) :
    g.ReadAt o c n ∧ o ≠ d ∨ o = d ∧ c = g.putIn ∧ n = g.nextNode := by
  by_cases hn : n = g.nextNode
  · have hc := hr.mem
    rw [h.connsOf, if_pos hn] at hc
    obtain rfl := h.eq_putIn_of_isSink hc hr.sink
    have hrefs := hr.refs
    rw [h.refsOf_putIn hg hd, mem_singleton] at hrefs
    exact .inr ⟨hrefs, rfl, hn⟩
  · have hc := hr.mem
    rw [h.connsOf, if_neg hn] at hc
    have hs := hr.sink
    rw [h.evolves.isSink (hg.conn_isSome hc)] at hs
    have hrefs := hr.refs
    rw [h.refsOf_sink hg hd hs] at hrefs
    split at hrefs
    · rw [mem_singleton.mp hrefs, conn?_putOut] at ho
      cases ho
    · rename_i hnot
      refine .inl ⟨⟨hc, hs, hrefs⟩, ?_⟩
      rintro rfl
      exact hnot (hg.mirror hrefs)

/-- What read an output reads it still, unless the new pin node does. -/
theorem read_after (hr : g.ReadAt o c n) : g'.ReadAt o c n ∨ o = d := by
  by_cases hc : c ∈ g.refsOf d
  · have hdo := (hg.refsOf_consumer hd hc).symm.trans (hr.refsOf_eq hg.toWired)
    exact .inr (singleton_inj.mp hdo).symm
  · refine .inl ⟨?_, h.isSink_old hr.sink, ?_⟩
    · rw [h.connsOf_of_isSome (isSome_of_mem_connsOf hr.mem)]
      exact hr.mem
    · rw [h.refsOf_sink hg hd hr.sink, if_neg hc]
      exact hr.refs

/-- The other outputs are read as before. -/
theorem readAt_iff (ho : (g.conn? o).isSome) (hne : o ≠ d) : g'.ReadAt o c n ↔ g.ReadAt o c n := by
  constructor
  · intro hr
    rcases h.read_before hg hd ho hr with ⟨hr, -⟩ | ⟨heq, -⟩
    · exact hr
    · exact absurd heq hne
  · intro hr
    exact (h.read_after hg hd hr).resolve_right hne

/-- A pin node may be put behind anything but a gate that is not live or has one reader only. -/
theorem keepsLogic (hlive : g.GateOutput d → g.Live d ∧ ¬ g.SoleAt d) : KeepsLogic g g' where
  evolves := h.evolves
  gates hn := h.connsOf_of_isSome (isSome_of_hasKind hn)
  onlyGates {n c} hn _ := by
    by_contra hnone
    by_cases hnn : n = g.nextNode
    · rw [hasKind, h.kindOf?, if_pos hnn] at hn
      cases hn
    · rw [hasKind, h.kindOf?, if_neg hnn] at hn
      exact hnone (isSome_of_hasKind hn)
  logic {o c n} ho hn hr := by
    rcases h.read_before hg hd ho.isSome hr with ⟨hr0, -⟩ | ⟨-, -, hnn⟩
    · exact hr0
    · have := isSome_of_hasKind hn
      rw [hnn, node?_nextNode] at this
      cases this
  kept {o c n} _ _ hr := by
    rcases h.read_after hg hd hr with hr' | rfl
    · exact .inl hr'
    · exact .inr (h.leaves hg hd)
  stays {o c n} ho hs _ hr := by
    -- an output with one reader gets no pin node
    refine (h.read_after hg hd hr).resolve_right ?_
    rintro rfl
    exact (hlive ho).2 hs
  leaves {o} _ := by
    rintro ⟨c, n, hr, hn⟩
    rcases h.read_after hg hd hr with hr' | rfl
    · exact ⟨c, n, hr', (h.evolves.hasKind (isSome_of_mem_connsOf hr.mem) _).trans hn⟩
    · exact h.leaves hg hd
  live {o} ho := by
    rintro ⟨c, n, hr, hn⟩
    rcases h.read_before hg hd ho.isSome hr with ⟨hr0, -⟩ | ⟨rfl, -, -⟩
    · rw [h.evolves.hasKind (isSome_of_mem_connsOf hr0.mem)] at hn
      exact .leaves ⟨c, n, hr0, hn⟩
    · exact (hlive ho).1
  sole {o} ho hs c c' n n' hr hr' := by
    rcases h.read_before hg hd ho.isSome hr with ⟨hr0, hne⟩ | ⟨heq, rfl, -⟩
    · rcases h.read_before hg hd ho.isSome hr' with ⟨hr0', -⟩ | ⟨heq, -⟩
      · exact hs hr0 hr0'
      · exact absurd heq hne
    · rcases h.read_before hg hd ho.isSome hr' with ⟨-, hne⟩ | ⟨-, rfl, -⟩
      · exact absurd heq hne
      · rfl

end PutsPinNode

/-! ## Forwarding pin nodes and latch controls -/

namespace Fuses

variable (hf : Fuses input output kept a b g g') (hw : Forwarded g input output a b) (hg : g.Raw K)
include hf hw hg

/-- What read another output than that of the pin node reads it still. The input of the pin node stands
on the node that takes its place. -/
theorem read_after (hr : g.ReadAt o c n) (hne : o ≠ output) : g'.ReadAt o c (if n = b then a else n) := by
  have hnot : c ∉ g.refsOf output := by
    intro hmem
    have hsole := hr.refs
    rw [hg.refsOf_eq_singleton hr.sink (hg.mirror hmem), mem_singleton] at hsole
    exact hne hsole
  have hci : c ≠ input := by
    rintro rfl
    exact hnot (hg.mirror (by simp [hw.refs]))
  have hmem : c ∈ g'.connsOf (if n = b then a else n) := by
    split
    · rename_i hnb
      subst hnb
      rw [hg.single (hasKind_of hw.kind rfl) hr.mem hf.kept_mem hr.sink
        (isSink_of_isInput hf.kept_isInput)]
      exact hf.kept_mem_target
    · rename_i hnb
      by_cases hna : n = a
      · subst hna
        exact hf.mem_target hr.mem hci
      · rw [hf.connsOf hna hnb]
        exact hr.mem
  rcases hf.refsOf with ⟨out, -, hrefs⟩
  refine ⟨hmem, hf.evolves.keeps_sink hr.sink, ?_⟩
  rw [hrefs hr.sink hmem, if_neg hnot]
  exact hr.refs

/-- What reads an output afterwards read it before, unless the output belongs to the node that takes the
place of the pin node. -/
theorem read_before (ho : o ∈ g.connsOf m) (hm : m ≠ a) (hr : g'.ReadAt o c n) :
    g.ReadAt o c n ∨ n = a ∧ g.ReadAt o c b := by
  rcases hf.isSink_before hg hw hr.mem hr.sink with ⟨hs, -⟩
  rcases hf.refsOf with ⟨out, hout, hrefs⟩
  have hro : o ∈ g.refsOf c := by
    have hro := hr.refs
    rw [hrefs hs hr.mem] at hro
    split at hro
    · -- the readers of the pin node read `a`
      rename_i hmem
      have hci : c ≠ input := fun heq => hf.input_not_mem n (heq ▸ hr.mem)
      rcases hout ⟨c, hmem, hci⟩ with ⟨hom, houtput⟩
      rw [← mem_singleton.mp hro] at hom houtput
      rcases hf.mem_connsOf hom with hoa | ⟨-, rfl | ⟨hnone, -⟩⟩
      · exact absurd (hg.eq_of_mem ho hoa) hm
      · have hin := isSink_of_isInput hf.kept_isInput
        rw [← hf.evolves.isSink (hg.conn_isSome ho), not_isSink_of_isOutput houtput] at hin
        cases hin
      · have hsome := hg.conn_isSome ho
        rw [hnone] at hsome
        cases hsome
    · exact hro
  rcases hf.mem_connsOf hr.mem with hc | ⟨rfl, rfl | ⟨-, hout⟩⟩
  · exact .inl ⟨hc, hs, hro⟩
  · exact .inr ⟨rfl, hf.kept_mem, hs, hro⟩
  · have hsink := hr.sink
    rw [not_isSink_of_isOutput hout] at hsink
    cases hsink

end Fuses

/-- The readers of an output that no dropped connection reads stay, and no others come. -/
theorem readAt_iff_of_frame (hg : g.Owned) (he : Evolves g g')
    (sub : ∀ {n c}, c ∈ g'.connsOf n → c ∈ g.connsOf n) (kept : ∀ {c n}, g.ReadAt o c n → c ∈ g'.connsOf n)
    (refs : ∀ {n c}, g.isSink c → c ∈ g'.connsOf n → g'.refsOf c = g.refsOf c) :
    g'.ReadAt o c n ↔ g.ReadAt o c n := by
  constructor
  · intro hr
    have hsink := hr.sink
    rw [he.isSink (hg.conn_isSome (sub hr.mem))] at hsink
    exact ⟨sub hr.mem, hsink, refs hsink hr.mem ▸ hr.refs⟩
  · intro hr
    have hc := kept hr
    exact ⟨hc, he.keeps_sink hr.sink, (refs hr.sink hc).symm ▸ hr.refs⟩

namespace Trims

variable (ht : Trims g g') (hg : g.Raw K) (hread : g.PinNodesRead)
include ht hg hread

/-- A node that is no constant, pin or pin node keeps its connections, unless it is a latch that loses
an idle control. -/
theorem connsOf_cases (hn : g.hasKind isNamed n = false) (hk : g.kindOf? n ≠ some .constant) :
    g'.connsOf n = g.connsOf n ∨
      ∃ c, g.isSink c ∧ g.IdleControl n c ∧ g'.connsOf n = (g.connsOf n).filter (· ≠ c) := by
  cases ht with
  | fuse hw hf =>
    refine .inl (hf.connsOf ?_ ?_)
    · rintro rfl
      rw [hw.named] at hn
      cases hn
    · rintro rfl
      rw [hasKind, hw.kind] at hn
      cases hn
  | @drop m c hc hs hi hd =>
    rw [connsOf_detached hd]
    by_cases hnm : n = m
    · subst hnm
      exact .inr ⟨c, hs, hi, rfl⟩
    · exact .inl (hg.filter_conns_of_ne hc hnm)
  | retire hkc _ hr =>
    refine .inl ?_
    rw [connsOf_retired hr, if_neg]
    rintro rfl
    exact hk hkc
  | rebuild hr =>
    rw [hread.rebuildTop hg.toTidy] at hr
    cases hr
    exact .inl rfl

variable (ho : o ∈ g.connsOf m) (hk : g.kindOf? m ≠ some .constant)
include ho hk

/-- What reads an output that is no constant is the same before and after, unless a pin node leaves its
place to a pin or another pin node. -/
theorem frame_or_fuse : (∀ {c n}, g'.ReadAt o c n ↔ g.ReadAt o c n) ∨ ∃ input output kept a b,
      Forwarded g input output a b ∧ Fuses input output kept a b g g' := by
  cases ht with
  | @fuse input output kept a b hw hf => exact .inr ⟨input, output, kept, a, b, hw, hf⟩
  | @drop l e he hs hi hd =>
    -- the control reads a constant
    refine .inl fun {c n} => readAt_iff_of_frame hg.toOwned (evolves_detached hd) (fun {l x} hx => ?_)
      (fun {x l} hr => ?_) fun {l x} hx hmem => ?_
    · rw [connsOf_detached hd] at hx
      exact (mem_filter.mp hx).1
    · rw [connsOf_detached hd, mem_filter]
      refine ⟨hr.mem, decide_eq_true ?_⟩
      rintro rfl
      rcases hi.driver with ⟨d, m', hd, hm', hkm, -⟩
      have hrefs := hr.refs
      rw [hd, mem_singleton] at hrefs
      subst hrefs
      exact hk (hg.eq_of_mem ho hm' ▸ hkm)
    · refine refsOf_detached_sink hd hs hg.toSound hx ?_
      rintro rfl
      rw [connsOf_detached hd, mem_filter] at hmem
      exact of_decide_eq_true hmem.2 rfl
  | @retire l hkl hun hr =>
    -- a constant has no input
    have hsilent := (hg.regular (hasKind_of hkl (by simp))).silent hkl
    refine .inl fun {c n} => readAt_iff_of_frame hg.toOwned (evolves_retired hr) (fun {l x} hx => ?_)
      (fun {x l'} hread => ?_) fun {l x} hx hmem => ?_
    · rw [connsOf_retired hr] at hx
      split at hx
      · cases hx
      · exact hx
    · rw [connsOf_retired hr, if_neg]
      · exact hread.mem
      · rintro rfl
        have hs := hread.sink
        rw [hsilent hread.mem] at hs
        cases hs
    · rw [connsOf_retired hr] at hmem
      split at hmem
      · cases hmem
      · rename_i hmn
        exact hun.refsOf_retired hr hg.toSound hmem hmn hx
  | rebuild hr =>
    rw [hread.rebuildTop hg.toTidy] at hr
    cases hr
    exact .inl ⟨fun hr => ⟨hr.mem, hr.sink, hr.refs⟩, fun hr => ⟨hr.mem, hr.sink, hr.refs⟩⟩

/-- In this case the input of the pin node stands on the node that takes its place. -/
theorem read_cases (hm : g.hasKind isNamed m = false) :
    (∀ {c n}, g'.ReadAt o c n ↔ g.ReadAt o c n) ∨ ∃ a b, g.hasKind isNamed a ∧
      g.kindOf? b = some .pinNode ∧ (∀ {c n}, g.ReadAt o c n → g'.ReadAt o c (if n = b then a else n)) ∧
      ∀ {c n}, g'.ReadAt o c n → g.ReadAt o c n ∨ n = a ∧ g.ReadAt o c b := by
  rcases ht.frame_or_fuse hg hread ho hk with hiff | ⟨input, output, kept, a, b, hw, hf⟩
  · exact .inl hiff
  · refine .inr ⟨a, b, hw.named, hw.kind, fun hr => hf.read_after hw hg hr ?_, hf.read_before hw hg ho ?_⟩
    · rintro rfl
      rw [hg.eq_of_mem ho hw.mem_output, hasKind, hw.kind] at hm
      cases hm
    · rintro rfl
      rw [hw.named] at hm
      cases hm

omit ho hk

/-- So the gates and what is read outside of the logic stay. -/
theorem keepsLogic : KeepsLogic g g' := by
  have hkind : ∀ {P : NodeKind → Bool} {n}, g'.hasKind P n = g.hasKind P n :=
    hasKind_congr (ht.kindOf? hg.toTidy)
  have hinner : ∀ {n}, g.hasKind NodeKind.isCombinational n →
      g.hasKind isNamed n = false ∧ g.kindOf? n ≠ some .constant := by
    intro n hn
    rcases hasKind_iff.mp hn with ⟨k, hk, hp⟩
    rw [hasKind, hk]
    cases k with
    | gate | inverter => exact ⟨rfl, by simp⟩
    | _ => cases hp
  refine .of_readers id (ht.evolves hg.toTidy) (fun {n} hn => ?_) (fun {n c} hn _ => ?_)
    (fun {o c n} ho hr => ?_) fun {o c n} ho hr => ?_
  · rcases ht.connsOf_cases hg hread (hinner hn).1 (hinner hn).2 with heq | ⟨c, -, hi, -⟩
    · exact heq
    · rw [hasKind, hi.latch] at hn
      cases hn
  · rw [hkind] at hn
    exact isSome_of_hasKind hn
  · rcases ho with ⟨m, hm, hom, -⟩
    rcases ht.read_cases hg hread hom (hinner hm).2 (hinner hm).1 with hiff | ⟨a, b, ha, hb, hafter, -⟩
    · exact ⟨n, hiff.mpr hr, fun _ => ⟨rfl, rfl⟩, fun hn => hkind.trans hn⟩
    · refine ⟨_, hafter hr, fun hn => ⟨rfl, if_neg ?_⟩, fun hn => hkind.trans ?_⟩
      · rintro rfl
        rw [hasKind, hb] at hn
        cases hn
      · split
        · exact isBoundary_of_isNamed ha
        · exact hn
  · rcases ho with ⟨m, hm, hom, -⟩
    rcases ht.read_cases hg hread hom (hinner hm).2 (hinner hm).1 with hiff | ⟨a, b, ha, hb, -, hbefore⟩
    · exact ⟨c, n, hiff.mp hr, rfl, fun _ => ⟨rfl, rfl⟩, fun hn => hkind.symm.trans hn⟩
    · rcases hbefore hr with hr0 | ⟨rfl, hr0⟩
      · exact ⟨c, n, hr0, rfl, fun _ => ⟨rfl, rfl⟩, fun hn => hkind.symm.trans hn⟩
      · refine ⟨c, b, hr0, rfl, fun hn => ?_, fun _ => hasKind_of hb rfl⟩
        rw [hkind, not_isCombinational_of_isBoundary (isBoundary_of_isNamed ha)] at hn
        cases hn

end Trims

/-! ## Takeovers -/

/-- Where what an input of the cell read is read afterwards. -/
def Takeover.place (s : Takeover) (c : ConnId) : ConnId :=
  if c ∈ s.moved then c else s.slot

namespace Takeover.Applies

variable (ha : s.Applies g g') (hg : g.Sound)
include ha hg

omit hg in
/-- The node of a gate is neither the cell nor the target. -/
theorem gate_ne (hn : g.hasKind NodeKind.isCombinational n) : n ≠ s.cell ∧ n ≠ s.target := by
  constructor <;> rintro rfl
  · rw [not_isCombinational_of_isBoundary (isBoundary_of_isSequential ha.cell_kind)] at hn
    cases hn
  · rw [not_isCombinational_of_isBoundary (isBoundary_of_isNamed ha.seat.named)] at hn
    cases hn

theorem gate_ne_output (ho : g.GateOutput o) : o ≠ s.output := by
  rintro rfl
  exact ho.not_mem hg.toOwned
    (not_isCombinational_of_isBoundary (isBoundary_of_isSequential ha.cell_kind)) ha.output_mem

/-- What reads an output afterwards at another place than the slot read it before, unless the output
belongs to the target. -/
theorem read_before_of_ne (hd : d ∈ g.connsOf m) (hm : m ≠ s.target) (hs : g.isSink c)
    (hslot : c ≠ s.slot) (hmem : c ∈ g'.connsOf n) (hr : d ∈ g'.refsOf c) : d ∈ g.refsOf c := by
  by_cases hcell : c ∈ g.refsOf s.output
  · by_cases hmv : c ∈ s.moved
    · rw [ha.loop hmv hcell] at hr
      cases hr
    · -- it reads the target now
      rcases ha.consumer hcell hslot hmv hmem with ⟨out, hout, houtput, hrefs⟩
      rw [hrefs, mem_singleton] at hr
      subst hr
      rcases ha.mem_target hout with hkept | hmoved | ⟨hnone, -⟩
      · exact absurd (hg.eq_of_mem hd (ha.kept_sub hkept)) hm
      · have hsink := isSink_of_isInput (ha.isInput hmoved).2
        rw [← ha.evolves.isSink (isSome_of_isSink hsink), not_isSink_of_isOutput houtput] at hsink
        cases hsink
      · have hsome := hg.conn_isSome hd
        rw [hnone] at hsome
        cases hsome
  · rw [ha.frame hs hslot hcell hmem] at hr
    exact (mem_filter.mp hr).1

section Readers

variable (hlone : g.LoneAt s.cell)
  (left : ∀ {c d}, c ∈ g.connsOf s.cell → g.isSink c → c ∉ s.moved → g.refsOf c = [d] →
    d ≠ s.output → s.slot ∈ g'.connsOf s.target ∧ g'.refsOf s.slot = [d])
  (slot : ∀ {d}, s.slot ∈ g'.connsOf s.target → d ∈ g'.refsOf s.slot →
    ∃ c ∈ g.connsOf s.cell, g.isSink c ∧ c ∉ s.moved ∧ d ∈ g.refsOf c)

omit hg in
theorem isSink_after (hs : g.isSink c) : g'.isSink c :=
  ha.evolves.keeps_sink hs

include hlone in
/-- What does not belong to the cell reads what it read. -/
theorem read_other (hr : g.ReadAt d c n) (hn : n ≠ s.cell) (hne : d ≠ s.output) : g'.ReadAt d c n := by
  have hrefs := hr.refsOf_eq hg.toWired
  have hslot : c ≠ s.slot := by
    rintro rfl
    exact hne (singleton_inj.mp (hrefs.symm.trans ha.seat.refs))
  rcases ha.other hg hlone hr.mem hn hr.sink hslot hrefs with ⟨hmem, e, he, ⟨-, rfl⟩ | ⟨heq, -⟩⟩
  · exact ⟨hmem, ha.isSink_after hr.sink, by simp [he]⟩
  · exact absurd heq hne

include hlone left in
/-- What an input of the cell read is read on the target. -/
theorem read_own (hr : g.ReadAt d c s.cell) (hne : d ≠ s.output) : g'.ReadAt d (s.place c) s.target := by
  have hrefs := hr.refsOf_eq hg.toWired
  unfold Takeover.place
  split
  · rename_i hmv
    rcases ha.own hg hlone hmv hrefs with ⟨hmem, ⟨heq, -⟩ | ⟨-, hd⟩⟩
    · exact absurd heq hne
    · exact ⟨hmem, ha.isSink_after hr.sink, by simp [hd]⟩
  · rename_i hmv
    rcases left hr.mem hr.sink hmv hrefs hne with ⟨hmem, hd⟩
    exact ⟨hmem, ha.isSink_after ha.seat.sink, by simp [hd]⟩

include slot in
/-- What is read afterwards was read at the same place, or an input of the cell read it. -/
theorem read_origin (hd : d ∈ g.connsOf m) (hm : m ≠ s.target) (hr : g'.ReadAt d c n) :
    n ≠ s.cell ∧ (g.ReadAt d c n ∨ n = s.target ∧ ∃ c0, g.ReadAt d c0 s.cell ∧ s.place c0 = c) := by
  have hnc : n ≠ s.cell := by
    rintro rfl
    have hc := hr.mem
    rw [ha.connsOf_cell] at hc
    cases hc
  refine ⟨hnc, ?_⟩
  -- a connection that was not on the cell before
  have hframe : c ∈ g.connsOf n → c ≠ s.slot → g.ReadAt d c n := by
    intro hc hslot
    have hs := hr.sink
    rw [ha.evolves.isSink (hg.conn_isSome hc)] at hs
    exact ⟨hc, hs, ha.read_before_of_ne hg hd hm hs hslot hr.mem hr.refs⟩
  by_cases hnt : n = s.target
  · subst hnt
    by_cases hslot : c = s.slot
    · subst hslot
      rcases slot hr.mem hr.refs with ⟨c0, hc0, hs0, hmv, hd0⟩
      exact .inr ⟨rfl, c0, ⟨hc0, hs0, hd0⟩, if_neg hmv⟩
    rcases ha.mem_target hr.mem with hc | hc | ⟨-, hout, -⟩
    · exact .inl (hframe (ha.kept_sub hc) hslot)
    · rcases ha.isInput hc with ⟨hmem, hin⟩
      have hs := isSink_of_isInput hin
      exact .inr ⟨rfl, c, ⟨hmem, hs, ha.read_before_of_ne hg hd hm hs hslot hr.mem hr.refs⟩, if_pos hc⟩
    · have hs := hr.sink
      rw [not_isSink_of_isOutput hout] at hs
      cases hs
  · have hc := hr.mem
    rw [ha.connsOf_of_ne hnc hnt] at hc
    refine .inl (hframe hc ?_)
    rintro rfl
    exact hnt (hg.eq_of_mem hc ha.seat.mem)

include hlone left slot in
/-- The inputs of the cell stand on the target afterwards, and what drove an input that was not moved
drives the slot. So every reader of a gate has its counterpart. -/
theorem keepsLogic : KeepsLogic g g' := by
  classical
  have hcell := isBoundary_of_isSequential ha.cell_kind
  have hkind : ∀ {P : NodeKind → Bool} {n}, g'.hasKind P n = g.hasKind P n :=
    hasKind_congr (ha.kindOf? _)
  have htarget : g'.hasKind isBoundary s.target :=
    hkind.trans (isBoundary_of_isNamed ha.seat.named)
  have hnot : g.hasKind NodeKind.isCombinational s.cell = false := not_isCombinational_of_isBoundary hcell
  refine .of_readers (fun c => if c ∈ g.connsOf s.cell then s.place c else c) ha.evolves
    (fun {n} hn => ha.connsOf_of_ne (ha.gate_ne hn).1 (ha.gate_ne hn).2) (fun {n c} hn _ => ?_)
    (fun {o c n} ho hr => ?_) fun {o c n} ho hr => ?_
  · rw [hkind] at hn
    exact isSome_of_hasKind hn
  · have hne := ha.gate_ne_output hg ho
    by_cases hn : n = s.cell
    · subst hn
      rw [if_pos hr.mem]
      exact ⟨s.target, ha.read_own hg hlone left hr hne, fun hn => absurd (hnot.symm.trans hn) nofun,
        fun _ => htarget⟩
    · rw [if_neg fun hc => hn (hg.eq_of_mem hr.mem hc)]
      exact ⟨n, ha.read_other hg hlone hr hn hne, fun _ => ⟨rfl, rfl⟩, fun hk => hkind.trans hk⟩
  · rcases ho with ⟨m, hm, hom, -⟩
    rcases ha.read_origin hg slot hom (ha.gate_ne hm).2 hr with ⟨hnc, hr0 | ⟨rfl, c0, hr0, rfl⟩⟩
    · exact ⟨c, n, hr0, if_neg fun hc => hnc (hg.eq_of_mem hr0.mem hc), fun _ => ⟨rfl, rfl⟩,
        fun hk => hkind.symm.trans hk⟩
    · exact ⟨c0, s.cell, hr0, if_pos hr0.mem,
        fun hn => absurd ((not_isCombinational_of_isBoundary htarget).symm.trans hn) nofun, fun _ => hcell⟩

end Readers

end Takeover.Applies

namespace TakesOver

variable (ht : TakesOver s g g1 g2 g') (hg : g.Poised K)
  (hK : ∀ k, k.isSequential → K k)
include ht hg

include hK in
/-- An input of the cell that is not moved is the data of a buffer, and leaves its driver to the slot. -/
theorem left_to_slot (hc : c ∈ g1.connsOf s.cell) (hs : g1.isSink c) (hmv : c ∉ s.moved)
    (hd : g1.refsOf c = [d]) (hne : d ≠ s.output) :
    s.slot ∈ g2.connsOf s.target ∧ g2.refsOf s.slot = [d] := by
  have hg1 := ht.poised1 hg
  have hin := hg1.oneWay hK ht.applies.cell_kind hc hs
  rcases ht.moved_or_data hc hin with hmv' | ⟨hk, hdata⟩
  · exact absurd hmv' hmv
  · have hk1 : g1.kindOf? s.cell = some .triState :=
      (ht.seats.evolves.kind (isSome_of_mem_connsOf ht.mem)).trans hk
    cases ht.role with
    | register hreg =>
      rw [hasKind, hk] at hreg
      cases hreg
    | buffer _ _ hbuf =>
      rcases ht.applies.data hg1.toSound (ht.regularAt1 hg hK).lone hbuf (hg1.data hk1) hc hin hdata hd with
        ⟨hmem, ⟨heq, -⟩ | ⟨-, hrefs⟩⟩
      · exact absurd heq hne
      · exact ⟨hmem, hrefs⟩

omit hg in
/-- What drives the slot afterwards drove an input of the cell. -/
theorem slot_source (hmem : s.slot ∈ g2.connsOf s.target) (hd : d ∈ g2.refsOf s.slot) :
    ∃ c ∈ g1.connsOf s.cell, g1.isSink c ∧ c ∉ s.moved ∧ d ∈ g1.refsOf c := by
  rw [ht.applies.slot_refs hmem] at hd
  have hsource := (mem_filter.mp hd).1
  cases ht.role with
  | register _ _ hs =>
    rw [hs] at hsource
    cases hsource
  | buffer _ _ hs =>
    rw [hs] at hsource
    rcases mem_flatMap.mp hsource with ⟨c, hc, hdc⟩
    rcases mem_filter.mp hc with ⟨hc, hdata⟩
    rw [Bool.and_eq_true] at hdata
    refine ⟨c, hc, isSink_of_isInput hdata.1, fun hmv => ?_, hdc⟩
    rw [hs] at hmv
    have hmv := (mem_filter.mp hmv).2
    simp [hdata.2] at hmv

include hK in
/-- A takeover keeps the logic. -/
theorem keepsLogic (hread : g.PinNodesRead) : KeepsLogic g g' := by
  have hg1 := ht.poised1 hg
  have hseats : KeepsLogic g g1 := by
    have hcell := isBoundary_of_isSequential ht.hasKind_cell
    have hout := ht.isOutput
    have hmem := ht.mem
    have hs := ht.seats
    generalize s.target = t, s.slot = slot, s.output = o at hs hout hmem
    cases hs with
    | existing => exact keepsLogic_setTop g.top
    | fresh hp =>
      refine hp.keepsLogic hg.toSound hout fun ho => ?_
      exact absurd hmem (ho.not_mem hg.toOwned (not_isCombinational_of_isBoundary hcell))
  have happlies : KeepsLogic g1 g2 :=
    ht.applies.keepsLogic hg1.toSound (ht.regularAt1 hg hK).lone (ht.left_to_slot hg hK) ht.slot_source
  have hrebuilt : KeepsLogic g2 g' :=
    (ht.pinNodesRead hg hK hread).keepsLogic (ht.poised2 hg).toTidy ht.rebuilt
  exact hseats.trans hg.toOwned (happlies.trans hg1.toOwned hrebuilt)

section

variable (hread : g.PinNodesRead)
include hK hread

/-- Since every pin node is read, nothing goes when the list of equations is brought up to date. -/
theorem exists_rebuilt : ∃ l, g' = { g2 with top := l } := by
  have hrun := ht.rebuilt
  rw [(ht.pinNodesRead hg hK hread).rebuildTop (ht.poised2 hg).toTidy] at hrun
  exact ⟨_, (Except.ok.inj hrun).symm⟩

/-- A node that is neither the cell nor the target stays driven: what reads the cell reads the target
instead. -/
theorem stays_driven (hcell : n ≠ s.cell) (htarget : n ≠ s.target) (hc : c ∈ g.connsOf n)
    (hs : g.isSink c) (hd : g.refsOf c = [d]) : c ∈ g'.connsOf n ∧ ∃ e, g'.refsOf c = [e] := by
  have hg1 := ht.poised1 hg
  -- a new pin node for the cell may come in between
  have hd1 : ∃ d1, g1.refsOf c = [d1] := by
    have hout := ht.isOutput
    have hseats := ht.seats
    generalize s.target = t, s.slot = slot, s.output = o at hseats hout
    cases hseats with
    | existing => exact ⟨d, hd⟩
    | fresh hp =>
      rcases hp.answers hg.toSound hout hs hd with ⟨d1, hd1, -⟩
      exact ⟨d1, hd1⟩
  rcases hd1 with ⟨d1, hd1⟩
  have hc1 : c ∈ g1.connsOf n := by rwa [ht.connsOf1 (isSome_of_mem_connsOf hc)]
  have hs1 := ht.seats.evolves.keeps_sink hs
  have hslot : c ≠ s.slot := by
    rintro rfl
    exact htarget (hg1.eq_of_mem hc1 ht.applies.seat.mem)
  rcases ht.applies.other hg1.toSound (ht.regularAt1 hg hK).lone hc1 hcell hs1 hslot hd1 with
    ⟨hmem, e, he, -⟩
  rcases ht.exists_rebuilt hg hK hread with ⟨l, rfl⟩
  exact ⟨hmem, e, he⟩

theorem gatesDriven (hd : g.GatesDriven) : g'.GatesDriven := by
  intro n c hn hc hs
  have hkeeps := ht.keepsLogic hg hK hread
  have hn0 := hkeeps.isCombinational hn hc
  rw [hkeeps.gates hn0] at hc
  rw [hkeeps.evolves.isSink (hg.conn_isSome hc)] at hs
  rcases hd hn0 hc hs with ⟨d, hrefs⟩
  have hn1 := (ht.seats.evolves.hasKind (isSome_of_mem_connsOf hc) _).trans hn0
  rcases ht.applies.gate_ne hn1 with ⟨hcell, htarget⟩
  exact (ht.stays_driven hg hK hread hcell htarget hc hs hrefs).2

end

end TakesOver

/-! ## The second and third pass -/

theorem KeepsLogic.refl : KeepsLogic g g :=
  keepsLogic_setTop g.top

theorem keepsLogic_simplify (hh : Layered K g g1) (hrun : g1.simplify = .ok r) : KeepsLogic g1 r.2 := by
  refine (simplify_invariant (P := fun h => Layered K g h ∧ KeepsLogic g1 h)
    (fun hs => ⟨hs.1.toRaw, hs.1.anchored.selfless⟩) ?_ ⟨hh, .refl⟩ hrun).1.2
  rintro h h' ⟨hlayered, hkeeps⟩ ht
  exact ⟨ht.layered hlayered, hkeeps.trans hh.toOwned (ht.keepsLogic hlayered.toRaw hlayered.read)⟩

/-- What one takeover keeps while all pin nodes are read, the third pass keeps, as long as no reader is
lost with a bidirectional connection. -/
theorem collapse_keeps_of_oneWay {P : Network → Prop} (hg : g.Poised K) (hone : g.OneWay)
    (hread : g.PinNodesRead) (hP : P g)
    (keeps : ∀ {u h h1 h2 h'}, h.Poised K → h.PinNodesRead → P h → TakesOver u h h1 h2 h' → P h')
    (hrun : g.collapse = .ok r) : r.2.Poised K ∧ r.2.PinNodesRead ∧ P r.2 := by
  have hstep : ∀ {u h h1 h2 h'}, h.Poised K → h.OneWay ∧ h.PinNodesRead ∧ P h →
      TakesOver u h h1 h2 h' → h'.OneWay ∧ h'.PinNodesRead ∧ P h' := by
    rintro u h h1 h2 h' hh ⟨hone, hread, hP⟩ ht
    have hread2 := ht.pinNodesRead_of_oneWay hh hone hread
    exact ⟨ht.oneWay hh hone, hread2.rebuilt (ht.poised2 hh).toTidy ht.rebuilt, keeps hh hread hP ht⟩
  rcases collapse_keeps hg ⟨hone, hread, hP⟩
    (fun hh hP _ ht => hstep hh hP ht) id (fun hh hP _ ht => hstep hh hP ht) hrun with
    ⟨hpoised, -, -, hread', hP'⟩
  exact ⟨hpoised, hread', hP'⟩

theorem collapse_keeps_of_read {P : Network → Prop} (hg : g.Poised K)
    (hK : ∀ k, k.isSequential → K k) (hread : g.PinNodesRead) (hP : P g)
    (keeps : ∀ {u h h1 h2 h'}, h.Poised K → h.PinNodesRead → P h → TakesOver u h h1 h2 h' → P h')
    (hrun : g.collapse = .ok r) : r.2.Poised K ∧ r.2.PinNodesRead ∧ P r.2 :=
  collapse_keeps_of_oneWay hg (hg.oneWay hK) hread hP keeps hrun

/-- The takeovers keep what is live, and gates stay driven. -/
theorem keepsLogic_collapse (hg : g.Poised K) (hK : ∀ k, k.isSequential → K k) (hread : g.PinNodesRead)
    (hrun : g.collapse = .ok r) : KeepsLogic g r.2 ∧ (g.GatesDriven → r.2.GatesDriven) := by
  refine (collapse_keeps_of_read (P := fun h => KeepsLogic g h ∧ (g.GatesDriven → h.GatesDriven)) hg hK
    hread ⟨.refl, id⟩ ?_ hrun).2.2
  rintro u h h1 h2 h' hh hread ⟨hkeeps, hdriven⟩ ht
  exact ⟨hkeeps.trans hg.toOwned (ht.keepsLogic hh hK hread),
    fun hd => ht.gatesDriven hh hK hread (hdriven hd)⟩

end PldSynth.Network
