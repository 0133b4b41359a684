import PldSynth.Proofs.Compile.Declarations
import PldSynth.Proofs.Equation.Solution
import PldSynth.Proofs.Network.Liveness
import PldSynth.Proofs.Network.Provenance

/-!
# Left-hand sides

The inputs that a pin or pin node has taken over from a register or a buffer are written behind its
name, such as `q.CK` or `bus.OE`, and its own input is written as the name alone. Which is which is read
off the name of the input: one that is named like its node counts as the node's own.
`Design.suffixed_iff` says when this tells them apart, and `Design.drivenEnable` is a design where it
does not.
-/

namespace PldSynth

open Attempt

open PldSynth.NodeKind (isNamed isSequential)
open List

namespace Network

variable {g g' g3 h : Network} {n t : NodeId} {c c' : ConnId} {s p : String}

/-! ## The name of an equation -/

/-- What is written on the left of an equation. -/
theorem equationName_eq {k : NodeKind} (hown : g.ownerOf? c = some t) (hk : g.kindOf? t = some k)
    (hs : g.nodeNameOf? t = some s) (hp : g.connNameOf? c = some p) :
    g.equationName c = .ok (if k = .design then p
      else if k.isNamed = true ∧ p ∈ [pinNodeInput, pinNodeOutput, s] then s else s ++ "." ++ p) := by
  rw [connNameOf?, Option.map_eq_some_iff] at hp
  rcases hp with ⟨x, hx, rfl⟩
  obtain rfl : x.owner = t := by simpa [ownerOf?_def, hx] using hown
  rw [nodeNameOf?, Option.map_eq_some_iff] at hs
  rcases hs with ⟨y, hy, rfl⟩
  rw [kindOf?_def, hy] at hk
  obtain rfl := Option.some.inj hk
  rw [equationName, conn_eq_ok.mpr hx, ok_bind, node_eq_ok.mpr hy, ok_bind]
  have hmem : x.name ∈ [pinNodeInput, pinNodeOutput, y.name] ↔
      (x.name = pinNodeInput || x.name = pinNodeOutput || x.name = y.name) := by
    simp [or_assoc]
  simp only [hmem]
  cases y.kind <;> first | rfl | (simp only [isNamed, true_and]; split <;> rfl)

/-- What is written for the connection `p` of a pin or pin node `s`. -/
theorem equationName_of_isNamed (hown : g.ownerOf? c = some t) (hk : g.hasKind isNamed t)
    (hs : g.nodeNameOf? t = some s) (hp : g.connNameOf? c = some p) :
    g.equationName c = .ok (if p ∈ [pinNodeInput, pinNodeOutput, s] then s else s ++ "." ++ p) := by
  rcases hasKind_iff.mp hk with ⟨k, hk, hnamed⟩
  have hne : k ≠ .design := by
    rintro rfl
    cases hnamed
  rw [equationName_eq hown hk hs hp, if_neg hne]
  simp only [hnamed, true_and]

/-- What is written for the connection `p` of a register or buffer `s`. -/
theorem equationName_of_isSequential (hown : g.ownerOf? c = some t)
    (hk : g.hasKind isSequential t) (hs : g.nodeNameOf? t = some s)
    (hp : g.connNameOf? c = some p) : g.equationName c = .ok (s ++ "." ++ p) := by
  have hnamed := not_isNamed_of_isSequential hk
  rcases hasKind_iff.mp hk with ⟨k, hk, hseq⟩
  have hne : k ≠ .design := by
    rintro rfl
    cases hseq
  rw [hasKind, hk, Option.any_some] at hnamed
  rw [equationName_eq hown hk hs hp, if_neg hne, hnamed, if_neg fun hcond => Bool.false_ne_true hcond.1]

/-- What is written for the input `p` of a register or buffer on a pin or pin node whose name was `s`
until the names were cleaned. -/
def leftSide (s p : String) : String :=
  if p ∈ [pinNodeInput, pinNodeOutput, s, Text.identifier s] then Text.identifier s
  else Text.identifier s ++ "." ++ p

/-! ## The network at the end -/

/-- What the passes leave of `g`, where `h` is the network before the names were cleaned and `g'` the one
after. -/
structure Lettered (g h g' : Network) : Prop where
  checked : g'.Checked
  owner : ∀ {t c}, t ∈ g'.equationOwners → c ∈ g'.connsOf t → g'.ownerOf? c = some t
  name : ∀ {t}, t ∈ g'.pins ++ g'.pinNodes →
    ∃ s, h.nodeNameOf? t = some s ∧ g'.nodeNameOf? t = some (Text.identifier s)
  isInput : ∀ {n c p}, g.IsPort n c p → g'.isInput c = true
  port : ∀ {n t c s p}, g.IsPort n c p → t ∈ g'.pins ++ g'.pinNodes → c ∈ g'.connsOf t →
    h.nodeNameOf? t = some s → g'.equationName c = .ok (leftSide s p)
  own : ∀ {t c s}, t ∈ g'.pins ++ g'.pinNodes → c ∈ g'.connsOf t → g'.isSink c = true →
    ¬ g.FromCell c → h.nodeNameOf? t = some s → g'.equationName c = .ok (Text.identifier s)
  single : ∀ {t c c'}, t ∈ g'.pins ++ g'.pinNodes → c ∈ g'.connsOf t → c' ∈ g'.connsOf t →
    g'.isSink c = true → g'.isSink c' = true → ¬ g.FromCell c → ¬ g.FromCell c' → c = c'
  cell : ∀ {t c}, g'.hasKind isSequential t = true → c ∈ g'.connsOf t →
    g.hasKind isSequential t = true ∧ c ∈ g.connsOf t ∧ ∃ s p, g'.nodeNameOf? t = some s ∧
      g.connNameOf? c = some p ∧ g'.equationName c = .ok (s ++ "." ++ p)

theorem Relabels.checked (hr : Relabels h g') (hh : h.Checked) : g'.Checked where
  top := hr.collected hh.top
  source {n c d} hn hc hi hd := by
    have hal := hr.alike
    rw [hal.pins, hal.pinNodes] at hn
    rw [hal.connsOf] at hc
    rw [isInput_congr (hal.directionOf? c)] at hi
    rw [hal.refsOf] at hd
    rw [isSource, hal.directionOf?]
    exact hh.source hn hc hi hd

section Cleaning

variable (hg : g.Owned) (ht : Traced g g3) (h3 : g3.Owned) (hkeeps : KeepsNames g3 h)
  (hclean : h.cleanNames = .ok g')
include h3 hkeeps

/-- The pins and pin nodes were there before logic was copied. -/
theorem isNamed_of_keepsNames (hn : t ∈ h.pins ++ h.pinNodes) : g3.hasKind isNamed t := by
  rw [hkeeps.pins] at hn
  exact h3.isNamed_of_mem (((List.Sublist.refl g3.pins).append hkeeps.pinNodes).subset hn)

theorem mem_of_keepsNames (hn : t ∈ h.pins ++ h.pinNodes) (hc : c ∈ h.connsOf t) : c ∈ g3.connsOf t :=
  hkeeps.conns (isSome_of_hasKind (isNamed_of_keepsNames h3 hkeeps hn)) hc

omit h3 in
/-- So were registers and buffers. -/
theorem isSequential_of_keepsNames (hk : h.hasKind isSequential t) : g3.hasKind isSequential t := by
  cases hnode : g3.node? t with
  | none =>
    have hnot := hkeeps.new hnode
    rw [isBoundary_of_isSequential hk] at hnot
    cases hnot
  | some x =>
    rwa [hasKind, hkeeps.kind (by simp [hnode])] at hk

include hclean

theorem owner_of_cleanNames (hn : (g3.node? t).isSome) (hc : c ∈ g'.connsOf t) :
    c ∈ g3.connsOf t ∧ g'.ownerOf? c = some t := by
  have hal := (relabels_cleanNames hclean).alike
  rw [hal.connsOf] at hc
  have hmem := hkeeps.conns hn hc
  refine ⟨hmem, ?_⟩
  rw [hal.ownerOf?, (hkeeps.label (h3.conn_isSome hmem)).owner]
  exact h3.owner hmem

/-- The name of a connection on a pin or pin node `s` is `p` still, unless it was that of the node. -/
theorem equationName_of_cleanNames (hn : t ∈ h.pins ++ h.pinNodes) (hc : c ∈ g'.connsOf t)
    (hs : h.nodeNameOf? t = some s) (hp : g3.connNameOf? c = some p) :
    g'.equationName c = .ok (leftSide s p) := by
  have hal := (relabels_cleanNames hclean).alike
  have hnamed := isNamed_of_keepsNames h3 hkeeps hn
  have hsome := isSome_of_hasKind hnamed
  rcases owner_of_cleanNames h3 hkeeps hclean hsome hc with ⟨hmem, hown⟩
  have hk' : g'.hasKind isNamed t := by
    rw [hasKind, hal.kindOf?, hkeeps.kind hsome]
    exact hnamed
  have hs' : g'.nodeNameOf? t = some (Text.identifier s) := by
    rw [nodeNameOf?_cleanNames hclean hn, hs]
    rfl
  have hp' := connNameOf?_cleanNames hclean hn (hal.connsOf t ▸ hc) fun m hm hcm =>
    h3.eq_of_mem (mem_of_keepsNames h3 hkeeps hm hcm) hmem
  rw [(hkeeps.label (h3.conn_isSome hmem)).name, hp, hs] at hp'
  by_cases hsame : p = s
  · -- the input is renamed with its node
    rw [if_pos (congrArg some hsame)] at hp'
    rw [equationName_of_isNamed hown hk' hs' hp', leftSide, if_pos (by simp [hsame]),
      if_pos (by simp [hsame])]
  · rw [if_neg fun heq => hsame (Option.some.inj heq)] at hp'
    rw [equationName_of_isNamed hown hk' hs' hp', leftSide]
    have hmem : p ∈ [pinNodeInput, pinNodeOutput, s, Text.identifier s] ↔
        p ∈ [pinNodeInput, pinNodeOutput, Text.identifier s] := by simp [hsame]
    simp only [hmem]

omit h3 in
theorem direction_of_cleanNames (hc : (g3.conn? c).isSome) : g'.directionOf? c = g3.directionOf? c := by
  rw [(relabels_cleanNames hclean).alike.directionOf?, (hkeeps.label hc).direction]

include hg ht

/-- What is left of a register or buffer keeps its names. -/
theorem cell_of_cleanNames (hk : g'.hasKind isSequential t) (hc : c ∈ g'.connsOf t) :
    g.hasKind isSequential t ∧ c ∈ g.connsOf t ∧ ∃ s p, g'.nodeNameOf? t = some s ∧
      g.connNameOf? c = some p ∧ g'.equationName c = .ok (s ++ "." ++ p) := by
  have hk3 : g3.hasKind isSequential t :=
    isSequential_of_keepsNames hkeeps ((relabels_cleanNames hclean).hasKind _ t ▸ hk)
  rcases owner_of_cleanNames h3 hkeeps hclean (isSome_of_hasKind hk3) hc with ⟨hc3, hown⟩
  have hcell := ht.cell hk3
  have hnode := isSome_of_hasKind hcell
  have hnot := not_isNamed_of_isSequential hcell
  have hc0 := ht.evolves.shrinks hnode hnot hc3
  have hconn := hg.conn_isSome hc0
  rcases Option.isSome_iff_exists.mp hconn with ⟨x, hx⟩
  rcases Option.isSome_iff_exists.mp (isSome_of_hasKind hk) with ⟨y, hy⟩
  have hp : g.connNameOf? c = some x.name := by
    rw [connNameOf?, hx]
    rfl
  have hs : g'.nodeNameOf? t = some y.name := by
    rw [nodeNameOf?, hy]
    rfl
  refine ⟨hcell, hc0, y.name, x.name, hs, hp, ?_⟩
  apply equationName_of_isSequential hown hk hs
  rw [connNameOf?_cleanNames_of_not_mem hclean, (hkeeps.label (h3.conn_isSome hc3)).name,
    ht.evolves.connName hnode hnot hconn hc3, hp]
  -- the cell is neither a pin nor a pin node, so nothing of it is renamed
  intro m hm hcm
  have hnamed := isNamed_of_keepsNames h3 hkeeps hm
  rw [h3.eq_of_mem (mem_of_keepsNames h3 hkeeps hm hcm) hc3, not_isNamed_of_isSequential hk3] at hnamed
  cases hnamed

/-- What the names come to once they are cleaned. -/
theorem lettered_cleanNames (hcheck : h.Checked) : Lettered g h g' := by
  have hrel := relabels_cleanNames hclean
  -- names change, but what a node has it had before
  have hlist : ∀ {t}, t ∈ g'.pins ++ g'.pinNodes → t ∈ h.pins ++ h.pinNodes := by
    intro t hn
    rwa [hrel.alike.pins, hrel.alike.pinNodes] at hn
  have hold : ∀ {t}, t ∈ g'.pins ++ g'.pinNodes → g3.hasKind isNamed t :=
    fun hn => isNamed_of_keepsNames h3 hkeeps (hlist hn)
  have hmem : ∀ {t c}, t ∈ g'.pins ++ g'.pinNodes → c ∈ g'.connsOf t → c ∈ g3.connsOf t :=
    fun hn hc => (owner_of_cleanNames h3 hkeeps hclean (isSome_of_hasKind (hold hn)) hc).1
  have hsink : ∀ {t c}, t ∈ g'.pins ++ g'.pinNodes → c ∈ g'.connsOf t → g'.isSink c →
      g3.isSink c := by
    intro t c hn hc hs
    rwa [isSink_congr (direction_of_cleanNames hkeeps hclean (h3.conn_isSome (hmem hn hc)))] at hs
  exact {
    checked := hrel.checked hcheck
    owner := fun {t c} hn hc => by
      rw [equationOwners, mem_append, mem_filter] at hn
      rcases hn with hn | ⟨-, hk⟩
      · exact (owner_of_cleanNames h3 hkeeps hclean (isSome_of_hasKind (hold hn)) hc).2
      · rw [hrel.hasKind] at hk
        have hk3 := isSequential_of_keepsNames hkeeps hk
        exact (owner_of_cleanNames h3 hkeeps hclean (isSome_of_hasKind hk3) hc).2
    name := fun {t} hn => by
      have hsome := isSome_of_hasKind (hold hn)
      rcases Option.isSome_iff_exists.mp hsome with ⟨y, hy⟩
      have hname : h.nodeNameOf? t = some y.name := by
        rw [hkeeps.name hsome, nodeNameOf?, hy]
        rfl
      refine ⟨y.name, hname, ?_⟩
      rw [nodeNameOf?_cleanNames hclean (hlist hn), hname]
      rfl
    isInput := fun hp => by
      have hsome := isSome_of_connNameOf? hp.name
      rw [isInput_congr (direction_of_cleanNames hkeeps hclean (ht.evolves.conn_isSome hsome)),
        isInput_congr (ht.evolves.direction hsome)]
      exact hp.isInput
    port := fun hp hn hc hs =>
      equationName_of_cleanNames h3 hkeeps hclean (hlist hn) hc hs (ht.port hp)
    own := fun {t c s} hn hc hs hcell hname => by
      have hown := (ht.named (hold hn) (hmem hn hc) (hsink hn hc hs)).resolve_left hcell
      rw [StandsFor, ← hkeeps.name (isSome_of_hasKind (hold hn)), hname] at hown
      rcases hown with hown | hown
      · rw [equationName_of_cleanNames h3 hkeeps hclean (hlist hn) hc hname hown, leftSide,
          if_pos (by simp)]
      · rw [equationName_of_cleanNames h3 hkeeps hclean (hlist hn) hc hname hown, leftSide,
          if_pos (by simp)]
    single := fun hn hc hc' hs hs' =>
      ht.single (hold hn) (hmem hn hc) (hmem hn hc') (hsink hn hc hs) (hsink hn hc' hs')
    cell := cell_of_cleanNames hg ht h3 hkeeps hclean }

end Cleaning

/-! ## The equations -/

/-- The input `p` of the register or buffer `n` of `g` is wired and stands on the pin or pin node `t` of
`g'`. -/
structure Attached (g g' : Network) (n : NodeId) (c : ConnId) (p : String) (t : NodeId) : Prop
    extends IsPort g n c p where
  target : t ∈ g'.pins ++ g'.pinNodes
  attached : c ∈ g'.connsOf t
  wired : g'.refsOf c ≠ []

/-- The left-hand sides of the equations `es` of `g'` say what they are for, where `g` is the network
with the registers and buffers. -/
structure Suffixed (g g' : Network) (es : List Equation) : Prop where
  /-- An input of a cell is written behind the name of the node that has taken it over. -/
  port : ∀ {n c p t s}, Attached g g' n c p t → g'.nodeNameOf? t = some s →
    (∃ e ∈ es, e.input = c) ∧ ∀ e ∈ es, e.input = c → e.name = s ++ "." ++ p
  /-- The name of a node alone stands for its own input only. -/
  bare : ∀ {e t s}, e ∈ es → t ∈ g'.pins ++ g'.pinNodes → e.input ∈ g'.connsOf t →
    g'.nodeNameOf? t = some s → (e.name = s ↔ ¬ g.FromCell e.input)
  /-- Inputs of the same node are written differently. -/
  distinct : ∀ {e e'}, e ∈ es → e' ∈ es → g'.ownerOf? e.input = g'.ownerOf? e'.input →
    e.name = e'.name → e.input = e'.input

/-- The inputs of cells on a pin or pin node can be told apart by their names from each other and from
the input of the node itself, where `h` has the names before they were cleaned. -/
structure Discernible (g h g' : Network) : Prop where
  apart : ∀ {n c p t s}, Attached g g' n c p t → h.nodeNameOf? t = some s →
    p ∉ [pinNodeInput, pinNodeOutput, s, Text.identifier s]
  sole : ∀ {n n' c c' p t}, Attached g g' n c p t → Attached g g' n' c' p t → n = n'

theorem append_dot_ne (s p : String) : s ++ "." ++ p ≠ s := by
  intro heq
  have hlength := congrArg String.length heq
  simp only [String.length_append] at hlength
  have hdot : ".".length = 1 := by decide
  omega

theorem append_dot_injective {p' : String} (heq : s ++ "." ++ p = s ++ "." ++ p') : p = p' :=
  (String.append_right_inj _).mp heq

section Equations

variable {es : List Equation} {e e' : Equation} (hl : Lettered g h g') (hes : g'.equations = .ok es)

theorem Checked.mem_top (hg : g.Checked) : c ∈ g.top ↔
    ∃ t ∈ g.equationOwners, c ∈ g.connsOf t ∧ g.isSink c ∧ g.refsOf c ≠ [] := by
  rw [hg.top, mem_flatMap]
  simp only [wiredSinks, mem_filter, Bool.and_eq_true, Bool.not_eq_true', isEmpty_eq_false_iff,
    ne_eq]

include hes in
/-- An equation is written for an input on the list, under the name of the input. -/
theorem mem_top_of_mem_equations (he : e ∈ es) :
    e.input ∈ g'.top ∧ g'.equationName e.input = .ok e.name := by
  rcases exists_left_of_forall₂ (equations_spec hes) he with ⟨c, hc, rfl, hname, -⟩
  exact ⟨(mem_filter.mp hc).1, hname⟩

include hl

theorem Attached.isSink (ha : Attached g g' n c p t) : g'.isSink c :=
  isSink_of_isInput (hl.isInput ha.toIsPort)

include hes

theorem Attached.exists_equation (ha : Attached g g' n c p t) : ∃ e ∈ es, e.input = c := by
  have htop : c ∈ g'.top := by
    rw [hl.checked.mem_top]
    exact ⟨t, mem_append_left _ ha.target, ha.attached, ha.isSink hl, ha.wired⟩
  have hsource : (g'.sourceOf? c).isSome := by
    rcases exists_mem_of_ne_nil _ ha.wired with ⟨d, hd⟩
    rw [sourceOf?, find?_isSome]
    exact ⟨d, hd, hl.checked.source ha.target ha.attached (hl.isInput ha.toIsPort) hd⟩
  rcases exists_right_of_forall₂ (equations_spec hes) (mem_filter.mpr ⟨htop, hsource⟩) with
    ⟨e, he, hinput, -⟩
  exact ⟨e, he, hinput⟩

theorem Attached.name_eq (ha : Attached g g' n c p t) (hs : h.nodeNameOf? t = some s) (he : e ∈ es)
    (hinput : e.input = c) : e.name = leftSide s p := by
  have hname := (mem_top_of_mem_equations hes he).2
  rw [hinput, hl.port ha.toIsPort ha.target ha.attached hs] at hname
  exact (Except.ok.inj hname).symm

/-- An equation of a pin or pin node is for an input of a cell or for its own one. -/
theorem Lettered.cases (he : e ∈ es) (ht : t ∈ g'.pins ++ g'.pinNodes) (hc : e.input ∈ g'.connsOf t)
    (hs : h.nodeNameOf? t = some s) : (∃ n p, Attached g g' n e.input p t ∧ e.name = leftSide s p) ∨
      ¬ g.FromCell e.input ∧ e.name = Text.identifier s := by
  rcases mem_top_of_mem_equations hes he with ⟨htop, hname⟩
  rcases hl.checked.mem_top.mp htop with ⟨-, -, -, hsink, hwired⟩
  by_cases hcell : g.FromCell e.input
  · left
    rcases hcell with ⟨n, p, hp⟩
    have ha : Attached g g' n e.input p t := ⟨hp, ht, hc, hwired⟩
    exact ⟨n, p, ha, ha.name_eq hl hes hs he rfl⟩
  · right
    refine ⟨hcell, ?_⟩
    rw [hl.own ht hc hsink hcell hs] at hname
    exact (Except.ok.inj hname).symm

/-- If left-hand sides say what they are for, inputs can be told apart. -/
theorem Suffixed.discernible (hg : g.Owned) (hsuf : Suffixed g g' es) : Discernible g h g' := by
  constructor
  · intro n c p t s ha hs hmem
    rcases hl.name ha.target with ⟨s', hs', hclean⟩
    obtain rfl := Option.mem_unique hs hs'
    rcases hsuf.port ha hclean with ⟨⟨e, he, hinput⟩, hall⟩
    have hname := ha.name_eq hl hes hs he hinput
    rw [hall e he hinput, leftSide, if_pos hmem] at hname
    exact append_dot_ne _ _ hname
  · intro n n' c c' p t ha ha'
    rcases hl.name ha.target with ⟨s, -, hclean⟩
    rcases hsuf.port ha hclean with ⟨⟨e, he, hinput⟩, hall⟩
    rcases hsuf.port ha' hclean with ⟨⟨e', he', hinput'⟩, hall'⟩
    have htarget : t ∈ g'.equationOwners := mem_append_left _ ha.target
    have hsame : e.input = e'.input := by
      apply hsuf.distinct he he'
      · rw [hinput, hinput', hl.owner htarget ha.attached, hl.owner htarget ha'.attached]
      · rw [hall e he hinput, hall' e' he' hinput']
    have hcc : c = c' := by rw [← hinput, hsame, hinput']
    exact hg.eq_of_mem ha.mem (hcc ▸ ha'.mem)

section Back

variable (hports : ∀ {n c c'}, g.hasKind isSequential n → c ∈ g.connsOf n →
  c' ∈ g.connsOf n → g.connNameOf? c = g.connNameOf? c' → c = c') (hdis : Discernible g h g')
include hports hdis

omit hports in
theorem Discernible.name_eq (ha : Attached g g' n c p t) (hs : h.nodeNameOf? t = some s) (he : e ∈ es)
    (hinput : e.input = c) : e.name = Text.identifier s ++ "." ++ p := by
  rw [ha.name_eq hl hes hs he hinput, leftSide, if_neg (hdis.apart ha hs)]

/-- On one pin or pin node a left-hand side stands for one input. -/
theorem Discernible.eq_on_node (he : e ∈ es) (he' : e' ∈ es) (ht : t ∈ g'.pins ++ g'.pinNodes)
    (hc : e.input ∈ g'.connsOf t) (hc' : e'.input ∈ g'.connsOf t) (hname : e.name = e'.name) :
    e.input = e'.input := by
  rcases hl.name ht with ⟨s, hs, -⟩
  have hsink : ∀ {e}, e ∈ es → g'.isSink e.input := by
    intro e he
    rcases hl.checked.mem_top.mp (mem_top_of_mem_equations hes he).1 with ⟨-, -, -, hsink, -⟩
    exact hsink
  rcases hl.cases hes he ht hc hs with ⟨n, p, ha, -⟩ | ⟨hcell, hown⟩ <;>
    rcases hl.cases hes he' ht hc' hs with ⟨n', p', ha', -⟩ | ⟨hcell', hown'⟩
  · -- two inputs of cells: the same name, hence the same cell
    rw [hdis.name_eq hl hes ha hs he rfl, hdis.name_eq hl hes ha' hs he' rfl] at hname
    obtain rfl := append_dot_injective hname
    obtain rfl := hdis.sole ha ha'
    exact hports ha.kind ha.mem ha'.mem (ha.name.trans ha'.name.symm)
  · rw [hdis.name_eq hl hes ha hs he rfl, hown'] at hname
    exact absurd hname (append_dot_ne _ _)
  · rw [hdis.name_eq hl hes ha' hs he' rfl, hown] at hname
    exact absurd hname.symm (append_dot_ne _ _)
  · exact hl.single ht hc hc' (hsink he) (hsink he') hcell hcell'

omit hdis in
theorem Lettered.eq_on_cell (he : e ∈ es) (he' : e' ∈ es)
    (hk : g'.hasKind isSequential t) (hc : e.input ∈ g'.connsOf t)
    (hc' : e'.input ∈ g'.connsOf t) (hname : e.name = e'.name) : e.input = e'.input := by
  have hwritten := (mem_top_of_mem_equations hes he).2
  have hwritten' := (mem_top_of_mem_equations hes he').2
  rcases hl.cell hk hc with ⟨hcell, hmem, s, p, hs, hp, heq⟩
  rcases hl.cell hk hc' with ⟨-, hmem', s', p', hs', hp', heq'⟩
  obtain rfl := Option.mem_unique hs hs'
  rw [heq] at hwritten
  rw [heq', ← hname] at hwritten'
  obtain rfl := append_dot_injective (Except.ok.inj (hwritten.trans hwritten'.symm))
  exact hports hcell hmem hmem' (hp.trans hp'.symm)

/-- If inputs can be told apart, left-hand sides say what they are for. -/
theorem Discernible.suffixed : Suffixed g g' es := by
  constructor
  · intro n c p t s ha hclean
    rcases hl.name ha.target with ⟨s', hs, hclean'⟩
    obtain rfl := Option.mem_unique hclean hclean'
    exact ⟨ha.exists_equation hl hes, fun e he hinput => hdis.name_eq hl hes ha hs he hinput⟩
  · intro e t s he ht hc hclean
    rcases hl.name ht with ⟨s', hs, hclean'⟩
    obtain rfl := Option.mem_unique hclean hclean'
    rcases hl.cases hes he ht hc hs with ⟨n, p, ha, -⟩ | ⟨hcell, hown⟩
    · rw [hdis.name_eq hl hes ha hs he rfl]
      constructor
      · exact fun heq => absurd heq (append_dot_ne _ _)
      · exact fun hnot => absurd ⟨n, p, ha.toIsPort⟩ hnot
    · exact ⟨fun _ => hcell, fun _ => hown⟩
  · intro e e' he he' howner hname
    rcases hl.checked.mem_top.mp (mem_top_of_mem_equations hes he).1 with ⟨t, ht, hc, -⟩
    rcases hl.checked.mem_top.mp (mem_top_of_mem_equations hes he').1 with ⟨t', ht', hc', -⟩
    rw [hl.owner ht hc, hl.owner ht' hc'] at howner
    obtain rfl := Option.some.inj howner
    rw [equationOwners, mem_append, mem_filter] at ht
    rcases ht with ht | ⟨-, hk⟩
    · exact hdis.eq_on_node hl hes hports he he' ht hc hc' hname
    · exact hl.eq_on_cell hes hports he he' hk hc hc' hname

end Back

end Equations

/-- The inputs of registers and buffers of `g` on a node of `g'`. -/
def portsOn (g g' : Network) (t : NodeId) : List ConnId :=
  (g'.connsOf t).filter fun c => (g.ownerOf? c).any (g.hasKind isSequential)

theorem Attached.mem_portsOn (ha : Attached g g' n c p t) (hg : g.Owned) : c ∈ g.portsOn g' t := by
  rw [portsOn, mem_filter, hg.owner ha.mem]
  exact ⟨ha.attached, ha.kind⟩

/-- A test that the inputs can be told apart. -/
theorem discernible_of_portsOn (hg : g.Owned) (hall : ∀ t ∈ g'.pins ++ g'.pinNodes,
    ((g.portsOn g' t).map g.connNameOf?).Nodup ∧ ∀ x ∈ (g.portsOn g' t).map g.connNameOf?,
      x ∉ [some pinNodeInput, some pinNodeOutput, h.nodeNameOf? t,
        (h.nodeNameOf? t).map Text.identifier]) : Discernible g h g' where
  apart {n c p t s} ha hs hmem := by
    have hnot := (hall t ha.target).2 (some p)
      (mem_map.mpr ⟨c, ha.mem_portsOn hg, ha.name⟩)
    apply hnot
    rw [hs]
    simpa using hmem
  sole {n n' c c' p t} ha ha' := by
    have hsame : c = c' := inj_on_of_nodup_map (hall t ha.target).1 (ha.mem_portsOn hg)
      (ha'.mem_portsOn hg) (ha.name.trans ha'.name.symm)
    exact hg.eq_of_mem ha.mem (hsame ▸ ha'.mem)

end Network

open Network

variable {d : Design} {g : Network} {name : String}

/-! ## Designs -/

/-- No cell has two ports of the same name, by the names of the library. -/
def Design.hasDistinctPorts (d : Design) : Bool :=
  d.cells.entries.all fun e => (Library.kindOfType? e.2.type).all fun k =>
    decide (e.2.connections.entries.map fun p => Library.portName k p.1).Nodup

/-- The connections of the node are the ports of a cell of the design, named as the library names them. -/
def Design.NamesPorts (d : Design) (g : Network) (n : NodeId) : Prop :=
  ∃ e ∈ d.cells.entries, ∃ k, Library.kindOfType? e.2.type = some k ∧ g.kindOf? n = some k ∧
    (g.connsOf n).map g.connNameOf? =
      e.2.connections.entries.map fun p => some (Library.portName k p.1)

theorem Design.Built.namesPorts {n : NodeId} (h : d.Built g)
    (hk : g.hasKind isSequential n) : d.NamesPorts g n := by
  rcases hasKind_iff.mp hk with ⟨k, hk, hseq⟩
  rcases h.covers.cells hk with rfl | rfl | ⟨e, he, htype, hdrawn⟩
  · cases hseq
  · cases hseq
  · refine ⟨e, he, k, htype, hk, ?_⟩
    symm
    apply map_eq_of_forall₂
    apply hdrawn.conns.imp
    rintro p c ⟨dir, -, hlabel⟩
    exact hlabel.1.symm

/-- Ports of a cell with the same name are the same. -/
theorem Design.NamesPorts.eq_of_connNameOf? {n : NodeId} {c c' : ConnId} (h : d.NamesPorts g n)
    (hd : d.hasDistinctPorts) (hc : c ∈ g.connsOf n) (hc' : c' ∈ g.connsOf n)
    (hname : g.connNameOf? c = g.connNameOf? c') : c = c' := by
  rcases h with ⟨e, he, k, htype, -, hnames⟩
  have hnodup := all_eq_true.mp hd e he
  rw [htype, Option.all_some, decide_eq_true_eq] at hnodup
  have hsome := hnodup.map (Option.some_injective String)
  rw [map_map] at hsome
  apply inj_on_of_nodup_map _ hc hc' hname
  rw [hnames]
  exact hsome

/-- What the passes leave of the network of a design. -/
theorem Design.Built.lettered {g1 g2 g' : Network} {r3 r4 : Bool × Network} {limit : Option Nat}
    (h : d.Built g) (h1 : g.branched = .ok g1) (h2 : g1.simplified = .ok g2) (h3 : g2.collapse = .ok r3)
    (h4 : r3.2.expand limit = .ok r4) (h5 : r4.2.cleanNames = .ok g') : Lettered g r4.2 g' := by
  rcases branched_eq_ok.mp h1 with ⟨-, r1, hr1, rfl⟩
  rcases simplified_eq_ok.mp h2 with ⟨r2, hr2, rfl⟩
  -- the shape of the cells does not matter here
  have hraw : g.Raw fun _ => false := h.raw (fun _ _ _ _ hk => absurd hk Bool.false_ne_true) rfl
  rcases traced_branch hraw h.pins h.pinNodes h.oneDataAt hr1 with ⟨hlayer1, ht1, hu1⟩
  rcases traced_simplify hlayer1 ht1 hu1 hr2 with ⟨hlayer2, ht2, htop2⟩
  rcases traced_collapse hraw.toOwned hlayer2.poised ht2 htop2 h3 with ⟨hpoised, ht3, htop3⟩
  exact lettered_cleanNames hraw.toOwned ht3 hpoised.toOwned
    (.expand ⟨hpoised.pin_kind, hpoised.pinNode_kind⟩ h4) h5 ((hpoised.toSound.checked htop3).expand h4)

/-- The connections of registers and buffers are named after the ports of cells. Their inputs are written
behind the names of the pins and pin nodes that have taken them over, the name of a pin or pin node alone
stands for its own input, and inputs of the same node are written differently, if and only if they can be
told apart by their names. -/
theorem Design.suffixed_iff {g1 g2 g' : Network} {r3 r4 : Bool × Network} {limit : Option Nat}
    {es : List Equation} (hd : d.hasDistinctPorts = true) (hg : d.toNetwork name = .ok g)
    (h1 : g.branched = .ok g1) (h2 : g1.simplified = .ok g2) (h3 : g2.collapse = .ok r3)
    (h4 : r3.2.expand limit = .ok r4) (h5 : r4.2.cleanNames = .ok g') (h6 : g'.equations = .ok es) :
    (∀ n, g.hasKind NodeKind.isSequential n = true → d.NamesPorts g n) ∧
      (Suffixed g g' es ↔ Discernible g r4.2 g') := by
  have hbuilt := built_toNetwork hg
  have hl := hbuilt.lettered h1 h2 h3 h4 h5
  refine ⟨fun n hk => hbuilt.namesPorts hk, ?_⟩
  constructor
  · exact fun hsuf => hsuf.discernible hl h6 hbuilt.sound.toOwned
  · intro hdis
    apply hdis.suffixed hl h6
    intro n c c' hk hc hc' hname
    exact (hbuilt.namesPorts hk).eq_of_connNameOf? hd hc hc' hname

/-- The transceiver, where one pin takes over a register and a buffer and another one a latch. -/
theorem Design.suffixed_transceiver : ∃ g g1 g2 r3 r4 g' es, transceiver.hasDistinctPorts = true ∧
    transceiver.toNetwork "bus" = .ok g ∧ g.branched = .ok g1 ∧ g1.simplified = .ok g2 ∧
    g2.collapse = .ok r3 ∧ r3.2.expand none = .ok r4 ∧ r4.2.cleanNames = .ok g' ∧
    g'.equations = .ok es ∧ es.map Equation.name =
      ["bus.OE", "bus.AR", "bus.CK", "bus.D", "held.L", "held.LE", "odd", "PN1"] ∧
    Suffixed g g' es := by
  have hd : transceiver.hasDistinctPorts = true := by decide +kernel
  have h : transceiver.run? "bus" (fun g =>
      g.branched >>= fun g1 => g1.simplified >>= fun g2 => g2.collapse >>= fun r3 =>
        r3.2.expand none >>= fun r4 => r4.2.cleanNames >>= fun g' => g'.equations >>= fun es =>
          pure (es.map Equation.name, decide (∀ t ∈ g'.pins ++ g'.pinNodes,
            ((g.portsOn g' t).map g.connNameOf?).Nodup ∧ ∀ x ∈ (g.portsOn g' t).map g.connNameOf?,
              x ∉ [some pinNodeInput, some pinNodeOutput, r4.2.nodeNameOf? t,
                (r4.2.nodeNameOf? t).map Text.identifier]))) =
      some (["bus.OE", "bus.AR", "bus.CK", "bus.D", "held.L", "held.LE", "odd", "PN1"], true) := by
    decide +kernel
  simp only [run?_eq_some, bind_eq_ok, pure_eq_ok, Prod.mk.injEq,
    decide_eq_true_eq] at h
  rcases h with ⟨g, hg, g1, h1, g2, h2, r3, h3, r4, h4, g', h5, es, h6, hnames, hall⟩
  have hdis := discernible_of_portsOn (built_toNetwork hg).sound.toOwned hall
  exact ⟨g, g1, g2, r3, r4, g', es, hd, hg, h1, h2, h3, h4, h5, h6, hnames,
    (suffixed_iff hd hg h1 h2 h3 h4 h5 h6).2.mpr hdis⟩

/-- A buffer that drives a port with the name of its enable. -/
def Design.drivenEnable : Design where
  ports := .ofList [("OE", ⟨"output", [.wire 5]⟩), ("a", ⟨"input", [.wire 3]⟩),
    ("en", ⟨"input", [.wire 4]⟩)]
  cells := .ofList [("t", .ofGate "$_TBUF_" [("A", .wire 3), ("E", .wire 4)] 5)]
  nets := .empty

/-- The data of the buffer and its enable are both written as `OE`. -/
theorem Design.not_suffixed_drivenEnable : ∃ g g1 g2 r3 r4 g' es,
    drivenEnable.hasDistinctPorts = true ∧ drivenEnable.toNetwork "m" = .ok g ∧
    g.branched = .ok g1 ∧ g1.simplified = .ok g2 ∧ g2.collapse = .ok r3 ∧ r3.2.expand none = .ok r4 ∧
    r4.2.cleanNames = .ok g' ∧ g'.equations = .ok es ∧ es.map Equation.name = ["OE", "OE"] ∧
    ¬ Suffixed g g' es := by
  have hd : drivenEnable.hasDistinctPorts = true := by decide +kernel
  have h : drivenEnable.run? "m" (fun g =>
      g.branched >>= fun g1 => g1.simplified >>= fun g2 => g2.collapse >>= fun r3 =>
        r3.2.expand none >>= fun r4 => r4.2.cleanNames >>= fun g' => g'.equations >>= fun es =>
          pure (es.map Equation.name, decide (∃ e ∈ es, ∃ e' ∈ es, e.input ≠ e'.input ∧
            g'.ownerOf? e.input = g'.ownerOf? e'.input ∧ e.name = e'.name))) =
      some (["OE", "OE"], true) := by
    decide +kernel
  simp only [run?_eq_some, bind_eq_ok, pure_eq_ok, Prod.mk.injEq,
    decide_eq_true_eq] at h
  rcases h with ⟨g, hg, g1, h1, g2, h2, r3, h3, r4, h4, g', h5, es, h6, hnames, e, he, e', he', hne,
    howner, hname⟩
  exact ⟨g, g1, g2, r3, r4, g', es, hd, hg, h1, h2, h3, h4, h5, h6, hnames,
    fun hsuf => hne (hsuf.distinct he he' howner hname)⟩

end PldSynth
