import PldSynth.Proofs.Netlist.Blocks
import PldSynth.Proofs.Netlist.Wiring
import PldSynth.Proofs.Network.Resemblance

/-!
# Designs that list their cells in another order

The cells of a design are drawn in the order of their names. If two designs have the same ports and the
same cells, in whatever order, their networks resemble each other: a node is paired with the node that
stands for the same cell, and a constant with the one that the same literal became.
-/

namespace PldSynth

open Network

theorem forall₂_getElem? {α β : Type} {R : α → β → Prop} {l : List α} {l' : List β} {i : Nat} {y : β}
    (h : List.Forall₂ R l l') (hy : l'[i]? = some y) : ∃ x, l[i]? = some x ∧ R x y := by
  induction h generalizing i with
  | nil => simp at hy
  | cons hxy _ ih =>
    cases i with
    | zero => exact ⟨_, rfl, Option.some.inj hy ▸ hxy⟩
    | succ i => exact ih hy

namespace Network

variable {g g' : Network} {n n' : NodeId} {c c' : ConnId} {P : NodeId → NodeId → Prop}

/-- The connections are at the same place of two nodes that `P` pairs. -/
def Joins (P : NodeId → NodeId → Prop) (g g' : Network) (c c' : ConnId) : Prop :=
  ∃ (n n' : NodeId) (i : Nat), P n n' ∧ (g.connsOf n)[i]? = some c ∧ (g'.connsOf n')[i]? = some c'

theorem joins_flip : Joins (flip P) g' g c' c ↔ Joins P g g' c c' := by
  constructor <;>
  · rintro ⟨n, n', i, hn, hc, hc'⟩
    exact ⟨n', n, i, hn, hc', hc⟩

/-- The nodes are constants of the same value, and two connections that are joined read nothing else. -/
def Literals (P : NodeId → NodeId → Prop) (g g' : Network) (n n' : NodeId) (o o' : ConnId) : Prop :=
  ∃ c c' value, Joins P g g' c c' ∧ g.IsConstant n o value ∧ g'.IsConstant n' o' value ∧
    g.refsOf c = [o] ∧ g'.refsOf c' = [o'] ∧ g.refsOf o = [c] ∧ g'.refsOf o' = [c']

theorem Literals.constants {o o' : ConnId} (h : Literals P g g' n n' o o') :
    ∃ value, g.IsConstant n o value ∧ g'.IsConstant n' o' value := by
  rcases h with ⟨c, c', value, -, hn, hn', -⟩
  exact ⟨value, hn, hn'⟩

theorem literals_flip {o o' : ConnId} : Literals (flip P) g' g n' n o' o ↔ Literals P g g' n n' o o' := by
  constructor <;>
  · rintro ⟨c, c', value, hj, hn, hn', hc, hc', ho, ho'⟩
    exact ⟨c', c, value, joins_flip.mp hj, hn', hn, hc', hc, ho', ho⟩

/-- The nodes are paired, as cells or as constants. -/
def LikeNodes (P : NodeId → NodeId → Prop) (g g' : Network) (n n' : NodeId) : Prop :=
  P n n' ∨ ∃ o o', Literals P g g' n n' o o'

/-- The connections are paired, on cells or on constants. -/
def LikeConns (P : NodeId → NodeId → Prop) (g g' : Network) (c c' : ConnId) : Prop :=
  Joins P g g' c c' ∨ ∃ n n', Literals P g g' n n' c c'

end Network

variable {d d' : Design} {g g' : Network} {n n' n1 n2 : NodeId} {c c' c1 c2 o o' : ConnId}
  {P : NodeId → NodeId → Prop}

/-- The network `g` of the design: its cells are the nodes `ns`, and its connections are named, directed
and wired as the design binds them. -/
structure Design.Faithful (d : Design) (ns : List NodeId) (g : Network) : Prop extends
    d.Built g, d.Rows ns g, d.WiredAsBound g where
  labelled : ∀ {b c}, (b, c) ∈ d.bindings.zip g.boundConns → g.Labelled (b.name, b.direction) c
  binding_inj : ∀ {b b' c}, (b, c) ∈ d.bindings.zip g.boundConns →
    (b', c) ∈ d.bindings.zip g.boundConns → b = b'

theorem Design.exists_faithful {name : String} (ha : d.LiteralsApart) (h : d.toNetwork name = .ok g) :
    ∃ ns, d.Faithful ns g := by
  have hbuilt := built_toNetwork h
  rcases exists_bound h with ⟨ts, hbound⟩
  rcases exists_rows h with ⟨ns, hrows⟩
  exact ⟨ns, hbuilt, hrows, hbound.wiredAsBound ha hbuilt, hbound.labelled,
    hbound.binding_inj hbuilt.sound.toOwned⟩

/-- `P` pairs the nodes of `g` that are no constants with nodes of `g'` that have the same kind and the
same bindings. -/
structure Design.Pairs (P : NodeId → NodeId → Prop) (d d' : Design) (g g' : Network) : Prop where
  total : ∀ {n}, n ∈ g.boundNodes → ∃ n', P n n'
  bound : ∀ {n n'}, P n n' → n ∈ g.boundNodes
  unique : ∀ {n n1 n2}, P n n1 → P n n2 → n1 = n2
  kind : ∀ {n n'}, P n n' → g'.kindOf? n' = g.kindOf? n
  bindings : ∀ {n n'}, P n n' → ∃ bs,
    List.Forall₂ (fun b c => (b, c) ∈ d.bindings.zip g.boundConns) bs (g.connsOf n) ∧
    List.Forall₂ (fun b c => (b, c) ∈ d'.bindings.zip g'.boundConns) bs (g'.connsOf n')

namespace Design.Pairs

variable (h : d.Pairs P d' g g')
include h

theorem forall₂_joins (hn : P n n') : List.Forall₂ (Joins P g g') (g.connsOf n) (g'.connsOf n') := by
  rcases h.bindings hn with ⟨bs, hbs, hbs'⟩
  have hlen : (g.connsOf n).length = (g'.connsOf n').length := hbs.length_eq.symm.trans hbs'.length_eq
  refine List.forall₂_iff_get.mpr ⟨hlen, fun i hi hi' => ⟨n, n', i, hn, ?_, ?_⟩⟩
  · exact List.getElem?_eq_getElem hi
  · exact List.getElem?_eq_getElem hi'

/-- Connections that are joined have the same binding. -/
theorem binding (hc : Joins P g g' c c') :
    ∃ b, (b, c) ∈ d.bindings.zip g.boundConns ∧ (b, c') ∈ d'.bindings.zip g'.boundConns := by
  rcases hc with ⟨n, n', i, hn, hc, hc'⟩
  rcases h.bindings hn with ⟨bs, hbs, hbs'⟩
  rcases forall₂_getElem? hbs hc with ⟨b, hb, hz⟩
  rcases forall₂_getElem? hbs' hc' with ⟨b', hb', hz'⟩
  rw [Option.mem_unique hb hb'] at hz
  exact ⟨b', hz, hz'⟩

theorem joins_unique (hg : g.Owned) (h1 : Joins P g g' c c1) (h2 : Joins P g g' c c2) : c1 = c2 := by
  rcases h1 with ⟨n, n', i, hn, hc, hc'⟩
  rcases h2 with ⟨m, m', j, hm, hd, hd'⟩
  obtain rfl : n = m := hg.eq_of_mem (List.mem_of_getElem? hc) (List.mem_of_getElem? hd)
  obtain rfl : n' = m' := h.unique hn hm
  have hij : i = j := by
    have hlt := (List.getElem?_eq_some_iff.mp hc).1
    exact (List.getElem?_inj hlt (hg.nodup_conns n)).mp (hc.trans hd.symm)
  rw [hij, hd'] at hc'
  exact (Option.some.inj hc').symm

/-- What is bound is joined to something. -/
theorem exists_joins (hc : c ∈ g.boundConns) : ∃ c', Joins P g g' c c' := by
  rcases List.mem_flatMap.mp hc with ⟨n, hn, hc⟩
  rcases h.total hn with ⟨n', hn⟩
  rcases exists_right_of_forall₂ (h.forall₂_joins hn) hc with ⟨c', -, hcc⟩
  exact ⟨c', hcc⟩

theorem mem_boundConns (hc : Joins P g g' c c') : c ∈ g.boundConns := by
  rcases h.binding hc with ⟨b, hb, -⟩
  exact (List.of_mem_zip hb).2

theorem literals_unique (hg : g.Owned) {m : NodeId} (h1 : Literals P g g' n n1 c c1)
    (h2 : Literals P g g' m n2 c c2) : c1 = c2 := by
  rcases h1 with ⟨x, x1, v, hj, -, -, -, hx1, hx, -⟩
  rcases h2 with ⟨y, y2, w, hj', -, -, -, hy2, hy, -⟩
  obtain rfl : x = y := by
    rw [hx] at hy
    exact List.singleton_inj.mp hy
  rw [h.joins_unique hg hj hj', hy2] at hx1
  exact (List.singleton_inj.mp hx1).symm

theorem likeConns_unique (hg : g.Owned) (h1 : LikeConns P g g' c c1) (h2 : LikeConns P g g' c c2) :
    c1 = c2 := by
  -- a connection that is bound does not belong to a constant
  have hapart : ∀ {n n' x x'}, Joins P g g' c x → ¬ Literals P g g' n n' c x' := by
    intro n n' x x' hj hlit
    rcases hlit.constants with ⟨_, hconst, -⟩
    exact hg.constant_not_bound hconst (h.mem_boundConns hj)
  rcases h1 with h1 | ⟨n, n', h1⟩ <;> rcases h2 with h2 | ⟨m, m', h2⟩
  · exact h.joins_unique hg h1 h2
  · exact absurd h2 (hapart h1)
  · exact absurd h1 (hapart h2)
  · exact h.literals_unique hg h1 h2

variable {ns ns' : List NodeId} (hd : d.Faithful ns g) (hd' : d'.Faithful ns' g')
include hd hd'

/-- Paired connections bear the same name and face the same way. -/
theorem label_likeConns (hc : LikeConns P g g' c c') :
    g'.connNameOf? c' = g.connNameOf? c ∧ g'.directionOf? c' = g.directionOf? c := by
  rcases hc with hc | ⟨n, n', hlit⟩
  · rcases h.binding hc with ⟨b, hz, hz'⟩
    rcases hd.labelled hz with ⟨hname, hdir⟩
    rcases hd'.labelled hz' with ⟨hname', hdir'⟩
    exact ⟨hname'.trans hname.symm, hdir'.trans hdir.symm⟩
  · rcases hlit.constants with ⟨_, hn, hn'⟩
    rcases hd.constants hn.kind with ⟨o, ho, hdir⟩
    rcases hd'.constants hn'.kind with ⟨o', ho', hdir'⟩
    rw [hn.conns, List.singleton_inj] at ho
    rw [hn'.conns, List.singleton_inj] at ho'
    rw [ho, ho', hdir, hdir', ← ho, ← ho', hn.name, hn'.name]
    exact ⟨rfl, rfl⟩

/-- What drives a connection is paired with what drives the connection that it is joined to. -/
theorem refs_joins (hc : Joins P g g' c c') (hs : g.isSink c) (ho : o ∈ g.refsOf c) :
    ∃ o' ∈ g'.refsOf c', LikeConns P g g' o o' := by
  rcases h.binding hc with ⟨b, hz, hz'⟩
  have hdir : b.direction ≠ .output := by
    intro hdir
    rw [isSink, (hd.labelled hz).2, hdir] at hs
    cases hs
  cases hbit : b.bit with
  | wire w =>
    have hreads : b.reads? = some w := Binding.reads?_eq_some.mpr ⟨hdir, hbit⟩
    rcases hd.wire hz hreads with ⟨p, hp, hall⟩
    rcases hd'.wire hz' hreads with ⟨p', hp', hall'⟩
    obtain rfl : o = p := by simpa [hp] using ho
    -- the output on the wire is joined to the output on the same wire
    rcases (hall o).mpr rfl with ⟨b', hb', hdrives⟩
    rcases h.exists_joins (List.of_mem_zip hb').2 with ⟨q, hq⟩
    rcases h.binding hq with ⟨b2, hb2, hq'⟩
    rw [hd.binding_inj hb2 hb'] at hq'
    obtain rfl : q = p' := (hall' q).mp ⟨b', hq', hdrives⟩
    exact ⟨q, by simp [hp'], .inl hq⟩
  | literal text =>
    rcases hd.literal hz hbit with ⟨n, p, v, hv, hconst, hp, hback⟩
    rcases hd'.literal hz' hbit with ⟨n', p', v', hv', hconst', hp', hback'⟩
    obtain rfl : v = v' := Option.mem_unique hv hv'
    obtain rfl : o = p := by simpa [hp] using ho
    exact ⟨p', by simp [hp'], .inr ⟨n, n', c, c', v, hc, hconst, hconst', hp, hp', hback, hback'⟩⟩

/-- The pairing is a mirror: paired connections read paired ones. -/
theorem mirrors {N : NodeId → NodeId → Prop} {C : ConnId → ConnId → Prop}
    (hN : ∀ n n', N n n' ↔ LikeNodes P g g' n n') (hC : ∀ c c', C c c' ↔ LikeConns P g g' c c') :
    Mirrors N C g g' where
  node {n c} hc hs := by
    have hk : g.kindOf? n ≠ some .constant := hs.elim (hd.not_constant_of_isSink hc) id
    rcases h.total (hd.mem_boundNodes hc hk) with ⟨n', hn⟩
    exact ⟨n', (hN n n').mpr (.inl hn)⟩
  kind {n n'} hn := by
    rcases (hN n n').mp hn with hn | ⟨o, o', hlit⟩
    · exact h.kind hn
    · rcases hlit.constants with ⟨_, hconst, hconst'⟩
      rw [hconst.kind, hconst'.kind]
  constant {n n'} hn hk := by
    rcases (hN n n').mp hn with hn | ⟨o, o', hlit⟩
    · exact absurd hk (hd.sound.toOwned.not_constant_boundNodes (h.bound hn))
    · rcases hlit.constants with ⟨_, hconst, hconst'⟩
      rw [hconst.constant, hconst'.constant]
  conns {n n'} hn := by
    rcases (hN n n').mp hn with hn | ⟨o, o', hlit⟩
    · exact (h.forall₂_joins hn).imp fun c c' hc => (hC c c').mpr (.inl hc)
    · rcases hlit.constants with ⟨_, hconst, hconst'⟩
      rw [hconst.conns, hconst'.conns]
      exact .cons ((hC o o').mpr (.inr ⟨n, n', hlit⟩)) .nil
  owner {c c' n} hc hmem := by
    rcases (hC c c').mp hc with ⟨m, m', i, hm, hi, hi'⟩ | ⟨m, m', hlit⟩
    · obtain rfl : m = n := hd.sound.eq_of_mem (List.mem_of_getElem? hi) hmem
      exact ⟨m', (hN m m').mpr (.inl hm), List.mem_of_getElem? hi'⟩
    · rcases hlit.constants with ⟨_, hconst, hconst'⟩
      obtain rfl : m = n := hd.sound.eq_of_mem (by simp [hconst.conns]) hmem
      exact ⟨m', (hN m m').mpr (.inr ⟨c, c', hlit⟩), by simp [hconst'.conns]⟩
  direction {c c'} hc := (h.label_likeConns hd hd' ((hC c c').mp hc)).2
  refs {c c' o} hc hs ho := by
    rcases (hC c c').mp hc with hj | ⟨n, n', hlit⟩
    · rcases h.refs_joins hd hd' hj hs ho with ⟨o', ho', hoo⟩
      exact ⟨o', ho', (hC o o').mpr hoo⟩
    · -- the connection of a constant is no sink
      rcases hlit.constants with ⟨_, hconst, -⟩
      exact absurd hconst.kind (hd.not_constant_of_isSink (by simp [hconst.conns]) hs)
  unique {c c1 c2} h1 h2 :=
    h.likeConns_unique hd.sound.toOwned ((hC c c1).mp h1) ((hC c c2).mp h2)

end Design.Pairs

namespace Design

/-- The designs have the same ports and the same cells, in whatever order. -/
structure Reorders (d d' : Design) : Prop where
  ports : d'.ports = d.ports
  cells : (d.cells.entries.map Prod.snd).Perm (d'.cells.entries.map Prod.snd)

/-- Nodes that stand for the same cell are paired. -/
theorem pairs_of_cells {cells : List Cell} {ns ms ns' ms' : List NodeId} (hd : d.Faithful ns g)
    (hd' : d'.Faithful ns' g') (hports : d'.ports = d.ports) (hms : List.Forall₂ (d.CellAt g) cells ms)
    (hms' : List.Forall₂ (d'.CellAt g') cells ms') (hperm : ms.Perm ns)
    (hP : ∀ n n', P n n' ↔ n = designId ∧ n' = designId ∨
      ∃ i : Nat, ms[i]? = some n ∧ ms'[i]? = some n') : d.Pairs P d' g g' where
  total {n} hn := by
    rw [hd.nodes, List.mem_cons, ← hperm.mem_iff] at hn
    rcases hn with rfl | hn
    · exact ⟨designId, (hP _ _).mpr (.inl ⟨rfl, rfl⟩)⟩
    · rcases List.mem_iff_getElem?.mp hn with ⟨i, hi⟩
      rcases forall₂_getElem? hms hi with ⟨cell, hcell, -⟩
      rcases forall₂_getElem? hms'.flip hcell with ⟨n', hi', -⟩
      exact ⟨n', (hP _ _).mpr (.inr ⟨i, hi, hi'⟩)⟩
  bound {n n'} hn := by
    rw [hd.nodes, List.mem_cons, ← hperm.mem_iff]
    rcases (hP _ _).mp hn with ⟨rfl, -⟩ | ⟨i, hi, -⟩
    · exact .inl rfl
    · exact .inr (List.mem_of_getElem? hi)
  unique {n n1 n2} h1 h2 := by
    have hnd := hd.sound.toOwned.nodup_boundNodes
    rw [hd.nodes, ← (hperm.cons designId).nodup_iff, List.nodup_cons] at hnd
    rcases (hP _ _).mp h1 with ⟨rfl, rfl⟩ | ⟨i, hi, hi'⟩ <;>
      rcases (hP _ _).mp h2 with ⟨heq, rfl⟩ | ⟨j, hj, hj'⟩
    · rfl
    · exact absurd (List.mem_of_getElem? hj) hnd.1
    · exact absurd (heq ▸ List.mem_of_getElem? hi) hnd.1
    · -- a node stands at one place in the list, so the places agree
      have hlt := (List.getElem?_eq_some_iff.mp hi).1
      rw [(List.getElem?_inj hlt hnd.2).mp (hi.trans hj.symm), hj'] at hi'
      exact (Option.some.inj hi').symm
  kind {n n'} hn := by
    rcases (hP _ _).mp hn with ⟨rfl, rfl⟩ | ⟨i, hi, hi'⟩
    · rw [hd.sound.design_kind, hd'.sound.design_kind]
    · rcases forall₂_getElem? hms hi with ⟨cell, hcell, ⟨k, hk, hkind⟩, -⟩
      rcases forall₂_getElem? hms' hi' with ⟨cell', hcell', ⟨k', hk', hkind'⟩, -⟩
      rw [Option.mem_unique hcell' hcell] at hk'
      rw [hkind, hkind', ← hk, ← hk']
  bindings {n n'} hn := by
    rcases (hP _ _).mp hn with ⟨rfl, rfl⟩ | ⟨i, hi, hi'⟩
    · exact ⟨_, hd.toRows.ports, hports ▸ hd'.toRows.ports⟩
    · rcases forall₂_getElem? hms hi with ⟨cell, hcell, -, hbs⟩
      rcases forall₂_getElem? hms' hi' with ⟨cell', hcell', -, hbs'⟩
      rw [Option.mem_unique hcell' hcell] at hbs'
      exact ⟨_, hbs, hbs'⟩

/-- Networks of designs with the same ports and cells differ in their numbering only. Names of
connections are the same. -/
theorem Reorders.exists_resembles {ns ns' : List NodeId} (h : d.Reorders d') (hd : d.Faithful ns g)
    (hd' : d'.Faithful ns' g') : ∃ N C, Resembles N C g g' ∧
      ∀ {c c'}, C c c' → g'.connNameOf? c' = g.connNameOf? c := by
  rcases List.perm_comp_forall₂ h.cells hd'.toRows.cells with ⟨ms', hms', hperm⟩
  let P : NodeId → NodeId → Prop := fun n n' => n = designId ∧ n' = designId ∨
    ∃ i : Nat, ns[i]? = some n ∧ ms'[i]? = some n'
  have hforth : d.Pairs P d' g g' := pairs_of_cells hd hd' h.ports hd.toRows.cells hms' (.refl _)
    fun _ _ => .rfl
  have hback : d'.Pairs (flip P) d g' g := pairs_of_cells hd' hd h.ports.symm hms' hd.toRows.cells hperm
    fun n n' => or_congr and_comm (exists_congr fun i => and_comm)
  refine ⟨LikeNodes P g g', LikeConns P g g', ⟨?_, ?_⟩, fun hc => (hforth.label_likeConns hd hd' hc).1⟩
  · exact hforth.mirrors hd hd' (fun _ _ => .rfl) fun _ _ => .rfl
  · refine hback.mirrors hd' hd (fun n n' => ?_) fun c c' => ?_
    · exact or_congr .rfl (exists_comm.trans (exists₂_congr fun _ _ => literals_flip.symm))
    · exact or_congr joins_flip.symm (exists_comm.trans (exists₂_congr fun _ _ => literals_flip.symm))

end Design

end PldSynth
