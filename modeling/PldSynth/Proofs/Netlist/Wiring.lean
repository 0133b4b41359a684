import Mathlib.Data.List.Pairwise
import PldSynth.Proofs.Netlist.Bindings

/-!
# Wires as the design binds them

A consumer should be driven by the output that is bound to the same wire, and a literal by a constant
of its own. Literals take the wires -1, -2, and so on, in the same table as all other wires. So this
holds exactly if no consumer is bound to one of these wires (`Design.wiredAsBound_iff`); in particular
it holds of all designs whose wires have non-negative numbers.
-/

namespace PldSynth

open List Network

variable {d : Design} {g : Network} {name : String} {ts : List Terminal} {m : NodeId} {b : Binding}
  {n n' : String} {i : Nat} {dir : Direction} {c' : ConnId} {c : ConnId} {text : String} {value : Nat}

/-- The binding is to a literal. -/
def Binding.isLiteral (b : Binding) : Bool :=
  match b.bit with
  | .wire _ => false
  | .literal _ => true

namespace Design

/-- How many literals the design binds. -/
def literalCount (d : Design) : Nat :=
  d.bindings.countP Binding.isLiteral

/-- No consumer is bound to a wire that a literal takes. -/
def LiteralsApart (d : Design) : Prop :=
  ∀ b ∈ d.bindings, ∀ w ∈ b.reads?, 0 ≤ w ∨ w < -d.literalCount

instance (d : Design) : Decidable d.LiteralsApart :=
  inferInstanceAs (Decidable (∀ b ∈ d.bindings, ∀ w ∈ b.reads?, 0 ≤ w ∨ w < -d.literalCount))

/-- The wires of `g` are those of the design. -/
structure WiredAsBound (d : Design) (g : Network) : Prop where
  /-- A consumer on a wire has one driver, which is the one output that is bound to this wire. -/
  wire : ∀ {b c w}, (b, c) ∈ d.bindings.zip g.boundConns → b.reads? = some w → ∃ o, g.refsOf c = [o] ∧
    ∀ o', (∃ b', (b', o') ∈ d.bindings.zip g.boundConns ∧ b'.drives? = some w) ↔ o' = o
  /-- A literal has one driver, which is a constant of its value that drives nothing else. -/
  literal : ∀ {b c text}, (b, c) ∈ d.bindings.zip g.boundConns → b.bit = .literal text →
    ∃ n o value, Text.readNat? Text.bound32 text.toList = some value ∧ g.IsConstant n o value ∧
      g.refsOf c = [o] ∧ g.refsOf o = [c]
  /-- Two consumers share a driver if and only if they are bound to the same wire. -/
  shared : ∀ {b b' c c'}, (b, c) ∈ d.bindings.zip g.boundConns →
    (b', c') ∈ d.bindings.zip g.boundConns → b.direction ≠ .output → b'.direction ≠ .output → c ≠ c' →
    (g.refsOf c = g.refsOf c' ↔ ∃ w, b.bit = .wire w ∧ b'.bit = .wire w)

/-- Items of a list that differ in no order are the same item. -/
theorem eq_of_pairwise {R : Terminal → Terminal → Prop} {s t : Terminal} (hp : ts.Pairwise R)
    (hs : s ∈ ts) (ht : t ∈ ts) (hst : ¬ R s t) (hts : ¬ R t s) : s = t := by
  by_contra hne
  have hsymm : Std.Symm fun s t => R s t ∨ R t s := ⟨fun _ _ => Or.symm⟩
  have hpair : ts.Pairwise fun s t => R s t ∨ R t s := hp.imp Or.inl
  exact (hpair.forall hs ht hne).elim hst hts

theorem exists_entry_of_lookup {w : Int} {o : ConnId}
    (hl : (ts.filterMap Terminal.entry?).reverse.lookup w = some o) :
    ∃ t ∈ ts, t.entry? = some (w, o) := by
  obtain ⟨l, l', heq, -⟩ := lookup_eq_some_iff.mp hl
  have hmem : (w, o) ∈ (ts.filterMap Terminal.entry?).reverse := by simp [heq]
  exact mem_filterMap.mp (mem_reverse.mp hmem)

/-- A constant has one connection, and it is an output. -/
theorem Built.not_constant_of_isSink (h : d.Built g) (hc : c ∈ g.connsOf m)
    (hs : g.isSink c) : g.kindOf? m ≠ some .constant := by
  intro hk
  obtain ⟨o, ho, hdir⟩ := h.constants hk
  rw [ho, mem_singleton] at hc
  rw [hc, isSink, hdir] at hs
  cases hs

/-- Besides constants, all nodes that have connections are those of the design and its cells. -/
theorem Built.mem_boundNodes (h : d.Built g) (hc : c ∈ g.connsOf m)
    (hk : g.kindOf? m ≠ some .constant) : m ∈ g.boundNodes := by
  rcases h.sound.inUse hc with rfl | hm | hm | hm
  · exact mem_cons_self
  · refine mem_cons_of_mem _ (mem_filter.mpr ⟨hm, ?_⟩)
    rw [Bool.not_eq_true', Bool.eq_false_iff]
    intro hconst
    obtain ⟨k, hk', hconst⟩ := hasKind_iff.mp hconst
    exact hk (hk'.trans (congrArg some (of_decide_eq_true hconst)))
  · simp [h.pins] at hm
  · simp [h.pinNodes] at hm

namespace Bound

variable {s t : Terminal} {w w' : Int} {o c : ConnId} (h : d.Bound ts g)
include h

/-! ## The table of drivers -/

theorem mem_zip : (b, c) ∈ d.bindings.zip g.boundConns ↔ ∃ t ∈ ts, t.binding = b ∧ t.conn = c := by
  rw [← h.bindings, ← h.conns, zip_map', mem_map]
  simp only [Prod.mk.injEq]

theorem labelled (hb : (b, c) ∈ d.bindings.zip g.boundConns) : g.Labelled (b.name, b.direction) c := by
  obtain ⟨t, ht, rfl, rfl⟩ := h.mem_zip.mp hb
  exact (h.fits t ht).1

/-- No two terminals are the same connection. -/
theorem conn_inj (hg : g.Owned) (hs : s ∈ ts) (ht : t ∈ ts) (heq : s.conn = t.conn) : s = t := by
  have hnd := hg.nodup_boundConns
  rw [← h.conns] at hnd
  exact inj_on_of_nodup_map hnd hs ht heq

/-- No connection has two bindings. -/
theorem binding_inj (hg : g.Owned) {b b' : Binding} (hb : (b, c) ∈ d.bindings.zip g.boundConns)
    (hb' : (b', c) ∈ d.bindings.zip g.boundConns) : b = b' := by
  obtain ⟨t, ht, rfl, hc⟩ := h.mem_zip.mp hb
  obtain ⟨t', ht', rfl, hc'⟩ := h.mem_zip.mp hb'
  rw [h.conn_inj hg ht ht' (hc.trans hc'.symm)]

/-- No two terminals enter the same connection. -/
theorem entry_inj (hs : s ∈ ts) (ht : t ∈ ts) (hes : s.entry? = some (w, o))
    (het : t.entry? = some (w', o)) : s = t :=
  eq_of_pairwise h.apart hs ht (fun hap => (hap _ hes _ het).1 rfl) fun hap => (hap _ het _ hes).1 rfl

/-- No two outputs are on the same wire. -/
theorem output_inj {o' : ConnId} (ho : .output n w o ∈ ts) (ho' : .output n' w o' ∈ ts) : o = o' := by
  have heq : Terminal.output n w o = .output n' w o' := eq_of_pairwise h.apart ho ho'
    (fun hap => (hap _ rfl _ rfl).2 rfl rfl) fun hap => (hap _ rfl _ rfl).2 rfl rfl
  cases heq
  rfl

theorem pairwise_index : ts.Pairwise fun s t => ∀ i, s.index? = some i → ∀ j, t.index? = some j → i ≠ j := by
  obtain ⟨k, hk⟩ := h.indices
  have hnd : (ts.filterMap Terminal.index?).Nodup := hk ▸ nodup_range
  exact pairwise_filterMap.mp hnd

/-- No two literals have the same index. -/
theorem index_inj (hs : s ∈ ts) (ht : t ∈ ts) (his : s.index? = some i) (hit : t.index? = some i) :
    s = t :=
  eq_of_pairwise h.pairwise_index hs ht (fun hne => hne _ his _ hit rfl) fun hne => hne _ hit _ his rfl

/-- The indices of the literals are those below their number. -/
theorem exists_literal_iff : (∃ t ∈ ts, t.index? = some i) ↔ i < d.literalCount := by
  obtain ⟨k, hk⟩ := h.indices
  have hcount : d.literalCount = k := by
    have hlen := congrArg List.length hk
    rw [length_range, length_filterMap_eq_countP] at hlen
    rw [literalCount, ← h.bindings, countP_map, ← hlen]
    apply countP_congr
    intro t _
    cases t <;> simp [Binding.isLiteral, Terminal.binding, Terminal.index?]
  rw [← mem_filterMap, hk, hcount, mem_range]

/-- A literal is not shadowed: what is entered for its wire last is its constant. -/
theorem lookup_literal {n : String} {i : Nat} (ht : .literal n text value i m o c ∈ ts) :
    (ts.filterMap Terminal.entry?).reverse.lookup (Terminal.literalWire i) = some o := by
  obtain ⟨pre, post, hts⟩ := append_of_mem ht
  rw [lookup_eq_some_iff]
  refine ⟨(post.filterMap Terminal.entry?).reverse, (pre.filterMap Terminal.entry?).reverse, ?_,
    fun e he => ?_⟩
  · simp [hts, Terminal.entry?]
  · obtain ⟨u, hu, hentry⟩ := mem_filterMap.mp (mem_reverse.mp he)
    have hap := h.apart
    have hidx := h.pairwise_index
    rw [hts, pairwise_append, pairwise_cons] at hap hidx
    -- a later output was checked against the table, and a later literal has another index
    cases u with
    | output n' w' o' =>
      have hne := (hap.2.1.1 _ hu _ rfl _ hentry).2 rfl
      simpa using hne
    | reader => cases hentry
    | literal n' text' value' j m' o' c' =>
      have hne := hidx.2.1.1 _ hu i rfl j rfl
      cases hentry
      simpa [Terminal.literalWire_inj] using hne

/-! ## Drivers -/

/-- What a consumer on a wire reads. -/
theorem reader_driver {n : String} (hr : .reader n dir w c ∈ ts) :
    ∃ o, g.refsOf c = [o] ∧ (ts.filterMap Terminal.entry?).reverse.lookup w = some o := by
  obtain ⟨o, hlook, hrefs⟩ := h.wired _ hr c w rfl
  exact ⟨o, hrefs, hlook⟩

/-- What a literal reads is its own constant. -/
theorem literal_driver {n : String} {i : Nat} (ht : .literal n text value i m o c ∈ ts) :
    g.refsOf c = [o] := by
  obtain ⟨o', hlook, hrefs⟩ := h.wired _ ht c _ rfl
  rw [h.lookup_literal ht] at hlook
  cases hlook
  exact hrefs

/-- Literals stay away from the wires of consumers, so a consumer is driven by an output. -/
theorem output_of_reader (ha : d.LiteralsApart) {n : String} (hr : .reader n dir w c ∈ ts) :
    ∃ o n', g.refsOf c = [o] ∧ .output n' w o ∈ ts := by
  obtain ⟨o, hrefs, hlook⟩ := h.reader_driver hr
  obtain ⟨t, ht, hentry⟩ := exists_entry_of_lookup hlook
  cases t with
  | output n' w' o' =>
    cases hentry
    exact ⟨o, n', hrefs, ht⟩
  | reader => cases hentry
  | literal n' text value i m o' c' =>
    cases hentry
    have hi : i < d.literalCount := h.exists_literal_iff.mp ⟨_, ht, rfl⟩
    have hb : (⟨n, dir, .wire (Terminal.literalWire i)⟩ : Binding) ∈ d.bindings := by
      rw [← h.bindings]
      exact mem_map.mpr ⟨_, hr, rfl⟩
    have := ha _ hb _ (Binding.reads?_eq_some.mpr ⟨(h.fits _ hr).2, rfl⟩)
    unfold Terminal.literalWire at this
    omega

/-- Consumers with the same driver read the same wire. -/
theorem read_wire_inj (hs : s ∈ ts) (ht : t ∈ ts) (hrs : s.read? = some (c, w))
    (hrt : t.read? = some (c', w')) (heq : g.refsOf c = g.refsOf c') : w = w' := by
  obtain ⟨o, hlook, hrefs⟩ := h.wired s hs c w hrs
  obtain ⟨o', hlook', hrefs'⟩ := h.wired t ht c' w' hrt
  rw [hrefs, hrefs', singleton_inj] at heq
  subst heq
  obtain ⟨u, hu, hentry⟩ := exists_entry_of_lookup hlook
  obtain ⟨u', hu', hentry'⟩ := exists_entry_of_lookup hlook'
  rw [h.entry_inj hu hu' hentry hentry', hentry'] at hentry
  cases hentry
  rfl

/-- Consumers on one wire have the same driver. -/
theorem refsOf_eq_of_wire {dir dir' : Direction} (hr : .reader n dir w c ∈ ts)
    (hr' : .reader n' dir' w c' ∈ ts) : g.refsOf c = g.refsOf c' := by
  obtain ⟨o, hrefs, hlook⟩ := h.reader_driver hr
  obtain ⟨o', hrefs', hlook'⟩ := h.reader_driver hr'
  rw [hlook] at hlook'
  cases hlook'
  rw [hrefs, hrefs']

/-- If literals are kept apart, no consumer on a wire has the driver of a literal. -/
theorem reader_ne_literal (ha : d.LiteralsApart) {n n' : String} {i : Nat}
    (hr : .reader n dir w c ∈ ts) (ht : .literal n' text value i m o c' ∈ ts) :
    g.refsOf c ≠ g.refsOf c' := by
  intro heq
  obtain ⟨o', n'', hrefs, houtput⟩ := h.output_of_reader ha hr
  rw [hrefs, h.literal_driver ht, singleton_inj] at heq
  subst heq
  cases h.entry_inj houtput ht rfl rfl

/-- What can be driven is bound. -/
theorem exists_terminal_of_isSink (hg : d.Built g) (hc : c ∈ g.connsOf m) (hs : g.isSink c) :
    ∃ t ∈ ts, t.conn = c := by
  have hm := hg.mem_boundNodes hc (hg.not_constant_of_isSink hc hs)
  have hbound : c ∈ g.boundConns := mem_flatMap.mpr ⟨m, hm, hc⟩
  rw [← h.conns] at hbound
  exact mem_map.mp hbound

/-- A terminal that is no output reads. -/
theorem exists_read_of_isSink (ht : t ∈ ts) (hs : g.isSink t.conn) : ∃ w, t.read? = some (t.conn, w) := by
  cases t with
  | output n w c =>
    have hdir := (h.fits _ ht).1.2
    rw [isSink, hdir] at hs
    cases hs
  | reader n dir w c => exact ⟨w, rfl⟩
  | literal n text value i m o c => exact ⟨_, rfl⟩

/-- If literals are kept apart, the constant of a literal drives nothing else. -/
theorem literal_consumers (ha : d.LiteralsApart) (hg : d.Built g) {n : String} {i : Nat}
    (ht : .literal n text value i m o c ∈ ts) : g.refsOf o = [c] := by
  have hrefs := h.literal_driver ht
  have hmem : c ∈ g.refsOf o := hg.sound.mirror (by simp [hrefs])
  have hout : g.isOutput o := by
    have hconst := (h.fits _ ht).2.2
    obtain ⟨o', ho', hdir⟩ := hg.constants hconst.kind
    rw [hconst.conns, singleton_inj] at ho'
    rw [isOutput, ho', hdir]
    rfl
  have hall : ∀ x ∈ g.refsOf o, x = c := by
    intro x hx
    have hxs := hg.sound.sink_of_output hx hout
    have hxr := hg.sound.refsOf_consumer hout hx
    obtain ⟨k, hk⟩ := hg.sound.listed (hg.sound.mirror hx)
    obtain ⟨u, hu, rfl⟩ := h.exists_terminal_of_isSink hg hk hxs
    obtain ⟨w, hread⟩ := h.exists_read_of_isSink hu hxs
    have hw := h.read_wire_inj hu ht hread rfl (hxr.trans hrefs.symm)
    cases u with
    | output => cases hread
    | reader n' dir w' c' => exact absurd (hxr.trans hrefs.symm) (h.reader_ne_literal ha hu ht)
    | literal n' text' value' j m' o' c' =>
      cases hread
      cases h.index_inj hu ht rfl (congrArg some (Terminal.literalWire_inj.mp hw).symm)
      rfl
  by_contra hne
  rcases ((hg.sound.nodup_refs o).ne_singleton_iff c).mp hne with hnil | ⟨x, hx, hxc⟩
  · simp [hnil] at hmem
  · exact hxc (hall x hx)

/-! ## Wired as bound -/

/-- If literals keep to themselves, the network is wired as the design says. -/
theorem wiredAsBound (ha : d.LiteralsApart) (hg : d.Built g) : d.WiredAsBound g where
  wire {b c w} hmem hreads := by
    obtain ⟨hdir, hbit⟩ := Binding.reads?_eq_some.mp hreads
    obtain ⟨t, ht, rfl, rfl⟩ := h.mem_zip.mp hmem
    cases t with
    | output => exact absurd rfl hdir
    | literal => cases hbit
    | reader n dir w' c =>
      cases hbit
      obtain ⟨o, n', hrefs, ho⟩ := h.output_of_reader ha ht
      refine ⟨o, hrefs, fun o' => ⟨?_, ?_⟩⟩
      · rintro ⟨b', hmem', hdrives⟩
        obtain ⟨u, hu, rfl, rfl⟩ := h.mem_zip.mp hmem'
        obtain ⟨n'', c'', rfl⟩ := (h.fits _ hu).eq_output hdrives
        exact h.output_inj hu ho
      · rintro rfl
        exact ⟨_, h.mem_zip.mpr ⟨_, ho, rfl, rfl⟩, rfl⟩
  literal {b c text} hmem hbit := by
    obtain ⟨t, ht, rfl, rfl⟩ := h.mem_zip.mp hmem
    cases t with
    | output => cases hbit
    | reader => cases hbit
    | literal n text' value i m o c =>
      cases hbit
      obtain ⟨hvalue, hconst⟩ := (h.fits _ ht).2
      exact ⟨m, o, value, hvalue, hconst, h.literal_driver ht, h.literal_consumers ha hg ht⟩
  shared {b b' c c'} hmem hmem' hdir hdir' hne := by
    obtain ⟨s, hs, rfl, rfl⟩ := h.mem_zip.mp hmem
    obtain ⟨t, ht, rfl, rfl⟩ := h.mem_zip.mp hmem'
    cases s with
    | output => exact absurd rfl hdir
    | reader n dir w c =>
      cases t with
      | output => exact absurd rfl hdir'
      | reader n' dir' w' c' =>
        refine ⟨fun heq => ⟨w, rfl, ?_⟩, ?_⟩
        · rw [h.read_wire_inj hs ht rfl rfl heq]
          rfl
        · rintro ⟨_, ⟨⟩, ⟨⟩⟩
          exact h.refsOf_eq_of_wire hs ht
      | literal n' text' value' i m o c' =>
        refine ⟨fun heq => (h.reader_ne_literal ha hs ht heq).elim, ?_⟩
        rintro ⟨_, -, ⟨⟩⟩
    | literal n text value i m o c =>
      cases t with
      | output => exact absurd rfl hdir'
      | reader n' dir' w' c' =>
        refine ⟨fun heq => (h.reader_ne_literal ha ht hs heq.symm).elim, ?_⟩
        rintro ⟨_, ⟨⟩, -⟩
      | literal n' text' value' j m' o' c' =>
        -- every literal has a wire of its own
        refine ⟨fun heq => absurd ?_ hne, ?_⟩
        · have hw := Terminal.literalWire_inj.mp (h.read_wire_inj hs ht rfl rfl heq)
          rw [h.index_inj hs ht rfl (congrArg some hw.symm)]
        · rintro ⟨_, ⟨⟩, -⟩

/-- If a literal takes the wire of a consumer, the two share a driver. -/
theorem literalsApart (hw : d.WiredAsBound g) (hg : g.Owned) : d.LiteralsApart := by
  intro b hb w hreads
  obtain ⟨hdir, hbit⟩ := Binding.reads?_eq_some.mp hreads
  rw [← h.bindings] at hb
  obtain ⟨t, ht, rfl⟩ := mem_map.mp hb
  by_contra hnot
  have hwire : Terminal.literalWire (-1 - w).toNat = w ∧ (-1 - w).toNat < d.literalCount := by
    unfold Terminal.literalWire
    omega
  obtain ⟨u, hu, hindex⟩ := h.exists_literal_iff.mpr hwire.2
  cases u with
  | output => cases hindex
  | reader => cases hindex
  | literal n' text' value' i m o c' =>
    cases hindex
    cases t with
    | output => exact absurd rfl hdir
    | literal => cases hbit
    | reader n dir w' c =>
      cases hbit
      obtain ⟨o', hrefs, hlook⟩ := h.reader_driver ht
      rw [← hwire.1, h.lookup_literal hu] at hlook
      cases hlook
      have hne : c ≠ c' := fun heq => nomatch h.conn_inj hg ht hu heq
      obtain ⟨w'', -, hlit⟩ := (hw.shared (h.mem_zip.mpr ⟨_, ht, rfl, rfl⟩)
        (h.mem_zip.mpr ⟨_, hu, rfl, rfl⟩) hdir nofun hne).mp (hrefs.trans (h.literal_driver hu).symm)
      cases hlit

end Bound

/-- Every binding of a design becomes one connection, in order. These are wired as the design binds them
if and only if no consumer is bound to a wire that a literal takes. -/
theorem wiredAsBound_iff (hg : d.toNetwork name = .ok g) :
    List.Forall₂ (fun b c => g.Labelled (b.name, b.direction) c) d.bindings g.boundConns ∧
      (d.WiredAsBound g ↔ d.LiteralsApart) := by
  have hbuilt := built_toNetwork hg
  obtain ⟨ts, h⟩ := exists_bound hg
  refine ⟨?_, fun hw => h.literalsApart hw hbuilt.sound.toOwned, fun ha => h.wiredAsBound ha hbuilt⟩
  rw [← h.bindings, ← h.conns, forall₂_map_left_iff, forall₂_map_right_iff,
    forall₂_same]
  exact fun t ht => (h.fits t ht).1

/-- An inverter of a literal beside a port that is passed on. The number of the wire between the ports is
given. -/
def passedOn (w : Int) : Design where
  ports := .ofList [("a", ⟨"input", [.wire w]⟩), ("y", ⟨"output", [.wire w]⟩)]
  cells := .ofList [("n", ⟨"$_NOT_", .ofList [("A", "input"), ("Y", "output")],
    .ofList [("A", [.literal "0"]), ("Y", [.wire 5])]⟩)]
  nets := .empty

/-- On the wire -2 the port is passed on, since the one literal takes the wire -1. -/
theorem wiredAsBound_iff_passedOn : ∃ g, (passedOn (-2)).toNetwork "m" = .ok g ∧
    List.Forall₂ (fun b c => g.Labelled (b.name, b.direction) c) (passedOn (-2)).bindings g.boundConns ∧
      (passedOn (-2)).WiredAsBound g := by
  obtain ⟨g, hg⟩ := Attempt.exists_of_isOk (x := (passedOn (-2)).toNetwork "m") (by decide +kernel)
  have hspec := wiredAsBound_iff hg
  exact ⟨g, hg, hspec.1, hspec.2.mpr (by decide +kernel)⟩

/-- On the wire -1 the port is cut off, and the literal is read in its place. -/
theorem not_wiredAsBound_passedOn : ∃ g, (passedOn (-1)).toNetwork "m" = .ok g ∧
    ¬ (passedOn (-1)).WiredAsBound g := by
  obtain ⟨g, hg⟩ := Attempt.exists_of_isOk (x := (passedOn (-1)).toNetwork "m") (by decide +kernel)
  obtain ⟨ts, h⟩ := exists_bound hg
  refine ⟨g, hg, fun hw => ?_⟩
  have hnot : ¬ (passedOn (-1)).LiteralsApart := by decide +kernel
  exact hnot (h.literalsApart hw (built_toNetwork hg).sound.toOwned)

end Design

end PldSynth
