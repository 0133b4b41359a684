import PldSynth.Proofs.Network.Progress

/-!
# Splicing conserves consumers

`putPinNode` puts a node between an output and its consumers, and `moveConsumers` hands the consumers of an
output to another node. Both take the list of the output away first and repair the other ends one consumer
at a time. Here is what they do to a network of which nothing is known but that its wires are written down
on both ends: no consumer is lost, and no other connection is touched.

An output may list a consumer twice. A pin node that is put in then lists it twice as well, while a node
that the consumers are handed to lists it once.
-/

namespace PldSynth.Network

open Attempt List

variable {g g' g1 g2 : Network} {n t : NodeId} {c d x o out : ConnId} {source : Node}

/-! ## Putting in a pin node -/

/-- A pin node that is put in leaves every wire written down on both ends. -/
theorem PutsPinNode.mirrored (h : PutsPinNode o source g g') (hg : g.Mirrored) (ho : g.isOutput o)
    (hcons : ∀ c ∈ g.refsOf o, g.isSink c ∧ g.refsOf c = [o]) : g'.Mirrored := by
  have hso := isSome_of_isOutput ho
  have hput := ne_put hso
  have hself : o ∉ g.refsOf o := fun hm => ne_of_isSink (hcons o hm).1 ho rfl
  intro c d hd
  rw [h.refsOf hso hg] at hd ⊢
  split at hd
  · -- the new output has the consumers
    rename_i hc
    have hne := ne_put (isSome_of_isSink (hcons d hd).1)
    have hdo : d ≠ o := fun e => hself (e ▸ hd)
    rw [if_neg hne.1, if_neg hne.2, if_neg hdo, if_pos hd, hc]
    exact mem_singleton_self _
  split at hd
  · rename_i hc
    rw [mem_singleton.mp hd, if_neg hput.1, if_neg hput.2, if_pos rfl, hc]
    exact mem_singleton_self _
  split at hd
  · rename_i hc
    rw [mem_singleton.mp hd, if_neg putOut_ne_putIn.symm, if_pos rfl, hc]
    exact mem_singleton_self _
  split at hd
  · rename_i hc
    rw [mem_singleton.mp hd, if_pos rfl]
    exact hc
  · -- neither end of any other wire is touched
    rename_i hco hc
    have hcd := hg hd
    have hne := ne_put (isSome_of_mem_refsOf hcd)
    have hdo : d ≠ o := fun e => hc (e ▸ hcd)
    have hdc : d ∉ g.refsOf o := by
      intro hm
      rw [(hcons d hm).2, mem_singleton] at hcd
      exact hco hcd
    rwa [if_neg hne.1, if_neg hne.2, if_neg hdo, if_neg hdc]

/-- What putting a pin node behind an output comes to. -/
theorem exists_puts (ho : g.isOutput o) (hn : g.ownerOf? o = some n) (hsource : g.node? n = some source)
    (hcons : ∀ c ∈ g.refsOf o, g.isSink c ∧ g.refsOf c = [o]) :
    ∃ g', g.putPinNode o = .ok (g.nextNode, g') ∧ PutsPinNode o source g g' := by
  have hsole : ∀ c ∈ g.refsOf o, g.isSink c ∧ (g.refsOf c).length ≤ 1 := by
    intro c hc
    rw [(hcons c hc).2]
    exact ⟨(hcons c hc).1, Nat.le_refl 1⟩
  obtain ⟨r, hr⟩ := exists_putPinNode_of_consumers ho hn (by rw [hsource]; rfl) hsole
  obtain ⟨m, source', hm, hsource', hnew, hputs⟩ := puts_putPinNode_of_consumers
    (fun c hc => ⟨isSome_of_isSink (hcons c hc).1, ne_of_isSink (hcons c hc).1 ho⟩) hr
  obtain rfl : n = m := Option.mem_unique hn hm
  obtain rfl : source = source' := Option.mem_unique hsource hsource'
  exact ⟨r.2, by rw [hr, ← hnew], hputs⟩

/-! ## Moving consumers -/

theorem conns_moveConsumer (h : moveConsumer t o out g c = .ok g') : g' = { g with conns := g'.conns } := by
  simp only [moveConsumer, bind_eq_ok] at h
  obtain ⟨y, -, h⟩ := h
  split at h
  · cases pure_eq_ok.mp h
    rfl
  · split at h <;> cases pure_eq_ok.mp h <;> rfl

/-- Moving consumers changes nothing but connections. -/
theorem conns_foldlM_moveConsumer {l : List ConnId} (h : l.foldlM (moveConsumer t o out) g = .ok g') :
    g' = { g with conns := g'.conns } := by
  refine foldlM_invariant (P := fun s : Network => s = { g with conns := s.conns }) ?_ rfl h
  intro s c s' _ hs hstep
  calc
    s' = { s with conns := s'.conns } := conns_moveConsumer hstep
    _ = { g with conns := s'.conns } := congrArg (fun u : Network => { u with conns := s'.conns }) hs

/-- `g'` is `g` after the consumers of `o` were moved to `out`, an output of `t`, and nothing else was
done. -/
structure Redirected (t : NodeId) (o out : ConnId) (g g' : Network) : Prop where
  /-- The output has no consumers left. -/
  emptied : g'.refsOf o = []
  /-- The consumers that do not belong to `t` follow those that `out` had, in their order. -/
  appended : g'.refsOf out = g.refsOf out ++ ((g.refsOf o).filter (g.ownerOf? · ≠ some t)).eraseDups
  moved : ∀ c ∈ g.refsOf o, g.ownerOf? c ≠ some t → g'.refsOf c = [out]
  unwired : ∀ c ∈ g.refsOf o, g.ownerOf? c = some t → g'.refsOf c = []
  others : ∀ x, x ≠ o → x ≠ out → x ∉ g.refsOf o → g'.refsOf x = g.refsOf x
  /-- Of a connection nothing but its wires is changed. -/
  records : ∀ x, g'.conn? x = (g.conn? x).map fun y => { y with refs := g'.refsOf x }
  /-- Nothing but connections is changed. -/
  frame : g' = { g with conns := g'.conns }

namespace Redirected

/-- Every wire is still written down on both ends. -/
theorem mirrored (h : Redirected t o out g g') (hg : g.Mirrored)
    (hcons : ∀ c ∈ g.refsOf o, g.refsOf c = [o]) : g'.Mirrored := by
  -- a connection that lists anything but `o` is not a consumer
  have hother : ∀ {x y}, y ∈ g.refsOf x → y ≠ o → x ∉ g.refsOf o := by
    intro x y hy hyo hm
    rw [hcons x hm, mem_singleton] at hy
    exact hyo hy
  intro c d hd
  by_cases hco : c = o
  · rw [hco, h.emptied] at hd
    cases hd
  by_cases hm : c ∈ g.refsOf o
  · by_cases ht : g.ownerOf? c = some t
    · rw [h.unwired c hm ht] at hd
      cases hd
    · rw [h.moved c hm ht, mem_singleton] at hd
      rw [hd, h.appended]
      exact mem_append_right _ (mem_eraseDups.mpr (mem_filter.mpr ⟨hm, by simpa using ht⟩))
  -- the wires that were there before
  have hold : d ∈ g.refsOf c → c ∈ g'.refsOf d := by
    intro hd
    have hcd := hg hd
    have hdo : d ≠ o := fun e => hm (e ▸ hcd)
    have hdm : d ∉ g.refsOf o := hother hcd hco
    by_cases hdout : d = out
    · rw [hdout, h.appended]
      exact mem_append_left _ (hdout ▸ hcd)
    · rwa [h.others d hdo hdout hdm]
  by_cases hcout : c = out
  · rw [hcout, h.appended, mem_append, mem_eraseDups, mem_filter] at hd
    rcases hd with hd | ⟨hd, ht⟩
    · exact hold (hcout ▸ hd)
    · rw [h.moved d hd (by simpa using ht), hcout]
      exact mem_singleton_self _
  · rw [h.others c hco hcout hm] at hd
    exact hold hd

end Redirected

theorem Supplies.mirrored (h : Supplies t out g g2) (hg : g.Mirrored) : g2.Mirrored := by
  intro c d hd
  rw [h.refsOf] at hd ⊢
  exact hg hd

theorem Supplies.filter_ownerOf? (h : Supplies t out g g2) {l : List ConnId}
    (hl : ∀ c ∈ l, (g.conn? c).isSome) :
    l.filter (g2.ownerOf? · ≠ some t) = l.filter (g.ownerOf? · ≠ some t) :=
  filter_congr fun c hc => by rw [h.ownerOf?_of_isSome (hl c hc)]

/-- What the loop over the consumers does, once the output is there. -/
theorem Supplies.redirected (h : Supplies t out g g2) (ho : g.isOutput o)
    (hcons : ∀ c ∈ g.refsOf o, g.isSink c ∧ g.refsOf c = [o]) (hout : out ≠ o)
    (hr : Rewires (g.movedOnce t o out) g2 g') (hframe : g' = { g2 with conns := g'.conns }) :
    Redirected t o out g2 g' := by
  have hsome : ∀ c ∈ g.refsOf o, (g.conn? c).isSome := fun c hc => isSome_of_isSink (hcons c hc).1
  have hrefs : ∀ x, g'.refsOf x = g.movedOnce t o out x (g.refsOf x) := fun x =>
    h.refsOf_movedOnce hsome hr
  have hown : ∀ c ∈ g.refsOf o, g2.ownerOf? c = g.ownerOf? c := fun c hc =>
    h.ownerOf?_of_isSome (hsome c hc)
  -- a consumer is neither the output that it leaves nor the one that it gets
  have hconsumer : ∀ c ∈ g.refsOf o, g'.refsOf c = if g.ownerOf? c = some t then [] else [out] := by
    intro c hc
    have hsink := (hcons c hc).1
    have hsink2 : g2.isSink c := (h.isSink_of_isSome (hsome c hc)).trans hsink
    rw [hrefs, movedOnce, if_neg (ne_of_isSink hsink ho), if_neg (ne_of_isSink hsink2 h.isOutput_out),
      if_pos hc]
  constructor
  · rw [hrefs, movedOnce, if_pos rfl]
  · rw [hrefs, movedOnce, if_neg hout, if_pos rfl, h.refsOf, h.refsOf, h.filter_ownerOf? hsome]
  · intro c hc ht
    rw [h.refsOf] at hc
    rw [hconsumer c hc, if_neg (hown c hc ▸ ht)]
  · intro c hc ht
    rw [h.refsOf] at hc
    rw [hconsumer c hc, if_pos (hown c hc ▸ ht)]
  · intro x hxo hxout hx
    rw [h.refsOf] at hx ⊢
    rw [hrefs, movedOnce, if_neg hxo, if_neg hxout, if_neg hx]
  · intro x
    rw [hr.conn? x]
    cases hx : g2.conn? x with
    | none => rfl
    | some y =>
      rw [hrefs x, ← h.refsOf, refsOf_of_conn? hx]
      rfl
  · exact hframe

/-- Where no consumer is listed twice, all of them follow that do not belong to `t`. -/
theorem Redirected.appended_of_nodup (h : Redirected t o out g1 g') (hs : Supplies t out g g1)
    (hsome : ∀ c ∈ g.refsOf o, (g.conn? c).isSome) (hnd : (g.refsOf o).Nodup) :
    g'.refsOf out = g.refsOf out ++ (g.refsOf o).filter (g.ownerOf? · ≠ some t) := by
  rw [h.appended, hs.refsOf, hs.refsOf, hs.filter_ownerOf? hsome, eraseDups_of_nodup (hnd.filter _)]

/-- What moving the consumers of an output comes to. -/
theorem exists_redirected (hg : g.Mirrored) (ho : g.isOutput o)
    (hcons : ∀ c ∈ g.refsOf o, g.isSink c ∧ g.refsOf c = [o]) (ht : (g.node? t).isSome)
    (hfirst : (g.connsOf t).find? g.isOutput ≠ some o) :
    ∃ g', g.moveConsumers t o = .ok g' ∧ (g.refsOf o = [] ∧ g' = g ∨
      g.refsOf o ≠ [] ∧ ∃ out g1, Supplies t out g g1 ∧ Redirected t o out g1 g') := by
  obtain ⟨g', hg'⟩ := exists_moveConsumers_of_mirrored hg ho ht
  refine ⟨g', hg', ?_⟩
  refine ((moveConsumers_eq_ok ho).mp hg').imp_right ?_
  rintro ⟨hne, out, g1, h1, hrun⟩
  obtain ⟨g2, hs, hr, hcut⟩ := (supplies_ensureOutput h1).swap (isSome_of_isOutput ho)
  have hout : out ≠ o := hs.out_ne_of_find? (isSome_of_isOutput ho) hfirst
  have hframe : g' = { g2 with conns := g'.conns } := by
    calc
      g' = { g1 with conns := g'.conns } := conns_foldlM_moveConsumer hrun
      _ = { g2 with conns := g'.conns } := congrArg (fun u : Network => { u with conns := g'.conns }) hcut
  have hmoved := hs.rewires_movedOnce hg ho hcons hout hr hrun
  exact ⟨hne, out, g2, hs, hs.redirected ho hcons hout hmoved hframe⟩

/-- A node that is not the owner of an output does not list it, if what it lists names it. -/
theorem find?_ne_of_ne_owner (hn : g.ownerOf? o = some n) (hne : t ≠ n)
    (hlist : ∀ c ∈ g.connsOf t, g.ownerOf? c = some t) : (g.connsOf t).find? g.isOutput ≠ some o := by
  intro hfind
  have ht := hlist o (mem_of_find?_eq_some hfind)
  exact hne (Option.some.inj (ht.symm.trans hn))

/-! ## Both edits -/

/-- Let the wires of a network be written down on both ends, and let every consumer of an output be able to
be driven and read nothing else. Then a pin node can be put behind the output, and the consumers can be
moved to any node that does not have this output as its first one. Either way every consumer is accounted
for and no other connection is touched. All nodes but the owner of the output are such nodes, where what
a node lists names it as its owner. -/
theorem consumers_conserved (hg : g.Mirrored) (ho : g.isOutput o) (hn : g.ownerOf? o = some n)
    (hsource : g.node? n = some source) (hcons : ∀ c ∈ g.refsOf o, g.isSink c ∧ g.refsOf c = [o]) :
    (∃ g', g.putPinNode o = .ok (g.nextNode, g') ∧ PutsPinNode o source g g' ∧ g'.Mirrored ∧
      g'.refsOf o = [g.putIn] ∧ g'.refsOf g.putIn = [o] ∧ g'.refsOf g.putOut = g.refsOf o ∧
      (∀ c ∈ g.refsOf o, g'.refsOf c = [g.putOut]) ∧
      ∀ x, (g.conn? x).isSome → x ≠ o → x ∉ g.refsOf o → g'.conn? x = g.conn? x) ∧
    (∀ t, (g.node? t).isSome → (g.connsOf t).find? g.isOutput ≠ some o →
      ∃ g', g.moveConsumers t o = .ok g' ∧ g'.Mirrored ∧ g'.refsOf o = [] ∧
        (g.refsOf o = [] ∧ g' = g ∨
          g.refsOf o ≠ [] ∧ ∃ out g1, Supplies t out g g1 ∧ Redirected t o out g1 g' ∧
            ((g.refsOf o).Nodup →
              g'.refsOf out = g.refsOf out ++ (g.refsOf o).filter (g.ownerOf? · ≠ some t)))) ∧
    ∀ t, t ≠ n → (∀ c ∈ g.connsOf t, g.ownerOf? c = some t) →
      (g.connsOf t).find? g.isOutput ≠ some o := by
  refine ⟨?_, ?_, fun t => find?_ne_of_ne_owner hn⟩
  · -- a pin node comes between the output and its consumers
    obtain ⟨g', hrun, hputs⟩ := exists_puts ho hn hsource hcons
    have hso := isSome_of_isOutput ho
    have hput := ne_put hso
    have hrefs : ∀ x, g'.refsOf x = _ := fun x => hputs.refsOf hso hg
    refine ⟨g', hrun, hputs, hputs.mirrored hg ho hcons, ?_, ?_, ?_, fun c hc => ?_, fun x hx hxo hxc => ?_⟩
    · rw [hrefs, if_neg hput.1, if_neg hput.2, if_pos rfl]
    · rw [hrefs, if_neg putOut_ne_putIn.symm, if_pos rfl]
    · rw [hrefs, if_pos rfl]
    · have hsink := (hcons c hc).1
      have hne := ne_put (isSome_of_isSink hsink)
      rw [hrefs, if_neg hne.1, if_neg hne.2, if_neg (ne_of_isSink hsink ho), if_pos hc]
    · have hne := ne_put hx
      rw [hputs.conn?, if_neg hne.1, if_neg hne.2]
      simp [hxo, hxc]
  · -- the consumers move to an output of `t`
    intro t ht hfirst
    obtain ⟨g', hrun, h⟩ := exists_redirected hg ho hcons ht hfirst
    obtain ⟨hnil, rfl⟩ | ⟨hne, out, g1, hs, hred⟩ := h
    · exact ⟨g', hrun, hg, hnil, .inl ⟨hnil, rfl⟩⟩
    · have hcons1 : ∀ c ∈ g1.refsOf o, g1.refsOf c = [o] := by
        intro c hc
        rw [hs.refsOf] at hc ⊢
        exact (hcons c hc).2
      have hsome : ∀ c ∈ g.refsOf o, (g.conn? c).isSome := fun c hc => isSome_of_isSink (hcons c hc).1
      exact ⟨g', hrun, hred.mirrored (hs.mirrored hg) hcons1, hred.emptied,
        .inr ⟨hne, out, g1, hs, hred, hred.appended_of_nodup hs hsome⟩⟩

/-- The output of `a` drives `c`, the pin node `b` and the pin `d`, which is bidirectional. `b` has no
output yet. -/
def fork : Network where
  nodes := ⟨#[{ name := "m", kind := .design },
    { name := "a", kind := .inverter, conns := [⟨0⟩] },
    { name := "b", kind := .pinNode, conns := [⟨1⟩] },
    { name := "c", kind := .inverter, conns := [⟨2⟩, ⟨3⟩] },
    { name := "d", kind := .pin, conns := [⟨4⟩] }]⟩
  conns := ⟨#[⟨⟨1⟩, .output, "Y", [⟨2⟩, ⟨1⟩, ⟨4⟩]⟩, ⟨⟨2⟩, .input, "_PIN_IN", [⟨0⟩]⟩,
    ⟨⟨3⟩, .input, "A", [⟨0⟩]⟩, ⟨⟨3⟩, .output, "Y", []⟩, ⟨⟨4⟩, .bidirectional, "D", [⟨0⟩]⟩]⟩
  cells := [⟨1⟩, ⟨3⟩]
  pins := [⟨4⟩]
  pinNodes := [⟨2⟩]

/-- Put in, a pin node gets all three consumers. Moved to `b`, the consumer of `b` itself is cut off. -/
theorem consumers_conserved_fork : fork.Mirrored ∧
    (∃ g', fork.putPinNode ⟨0⟩ = .ok (⟨5⟩, g') ∧ g'.refsOf ⟨0⟩ = [⟨6⟩] ∧
      g'.refsOf ⟨5⟩ = [⟨2⟩, ⟨1⟩, ⟨4⟩] ∧ g'.refsOf ⟨4⟩ = [⟨5⟩]) ∧
    ∃ g', fork.moveConsumers ⟨2⟩ ⟨0⟩ = .ok g' ∧ g'.refsOf ⟨0⟩ = [] ∧ g'.refsOf ⟨1⟩ = [] ∧
      g'.refsOf ⟨5⟩ = [⟨2⟩, ⟨4⟩] ∧ g'.refsOf ⟨4⟩ = [⟨5⟩] := by
  have hmirror : fork.Mirrored := by
    have hall : ∀ i : Fin 5, ∀ d ∈ fork.refsOf ⟨i⟩, ⟨i⟩ ∈ fork.refsOf d := by decide
    intro c d hd
    have hc : c.index < 5 := conn?_isSome.mp (isSome_of_mem_refsOf hd)
    exact hall ⟨c.index, hc⟩ d hd
  have hcons : ∀ c ∈ fork.refsOf ⟨0⟩, fork.isSink c ∧ fork.refsOf c = [⟨0⟩] := by decide
  obtain ⟨⟨g', hput, -, -, ho, -, hout, hc, -⟩, hmove, hother⟩ :=
    consumers_conserved hmirror (by decide) rfl rfl hcons
  obtain ⟨g'', hrun, -, hnil, h⟩ := hmove ⟨2⟩ (by decide) (hother ⟨2⟩ (by decide) (by decide))
  refine ⟨hmirror, ⟨g', hput, ho, hout, hc ⟨4⟩ (by decide)⟩, g'', hrun, hnil, ?_⟩
  obtain ⟨hempty, -⟩ | ⟨-, out, g1, hs, hred, -⟩ := h
  · exact absurd hempty (by decide)
  cases hs with
  | had hfind =>
    have hnone : (fork.connsOf ⟨2⟩).find? fork.isOutput = none := by decide
    cases hfind
  | made _ _ hnew =>
    subst hnew
    exact ⟨hred.unwired ⟨1⟩ (by decide) (by decide), hred.appended.trans (by decide),
      hred.moved ⟨4⟩ (by decide) (by decide)⟩

end PldSynth.Network
