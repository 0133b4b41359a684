import PldSynth.Proofs.Network.Liveness
import PldSynth.Proofs.Network.Supply

/-!
# The walk finds every shared gate

The walk that names shared signals starts at the pins, the registers and the buffers and follows every
input to its driver. It enters a node once, so it comes to an end before its bound is used up, and then
every live gate was entered and has one reader only (`unshared_nameSharedOutputs`).

What holds on the way is `Walks`: whatever waits is needed, a node that was entered has inputs that wait
or were followed, and the driver of an input that was followed has one reader and is entered or waits.
-/

namespace PldSynth.Network

open Attempt List

variable {K : NodeKind → Bool} {g g' : Network} {n m e : NodeId} {c d o p : ConnId} {w w' : Walk}
  {items rest more : List Stop} {x : Stop} {source : Node} {k : NodeKind}

/-! ## What waits and what is done -/

/-- The node was entered or waits to be. -/
def Handled (w : Walk) (items : List Stop) (n : NodeId) : Prop :=
  w.entered.isNew n = false ∨ .node n ∈ items

/-- The connection was followed: a gate or constant that drives it drives nothing else and is
handled. -/
def Followed (w : Walk) (items : List Stop) (c : ConnId) : Prop :=
  ∀ ⦃o m⦄, o ∈ w.net.refsOf c → o ∈ w.net.connsOf m →
    w.net.hasKind NodeKind.isUnnamed m = true → (w.net.refsOf o).length ≤ 1 ∧ Handled w items m

/-- The node is there, and if it is a gate, it is live. -/
structure Due (g : Network) (n : NodeId) : Prop where
  isSome : (g.node? n).isSome
  output : g.hasKind NodeKind.isCombinational n = true →
    ∃ p ∈ g.connsOf n, g.isOutput p = true ∧ g.Live p

/-- What holds while the walk from `g` goes on. -/
structure Walks (K : NodeKind → Bool) (g : Network) (w : Walk) (items : List Stop) : Prop where
  tidy : w.net.Tidy K
  keeps : KeepsLogic g w.net
  conns : ∀ {n}, (g.node? n).isSome → w.net.connsOf n = g.connsOf n
  size : w.entered.flags.size = g.nodes.size
  nodes : ∀ {n}, .node n ∈ items → Due w.net n
  inputs : ∀ {c}, .input c ∈ items → ∃ n, c ∈ w.net.connsOf n ∧ w.net.isSink c = true ∧ Due w.net n
  covered : ∀ {n c}, w.entered.isNew n = false ∨ w.net.kindOf? n = some .pinNode →
    c ∈ w.net.connsOf n → w.net.isSink c = true → .input c ∈ items ∨ Followed w items c
  roots : ∀ {n c}, c ∈ w.net.connsOf n →
    w.net.hasKind (fun k => k.isSequential || k = .pin) n = true → Handled w items n
  live : ∀ {n p}, w.net.kindOf? n = some .pinNode → p ∈ w.net.connsOf n → w.net.isOutput p = true →
    w.net.Live p

/-- What is read on a node that is due is live. -/
theorem Due.live (hn : Due g n) (hg : g.Tidy K) (hc : c ∈ g.connsOf n) (hs : g.isSink c)
    (ho : o ∈ g.refsOf c) : g.Live o := by
  rcases hg.isBoundary_or_isCombinational hc hs with hk | hk
  · exact .leaves ⟨c, n, ⟨hc, hs, ho⟩, hk⟩
  · rcases hn.output hk with ⟨p, hp, hout, hlive⟩
    exact .gate ⟨hc, hs, ho⟩ hk hp hout hlive

/-- What is live is read on a node that is due. -/
theorem Live.exists_due (h : g.Live o) : ∃ c n, g.ReadAt o c n ∧ Due g n := by
  cases h with
  | leaves hl =>
    rcases hl with ⟨c, n, hr, hn⟩
    refine ⟨c, n, hr, isSome_of_hasKind hn, fun hk => ?_⟩
    rw [not_isCombinational_of_isBoundary hn] at hk
    cases hk
  | gate hr hn hp hout hlive => exact ⟨_, _, hr, isSome_of_hasKind hn, fun _ => ⟨_, hp, hout, hlive⟩⟩

theorem ReadAt.live (hr : g.ReadAt o c n) (hn : Due g n) (hg : g.Tidy K) : g.Live o :=
  hn.live hg hr.mem hr.sink hr.refs

theorem Due.keepsLogic (hn : Due g n) (hg : g.Owned) (h : KeepsLogic g g') : Due g' n := by
  refine ⟨h.evolves.node_isSome hn.isSome, fun hk => ?_⟩
  rw [h.evolves.hasKind hn.isSome] at hk
  rcases hn.output hk with ⟨p, hp, hout, hlive⟩
  refine ⟨p, by rwa [h.gates hk], (h.evolves.isOutput (hg.conn_isSome hp)).trans hout, ?_⟩
  exact (h.live_iff hg ⟨n, hk, hp, hout⟩).mpr hlive

/-- What waits or was entered goes on to do so, unless it is the item at hand. -/
theorem Handled.mono (h : Handled w (x :: rest) n)
    (hentered : w.entered.isNew n = false → w'.entered.isNew n = false)
    (hx : x = .node n → Handled w' (more ++ rest) n) : Handled w' (more ++ rest) n := by
  rcases h with h | h
  · exact .inl (hentered h)
  · rcases mem_cons.mp h with h | h
    · exact hx h.symm
    · exact .inr (mem_append_right _ h)

/-! ## Entering a node -/

/-- A node is entered if it is no pin node and was not entered before; then its inputs come up. -/
theorem enter_cases (h : w.enter n = .ok (w', more)) :
    w' = w ∧ more = [] ∧ (w.net.kindOf? n = some .pinNode ∨ w.entered.isNew n = false) ∨
      w.entered.isNew n ∧ w' = { w with entered := w.entered.insert n } ∧
        more = ((w.net.connsOf n).filter w.net.isSink).map .input := by
  simp only [Walk.enter, bind_eq_ok, nodeKind_eq_ok] at h
  rcases h with ⟨k, hk, h⟩
  split at h
  · rename_i hcase
    rw [pure_eq_ok, Prod.mk.injEq] at h
    refine .inl ⟨h.1.symm, h.2.symm, ?_⟩
    rw [Bool.or_eq_true, decide_eq_true_eq, Bool.not_eq_true'] at hcase
    rcases hcase with rfl | hold
    · exact .inl hk
    · exact .inr hold
  · rename_i hcase
    rw [Bool.or_eq_true, not_or] at hcase
    simp only [bind_eq_ok, pure_eq_ok, sinks_eq_ok, Prod.mk.injEq] at h
    rcases h with ⟨_, ⟨-, rfl⟩, rfl, rfl⟩
    exact .inr ⟨by simpa using hcase.2, rfl, rfl⟩

/-- The walk enters a node. -/
theorem Walks.enter (h : Walks K g w (.node n :: rest)) (hrun : w.enter n = .ok (w', more)) :
    Walks K g w' (more ++ rest) := by
  have hne : ∀ {c : ConnId}, Stop.input c ∈ Stop.node n :: rest → .input c ∈ more ++ rest := by
    intro c hc
    rcases mem_cons.mp hc with hc | hc
    · cases hc
    · exact mem_append_right _ hc
  rcases enter_cases hrun with ⟨rfl, rfl, hskip⟩ | ⟨hnew, rfl, rfl⟩
  · -- a pin node does not wait for anything
    have hmono : ∀ {m}, w'.net.kindOf? m ≠ some .pinNode → Handled w' (.node n :: rest) m →
        Handled w' ([] ++ rest) m := by
      intro m hm hh
      refine hh.mono (fun hold => hold) fun heq => ?_
      cases heq
      exact .inl (hskip.resolve_left hm)
    refine ⟨h.tidy, h.keeps, h.conns, h.size, fun hm => h.nodes (mem_cons_of_mem _ hm),
      fun hc => h.inputs (mem_cons_of_mem _ hc), fun hm hc hs => ?_, fun {m c} hc hk => ?_, h.live⟩
    · refine (h.covered hm hc hs).imp hne fun hf o m ho hom hk => ?_
      refine ⟨(hf ho hom hk).1, hmono (fun heq => ?_) (hf ho hom hk).2⟩
      rw [hasKind, heq] at hk
      cases hk
    · refine hmono (fun heq => ?_) (h.roots hc hk)
      rw [hasKind, heq] at hk
      cases hk
  · have hmono : ∀ {m}, Handled w (.node n :: rest) m →
        Handled { w with entered := w.entered.insert n }
          (((w.net.connsOf n).filter w.net.isSink).map .input ++ rest) m := by
      intro m hh
      refine hh.mono (NodeSet.isNew_insert n) fun heq => ?_
      cases heq
      exact .inl (NodeSet.isNew_insert_self n)
    refine ⟨h.tidy, h.keeps, h.conns, (NodeSet.size_insert _ _).trans h.size, fun {m} hm => ?_,
      fun {c} hc => ?_, fun {m c} hm hc hs => ?_, fun hc hk => hmono (h.roots hc hk), h.live⟩
    · rcases mem_append.mp hm with hm | hm
      · rcases mem_map.mp hm with ⟨_, -, heq⟩
        cases heq
      · exact h.nodes (mem_cons_of_mem _ hm)
    · rcases mem_append.mp hc with hc | hc
      · rcases mem_map.mp hc with ⟨_, hmem, heq⟩
        cases heq
        rcases mem_filter.mp hmem with ⟨hmem, hs⟩
        exact ⟨n, hmem, hs, h.nodes mem_cons_self⟩
      · exact h.inputs (mem_cons_of_mem _ hc)
    · by_cases hmn : m = n
      · subst hmn
        exact .inl (mem_append_left _ (mem_map.mpr ⟨c, mem_filter.mpr ⟨hc, hs⟩, rfl⟩))
      · rw [NodeSet.isNew_insert_of_ne hmn] at hm
        refine (h.covered hm hc hs).imp hne fun hf o k ho hok hk => ?_
        exact ⟨(hf ho hok hk).1, hmono (hf ho hok hk).2⟩

/-! ## Following an input -/

theorem isUnnamed_of_isCombinational (h : g.hasKind NodeKind.isCombinational n) :
    g.hasKind NodeKind.isUnnamed n := by
  rcases hasKind_iff.mp h with ⟨k, hk, hp⟩
  exact hasKind_of hk (NodeKind.isUnnamed_of_isCombinational hp)

theorem soleAt_of_length (hg : g.Sound) (h : (g.refsOf o).length ≤ 1) : g.SoleAt o := by
  intro c c' n n' hr hr'
  have hc := hg.mirror hr.refs
  have hc' := hg.mirror hr'.refs
  cases hrefs : g.refsOf o with
  | nil =>
    rw [hrefs] at hc
    cases hc
  | cons d l =>
    have hl : l = [] := by simpa [hrefs] using h
    rw [hrefs, hl, mem_singleton] at hc hc'
    rw [hc, hc']

/-- An output that gets a pin node had several readers. -/
theorem Shares.not_soleAt (hs : Shares o n source g g') (hg : g.Sound) : ¬ g.SoleAt o := by
  intro hsole
  have hread : ∀ {c}, c ∈ g.refsOf o → ∃ m, g.ReadAt o c m := by
    intro c hc
    rcases hg.listed (hg.mirror hc) with ⟨m, hm⟩
    exact ⟨m, hm, hg.sink_of_output hc hs.isOutput, hg.mirror hc⟩
  have hnodup := hg.nodup_refs o
  match hrefs : g.refsOf o, hs.shared with
  | c :: c' :: l, _ =>
    rcases hread (c := c) (by simp [hrefs]) with ⟨m, hr⟩
    rcases hread (c := c') (by simp [hrefs]) with ⟨m', hr'⟩
    rw [hrefs, hsole hr hr'] at hnodup
    simp at hnodup

/-- The output that gets a pin node drives nothing else, and every other output drives what it drove. -/
theorem Shares.refsOf_output (hs : Shares o n source g g') (hg : g.Sound) (hd : g.isOutput d) :
    g'.refsOf d = if d = o then [g.putIn] else g.refsOf d := by
  have hne := ne_put (isSome_of_isOutput hd)
  rw [hs.puts.refsOf (isSome_of_isOutput hs.isOutput) hg.mirror, if_neg hne.1, if_neg hne.2,
    if_neg (hg.not_mem_refsOf hs.isOutput hd)]

/-- So outputs that drove one connection at most do so afterwards. -/
theorem Shares.length_refsOf (hs : Shares o n source g g') (hg : g.Sound) (hd : g.isOutput d)
    (h : d = o ∨ (g.refsOf d).length ≤ 1) : (g'.refsOf d).length ≤ 1 := by
  rw [hs.refsOf_output hg hd]
  split
  · exact Nat.le_refl 1
  · rename_i hdo
    exact h.resolve_left hdo

/-- A connection that was followed counts as followed when an output gets a pin node, and so does every
reader of that output. -/
theorem Followed.shares (hs : Shares o n source w.net w'.net) (hg : w.net.Sound)
    (hcs : w.net.isSink c) (hmono : ∀ {m}, Handled w items m → Handled w' rest m)
    (h : Followed w items c ∨ c ∈ w.net.refsOf o) : Followed w' rest c := by
  intro d m hd hdm hk
  have hm : m ≠ w.net.nextNode := by
    rintro rfl
    rw [hasKind, hs.puts.kindOf?, if_pos rfl] at hk
    cases hk
  rw [hs.puts.refsOf_sink hg hs.isOutput hcs] at hd
  split at hd
  · -- the new pin node bears a name
    rw [mem_singleton] at hd
    have hnew : w.net.putOut ∈ w'.net.connsOf w.net.nextNode := by simp [hs.puts.connsOf]
    rw [hd] at hdm
    exact absurd ((hs.sound hg).eq_of_mem hdm hnew) hm
  · rename_i hnot
    have hf := h.resolve_right hnot
    rw [hasKind, hs.puts.kindOf?, if_neg hm] at hk
    rw [hs.puts.connsOf, if_neg hm] at hdm
    rcases hf hd hdm hk with ⟨hsole, hh⟩
    exact ⟨hs.length_refsOf hg (hg.output_of_sink hd hcs) (.inr hsole), hmono hh⟩

/-- The outputs of all pin nodes are live if they were, and if the output that gets a pin node is read on
a node that is due. -/
theorem Shares.live_pinNode (hs : Shares o n source g g') (hg : g.Tidy K) (hkeeps : KeepsLogic g g')
    (hr : g.ReadAt o c e) (hdue : Due g e)
    (hlive : ∀ {n p}, g.kindOf? n = some .pinNode → p ∈ g.connsOf n → g.isOutput p → g.Live p)
    (hk : g'.kindOf? m = some .pinNode) (hp : p ∈ g'.connsOf m) (hpo : g'.isOutput p) : g'.Live p := by
  have hout := hs.isOutput
  have htidy := hs.puts.tidy hg hout ⟨n, hs.mem⟩
  by_cases hmn : m = g.nextNode
  · -- the connection at hand reads the new pin node
    obtain rfl : p = g.putOut := by
      rw [hs.puts.connsOf, if_pos hmn, mem_pair] at hp
      refine hp.resolve_right ?_
      rintro rfl
      have hsink : g'.isSink g.putIn := by simp [hs.puts.isSink, putOut_ne_putIn.symm]
      rw [not_isSink_of_isOutput hpo] at hsink
      cases hsink
    have hrefs : g'.refsOf c = [g.putOut] := by
      rw [hs.puts.refsOf_sink hg.toSound hout hr.sink, if_pos (hg.mirror hr.refs)]
    exact (hdue.keepsLogic hg.toOwned hkeeps).live htidy
      (hs.puts.connsOf_of_isSome hdue.isSome ▸ hr.mem) (hs.puts.isSink_old hr.sink) (by simp [hrefs])
  · rw [hs.puts.connsOf, if_neg hmn] at hp
    rw [hs.puts.kindOf?, if_neg hmn] at hk
    rw [hkeeps.evolves.isOutput (hg.conn_isSome hp)] at hpo
    have hne : p ≠ o := by
      rintro rfl
      rw [← hg.eq_of_mem hs.mem hp, kindOf?_def, hs.node] at hk
      have hgiven := hs.given.2
      rw [Option.some.inj hk] at hgiven
      cases hgiven
    rcases (hlive hk hp hpo).exists_due with ⟨x, e', hr', hdue'⟩
    exact ((hs.puts.readAt_iff hg.toSound hout (hg.conn_isSome hp) hne).mpr hr').live
      (hdue'.keepsLogic hg.toOwned hkeeps) htidy

/-! Behind an input, at most one node comes up. -/

theorem input_mem_next {b : Bool} :
    Stop.input c ∈ (if b then [] else [.node n]) ++ rest ↔ .input c ∈ rest := by
  cases b <;> simp

theorem node_mem_next {b : Bool} (h : Stop.node m ∈ (if b then [] else [.node n]) ++ rest) :
    m = n ∨ .node m ∈ rest := by
  cases b
  · simpa using h
  · exact .inr h

section Follow

variable (h : Walks K g w (.input c :: rest))
include h

/-- An input that is driven, whose driver gets no pin node. -/
theorem Walks.unnamed (ho : w.net.refsOf c = [o]) (hon : o ∈ w.net.connsOf n)
    (hk : w.net.kindOf? n = some k) (hsole : k.isUnnamed → (w.net.refsOf o).length ≤ 1) :
    Walks K g w ((if k.isNamed then [] else [.node n]) ++ rest) := by
  have hg := h.tidy.toSound
  rcases h.inputs mem_cons_self with ⟨e, hce, hcs, hdue⟩
  have hoc : o ∈ w.net.refsOf c := by simp [ho]
  have hmono : ∀ {m}, Handled w (.input c :: rest) m →
      Handled w ((if k.isNamed then [] else [.node n]) ++ rest) m := fun hh => hh.mono id nofun
  refine ⟨h.tidy, h.keeps, h.conns, h.size, fun {m} hm => ?_,
    fun hx => h.inputs (mem_cons_of_mem _ (input_mem_next.mp hx)), fun {m x} hm hx hs => ?_,
    fun hx hk => hmono (h.roots hx hk), h.live⟩
  · rcases node_mem_next hm with rfl | hm
    · exact ⟨isSome_of_mem_connsOf hon,
        fun _ => ⟨o, hon, hg.output_of_sink hoc hcs, hdue.live h.tidy hce hcs hoc⟩⟩
    · exact h.nodes (mem_cons_of_mem _ hm)
  · -- the input is followed now: its driver waits or has a name
    by_cases hxc : x = c
    · subst hxc
      refine .inr fun d m hd hdm hgate => ?_
      rw [ho, mem_singleton] at hd
      subst hd
      obtain rfl := hg.eq_of_mem hon hdm
      rw [hasKind, hk] at hgate
      refine ⟨hsole hgate, .inr (mem_append_left _ ?_)⟩
      rw [(NodeKind.isUnnamed_iff.mp hgate).2]
      exact mem_singleton_self _
    · refine (h.covered hm hx hs).imp (fun hwait => ?_) fun hf d m hd hdm hgate => ?_
      · rcases mem_cons.mp hwait with heq | hwait
        · cases heq
          exact absurd rfl hxc
        · exact mem_append_right _ hwait
      · exact ⟨(hf hd hdm hgate).1, hmono (hf hd hdm hgate).2⟩

/-- An input that is driven, whose driver gets a pin node. -/
theorem Walks.named (hg0 : g.Owned) (ho : w.net.refsOf c = [o]) (hk : w.net.kindOf? n = some k)
    (hentered : w'.entered = w.entered) (hs : Shares o n source w.net w'.net) :
    Walks K g w' ((if k.isNamed then [] else [.node n]) ++ rest) := by
  have hg := h.tidy.toSound
  rcases h.inputs mem_cons_self with ⟨e, hce, hcs, hdue⟩
  have hoc : o ∈ w.net.refsOf c := by simp [ho]
  have hlive := hdue.live h.tidy hce hcs hoc
  have hkeeps := hs.puts.keepsLogic hg hs.isOutput fun _ => ⟨hlive, hs.not_soleAt hg⟩
  have hmono : ∀ {m}, Handled w (.input c :: rest) m →
      Handled w' ((if k.isNamed then [] else [.node n]) ++ rest) m := fun hh =>
    hh.mono (fun hm => hentered ▸ hm) nofun
  have hold : ∀ {m}, (w.net.node? m).isSome → w'.net.connsOf m = w.net.connsOf m :=
    hs.puts.connsOf_of_isSome
  have hout := hs.isOutput
  refine ⟨hs.puts.tidy h.tidy hout ⟨n, hs.mem⟩, h.keeps.trans hg0 hkeeps, fun {m} hm => ?_,
    hentered ▸ h.size, fun {m} hm => ?_, fun {x} hx => ?_, fun {m x} hm hx hsx => ?_,
    fun {m x} hx hkm => ?_, hs.live_pinNode h.tidy hkeeps ⟨hce, hcs, hoc⟩ hdue h.live⟩
  · rw [hold (h.keeps.evolves.node_isSome hm), h.conns hm]
  · rcases node_mem_next hm with rfl | hm
    · have hn : Due w.net m := ⟨isSome_of_mem_connsOf hs.mem, fun _ => ⟨o, hs.mem, hout, hlive⟩⟩
      exact hn.keepsLogic hg.toOwned hkeeps
    · exact (h.nodes (mem_cons_of_mem _ hm)).keepsLogic hg.toOwned hkeeps
  · rcases h.inputs (mem_cons_of_mem _ (input_mem_next.mp hx)) with ⟨m, hxm, hxs, hm⟩
    exact ⟨m, by rwa [hold hm.isSome], hs.puts.isSink_old hxs, hm.keepsLogic hg.toOwned hkeeps⟩
  · by_cases hmn : m = w.net.nextNode
    · -- the new pin node reads the output, and nothing else does
      rw [hs.puts.connsOf, if_pos hmn] at hx
      obtain rfl := hs.puts.eq_putIn_of_isSink hx hsx
      refine .inr fun d e hd hde hgate => ?_
      rw [hs.puts.refsOf_putIn hg hout, mem_singleton] at hd
      subst hd
      have hen : e = n := by
        refine (hs.sound hg).eq_of_mem hde ?_
        rw [hold (isSome_of_mem_connsOf hs.mem)]
        exact hs.mem
      subst hen
      rw [hkeeps.evolves.hasKind (isSome_of_mem_connsOf hs.mem), hasKind, hk] at hgate
      refine ⟨hs.length_refsOf hg hout (.inl rfl), .inr (mem_append_left _ ?_)⟩
      rw [(NodeKind.isUnnamed_iff.mp hgate).2]
      exact mem_singleton_self _
    · rw [hs.puts.connsOf, if_neg hmn] at hx
      have hsx0 : w.net.isSink x := by rwa [hkeeps.evolves.isSink (hg.conn_isSome hx)] at hsx
      rw [hentered, hs.puts.kindOf?, if_neg hmn] at hm
      rcases h.covered hm hx hsx0 with hwait | hf
      · rcases mem_cons.mp hwait with heq | hwait
        · cases heq
          exact .inr (Followed.shares hs hg hsx0 hmono (.inr (hg.mirror hoc)))
        · exact .inl (mem_append_right _ hwait)
      · exact .inr (Followed.shares hs hg hsx0 hmono (.inl hf))
  · have hmn : m ≠ w.net.nextNode := by
      rintro rfl
      rw [hasKind, hs.puts.kindOf?, if_pos rfl] at hkm
      cases hkm
    rw [hs.puts.connsOf, if_neg hmn] at hx
    rw [hkeeps.evolves.hasKind (isSome_of_mem_connsOf hx)] at hkm
    exact hmono (h.roots hx hkm)

end Follow

/-- The walk follows an input. -/
theorem Walks.follow (h : Walks K g w (.input c :: rest)) (hg0 : g.Owned) (hrun : w.follow c = .ok (w', more)) :
    Walks K g w' (more ++ rest) := by
  have hg := h.tidy.toSound
  rcases follow_spec hg hrun with ⟨hnil, rfl, rfl⟩ | ⟨o, n, k, ho, hon, hk, hname, rfl⟩
  · -- nothing drives the input
    have hmono : ∀ {m}, Handled w' (.input c :: rest) m → Handled w' ([] ++ rest) m := fun hh =>
      hh.mono id nofun
    refine ⟨h.tidy, h.keeps, h.conns, h.size, fun hm => h.nodes (mem_cons_of_mem _ hm),
      fun hx => h.inputs (mem_cons_of_mem _ hx), fun {m x} hm hx hs => ?_,
      fun hx hk => hmono (h.roots hx hk), h.live⟩
    refine (h.covered hm hx hs).elim (fun hwait => ?_) fun hf => .inr fun d m hd hdm hgate => ?_
    · rcases mem_cons.mp hwait with heq | hwait
      · cases heq
        refine .inr fun d m hd => ?_
        rw [hnil] at hd
        cases hd
      · exact .inl hwait
    · exact ⟨(hf hd hdm hgate).1, hmono (hf hd hdm hgate).2⟩
  · have hcs : w.net.isSink c := by
      rcases h.inputs mem_cons_self with ⟨e, -, hcs, -⟩
      exact hcs
    have hout := hg.output_of_sink (d := o) (by simp [ho]) hcs
    rcases shares_nameIfShared hout hg hon hk hname with ⟨rfl, hsole⟩ | ⟨hentered, source, hs⟩
    · exact h.unnamed ho hon hk hsole
    · exact h.named hg0 ho hk hentered hs

/-! ## The whole walk -/

/-- A node may bring up as many connections as it has, and each of these one more node. -/
def Stop.size : Stop → Nat
  | .node _ => 1
  | .input _ => 2

/-- Entering a node brings the walk closer to its end. -/
theorem size_enter (h : Walks K g w (.node n :: rest)) (hrun : w.enter n = .ok (w', more)) :
    (more.map Stop.size).sum + 2 * w'.entered.supply (fun n => (g.connsOf n).length) <
      Stop.size (.node n) + 2 * w.entered.supply fun n => (g.connsOf n).length := by
  rcases enter_cases hrun with ⟨rfl, rfl, -⟩ | ⟨hnew, rfl, rfl⟩
  · rw [map_nil, sum_nil, Stop.size]
    omega
  · have hlt := NodeSet.lt_size_of_isNew hnew
    rw [h.size] at hlt
    have hconns := h.conns (node?_isSome.mpr hlt)
    have hsupply := NodeSet.supply_insert (w := fun n => (g.connsOf n).length) hnew
    have hsum : ((((w.net.connsOf n).filter w.net.isSink).map Stop.input).map Stop.size).sum =
        2 * ((w.net.connsOf n).filter w.net.isSink).length := by
      rw [map_map]
      change (((w.net.connsOf n).filter w.net.isSink).map fun _ => 2).sum = _
      rw [map_const', sum_replicate_nat, Nat.mul_comm]
    have hlen := length_filter_le w.net.isSink (w.net.connsOf n)
    rw [hconns] at hlen
    change _ + 2 * (w.entered.insert n).supply _ < _
    rw [hsum, hconns, Stop.size]
    omega

/-- Following an input does so too. -/
theorem size_follow (h : Walks K g w (.input c :: rest)) (hrun : w.follow c = .ok (w', more)) :
    (more.map Stop.size).sum + 2 * w'.entered.supply (fun n => (g.connsOf n).length) <
      Stop.size (.input c) + 2 * w.entered.supply fun n => (g.connsOf n).length := by
  have hg := h.tidy.toSound
  rcases h.inputs mem_cons_self with ⟨e, -, hcs, -⟩
  rcases follow_spec hg hrun with ⟨-, rfl, rfl⟩ | ⟨o, n, k, ho, hon, hk, hname, rfl⟩
  · rw [map_nil, sum_nil, Stop.size]
    omega
  · have hentered : w'.entered = w.entered := by
      have hout := hg.output_of_sink (d := o) (by simp [ho]) hcs
      rcases shares_nameIfShared hout hg hon hk hname with ⟨rfl, -⟩ | ⟨hentered, -⟩
      · rfl
      · exact hentered
    have hsum : (((if k.isNamed then [] else [Stop.node n]).map Stop.size).sum) ≤ 1 := by
      split
      · exact Nat.zero_le 1
      · exact Nat.le_refl 1
    rw [hentered, Stop.size]
    omega

theorem Owned.mem_pinNodes_of_kind (hg : g.Owned) (hc : c ∈ g.connsOf n)
    (hk : g.kindOf? n = some .pinNode) : n ∈ g.pinNodes := by
  rcases mem_append.mp (hg.mem_of_isNamed hc (hasKind_of hk rfl)) with hn | hn
  · cases hk.symm.trans (hg.pin_kind hn)
  · exact hn

/-- At the start the roots wait. -/
theorem walks_roots (hg : g.Tidy K) (hpinNodes : g.pinNodes = []) :
    Walks K g { net := g, entered := .empty g.nodes.size, added := 0 } (g.walkRoots.map .node) where
  tidy := hg
  keeps := .refl
  conns _ := rfl
  size := by simp [NodeSet.empty]
  nodes {n} hn := by
    rcases mem_map.mp hn with ⟨m, hm, heq⟩
    cases heq
    rcases mem_append.mp hm with hm | hm
    · have hk := hg.pin_kind hm
      refine ⟨isSome_of_kindOf? hk, fun hgate => ?_⟩
      rw [hasKind, hk] at hgate
      cases hgate
    · have hk := (mem_filter.mp hm).2
      refine ⟨isSome_of_hasKind hk, fun hgate => ?_⟩
      rw [not_isCombinational_of_isBoundary (isBoundary_of_isSequential hk)] at hgate
      cases hgate
  inputs {c} hc := by
    rcases mem_map.mp hc with ⟨m, -, heq⟩
    cases heq
  covered {n c} hn hc _ := by
    rcases hn with hn | hn
    · -- nothing was entered yet
      have hlt := node?_isSome.mp (isSome_of_mem_connsOf hc)
      simp [NodeSet.isNew_empty, hlt] at hn
    · have hmem := hg.mem_pinNodes_of_kind hc hn
      rw [hpinNodes] at hmem
      cases hmem
  roots {n c} hc hk := by
    refine .inr (mem_map.mpr ⟨n, ?_, rfl⟩)
    rcases hasKind_iff.mp hk with ⟨k, hkn, hp⟩
    rw [walkRoots, mem_append, mem_filter]
    rw [Bool.or_eq_true, decide_eq_true_eq] at hp
    rcases hp with hp | rfl
    · have hseq : g.hasKind NodeKind.isSequential n := hasKind_of hkn hp
      exact .inr ⟨hg.mem_cells_of_isCell hc (isCell_of_isSequential hseq), hseq⟩
    · have hmem := hg.mem_of_isNamed hc (hasKind_of hkn rfl)
      rw [hpinNodes, append_nil] at hmem
      exact .inl hmem
  live {n p} hn hp _ := by
    have hmem := hg.mem_pinNodes_of_kind hp hn
    rw [hpinNodes] at hmem
    cases hmem

/-- The walk that names shared outputs, as a whole. -/
theorem walks_nameSharedOutputs (hg : g.Tidy K) (hpinNodes : g.pinNodes = [])
    (hrun : g.nameSharedOutputs = .ok w) : Walks K g w [] := by
  refine drain_exhaust Stop.size
    (fun w => 2 * w.entered.supply fun n => (g.connsOf n).length) ?_ ?_ (walks_roots hg hpinNodes) ?_ hrun
  · intro x
    cases x with
    | node => exact Nat.one_pos
    | input => exact Nat.two_pos
  · intro s x rest s' more h hstep
    cases x with
    | node n => exact ⟨h.enter hstep, size_enter h hstep⟩
    | input c => exact ⟨h.follow hg.toOwned hstep, size_follow h hstep⟩
  · have hsum : ((g.walkRoots.map Stop.node).map Stop.size).sum = g.walkRoots.length := by
      rw [map_map]
      change (g.walkRoots.map fun _ => 1).sum = _
      rw [map_const', sum_replicate_nat, Nat.mul_one]
    rw [hsum]
    rw [supply_empty]

/-- When nothing waits any more, every live gate was entered and has one reader only. The induction
follows the readers of the gate: each of them was entered, so its inputs were followed. -/
theorem Walks.entered (h : Walks K g w []) (hdesign : w.net.connsOf designId = [])
    (hlive : w.net.Live o) (hk : w.net.hasKind NodeKind.isCombinational n) (ho : o ∈ w.net.connsOf n) :
    w.net.SoleAt o ∧ w.entered.isNew n = false := by
  have hdone : ∀ {m c o n}, w.net.ReadAt o c m →
      w.entered.isNew m = false ∨ w.net.kindOf? m = some .pinNode → o ∈ w.net.connsOf n →
      w.net.hasKind NodeKind.isCombinational n →
      w.net.SoleAt o ∧ w.entered.isNew n = false := by
    intro m c o n hr hm ho hk
    have hf := (h.covered hm hr.mem hr.sink).resolve_left not_mem_nil
    rcases hf hr.refs ho (isUnnamed_of_isCombinational hk) with ⟨hsole, hentered⟩
    exact ⟨soleAt_of_length h.tidy.toSound hsole, hentered.resolve_right not_mem_nil⟩
  induction hlive generalizing n with
  | leaves hl =>
    rcases hl with ⟨c, m, hr, hm⟩
    refine hdone hr ?_ ho hk
    rcases hasKind_iff.mp hm with ⟨k, hkm, hb⟩
    -- pins, registers and buffers are roots
    have hroot : (k.isSequential || k = .pin) → w.entered.isNew m = false := fun hp =>
      (h.roots hr.mem (hasKind_of hkm hp)).resolve_right not_mem_nil
    cases k with
    | flipFlop | latch | triState | pin => exact .inl (hroot rfl)
    | pinNode => exact .inr hkm
    | design =>
      -- the design has no connections left
      have hmem := hr.mem
      rw [h.tidy.toOwned.eq_designId (h.tidy.inUse hmem) hkm, hdesign] at hmem
      cases hmem
    | _ => cases hb
  | gate hr hm hp hout _ ih => exact hdone hr (.inl (ih hm hp).2) ho hk

/-- After the walk every live gate has one reader only. -/
theorem unshared_nameSharedOutputs (hg : g.Tidy K) (hpinNodes : g.pinNodes = [])
    (hdesign : g.connsOf designId = []) (hrun : g.nameSharedOutputs = .ok w) :
    KeepsLogic g w.net ∧ w.net.Unshared := by
  have h := walks_nameSharedOutputs hg hpinNodes hrun
  refine ⟨h.keeps, fun o ho hlive => ?_⟩
  rcases ho with ⟨n, hk, hmem, -⟩
  have hd : w.net.connsOf designId = [] := by
    rw [h.conns (isSome_of_kindOf? hg.design_kind), hdesign]
  exact (h.entered hd hlive hk hmem).1

/-- Naming the shared signals keeps what is live, and then no live gate is read twice. -/
theorem unshared_branch {r : Bool × Network} (hg : g.Fresh K) (hpins : g.pins = [])
    (hpinNodes : g.pinNodes = []) (hrun : g.branch = .ok r) : KeepsLogic g r.2 ∧ r.2.Unshared := by
  simp only [branch, bind_eq_ok, pure_eq_ok] at hrun
  rcases hrun with ⟨_, -, g1, h1, w, hw, g2, h2, -, -, rfl⟩
  have hexposed := exposed_exposePorts hg hpins h1
  have hkeeps1 : KeepsLogic g g1 := by
    refine (exposePorts_invariant (P := fun _ h => h.Sound ∧ KeepsLogic g h) (fun hs => hs.1) ?_
      ⟨hg.toSound, .refl⟩ h1).2
    rintro l p s s' ⟨hs, hkeeps⟩ hp hx
    exact ⟨hx.sound, hkeeps.trans hg.toOwned (hx.keepsLogic hs.toOwned hp)⟩
  have hb1 := Branched.of_exposed hpinNodes hexposed
  rcases unshared_nameSharedOutputs hexposed.fresh.toTidy (hexposed.pinNodes.trans hpinNodes) hb1.design
    hw with ⟨hkeeps2, hunshared⟩
  have hb2 : Branched K g w.net := nameSharedOutputs_invariant hb1.fresh.toSound hb1
    (fun _ hP hs => hP.shares hs) hw
  have hkeeps3 := hb2.read.keepsLogic hb2.fresh.toTidy h2
  exact ⟨(hkeeps1.trans hg.toOwned hkeeps2).trans hg.toOwned hkeeps3,
    hkeeps3.unshared hb2.fresh.toOwned hunshared⟩

end PldSynth.Network
