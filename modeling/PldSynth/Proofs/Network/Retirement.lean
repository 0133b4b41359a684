import PldSynth.Proofs.Network.Meaning

/-!
# Retiring what nothing reads

A node whose outputs nothing reads can be taken out of use, and no value changes. `rebuildTop` does so
with pin nodes. Which of them are unread is asked once, before the first one goes; that is enough,
because retiring a node only takes wires away.
-/

namespace PldSynth.Network

open Attempt List

variable {K : NodeKind → Bool} {g g' g'' : Network} {v : ConnId → Bool} {n m : NodeId}
  {c d x o : ConnId} {o' : ConnId} {k : NodeKind}

/-! ## Edits that change no wire -/

namespace Alike

theorem matches_stays (h : Alike g g') (habs : ∀ n, g'.absorbedOf n = g.absorbedOf n) (hg : g.Sound)
    (ho : g.Stays g' o o') : g.Matches g' v v (g.Stays g') o o' := by
  obtain ⟨rfl, hout, ⟨m, hm⟩, -⟩ := ho
  apply Matches.frame hm (h.kindOf? m) (habs m) (h.connsOf m) _ ((h.isOutput o').trans hout) rfl
  intro c hc
  apply Corresponds.of_eq (h.isSink c) (h.refsOf c)
  intro d hd hs
  have hl := hg.listed (hg.mirror hd)
  exact .inl ⟨rfl, hg.output_of_sink hd hs, hl, by simpa only [h.connsOf] using hl⟩

/-- Networks that are alike have the same values. -/
theorem preserves (h : Alike g g') (habs : ∀ n, g'.absorbedOf n = g.absorbedOf n) (hg : g.Sound)
    (hset : g.Settled v) : Preserves v v g g' := by
  have hg' := h.sound hg
  have hm : ∀ {o o'}, g.Stays g' o o' → g.Matches g' v v (g.Stays g') o o' :=
    h.matches_stays habs hg
  have hans : ∀ {c d}, g.isSink c → d ∈ g.refsOf c → g'.Answers (g.Stays g') d d := by
    intro c d hs hd
    have hl := hg.listed (hg.mirror hd)
    exact .inl ⟨rfl, hg.output_of_sink hd hs, hl, by simpa only [h.connsOf] using hl⟩
  apply Preserves.of_matches hg.toOwned hg'.toOwned hset hm
  · intro c d n hs hd _
    exact ⟨(h.isSink c).trans hs, d, (h.refsOf c).trans hd, hans hs (by simp [hd])⟩
  · intro c d hs hd
    rw [h.isSink] at hs
    rw [h.refsOf] at hd
    exact ⟨c, d, hs, hd, hans hs hd⟩
  · intro n c d hk hu hc hs hd
    refine ⟨c, by rwa [h.connsOf], (h.isSink c).trans hs, d, (h.refsOf c).trans hd, fun b hb => ?_⟩
    exact (hans hs (by simp [hd])).computes hg.toOwned hg'.toOwned hm hb

theorem tidy (h : Alike g g') (hg : g.Tidy K) : g'.Tidy K := by
  apply hg.of_nodes (h.sound hg.toSound) fun _ => h.directionOf? _
  exact fun n => .inl ⟨h.kindOf? n, fun c hc => h.connsOf n ▸ hc⟩

theorem raw (h : Alike g g') (habs : ∀ n, g'.absorbedOf n = g.absorbedOf n) (hg : g.Raw K) : g'.Raw K where
  toTidy := h.tidy hg.toTidy
  unmerged n := (habs n).trans (hg.unmerged n)
  single hk hc hc' hs hs' := by
    rw [hasKind, h.kindOf?] at hk
    rw [h.connsOf] at hc hc'
    rw [h.isSink] at hs hs'
    exact hg.single hk hc hc' hs hs'
  driven hc hs := by
    rw [h.connsOf] at hc
    rw [h.isSink] at hs
    rw [h.refsOf]
    exact hg.driven hc hs

theorem fresh (h : Alike g g') (habs : ∀ n, g'.absorbedOf n = g.absorbedOf n) (hg : g.Fresh K) :
    g'.Fresh K :=
  ⟨h.raw habs hg.toRaw, fun v => (h.preserves habs hg.toSound (hg.settled v)).settled⟩

end Alike

theorem alike_setTop (l : List ConnId) : Alike g { g with top := l } :=
  ⟨fun _ => rfl, fun _ => rfl, fun _ => rfl, fun _ => rfl, fun _ => rfl, fun _ => rfl, rfl, rfl, rfl,
    rfl⟩

/-! ## One node -/

/-- Nothing reads an output of the node. -/
def UnreadAt (g : Network) (n : NodeId) : Prop :=
  ∀ ⦃o⦄, o ∈ g.connsOf n → g.isOutput o = true → g.refsOf o = []

theorem ne_designId (hg : g.Owned) (hk : g.kindOf? n = some k) (hd : k ≠ .design) : n ≠ designId := by
  rintro rfl
  rw [hg.design_kind, Option.some.injEq] at hk
  exact hd hk.symm

/-- A node that was retired is no longer in use. -/
theorem not_inUse_retired {cs : List ConnId} (h : (retired n cs).Applies g g') (hn : n ≠ designId) :
    ¬ g'.InUse n := by
  simp [InUse, h.cells, h.pins, h.pinNodes, retired, hn]

theorem tidy_retired (h : (retired n (g.connsOf n)).Applies g g') (hg : g.Tidy K) : g'.Tidy K := by
  apply hg.of_nodes (hg.toSound.retired h) fun _ => h.directionOf?
  refine fun m => .inl ⟨h.kindOf?, fun c hc => ?_⟩
  rw [connsOf_retired h] at hc
  split at hc
  · cases hc
  · exact hc

section Retired

variable (h : (retired n (g.connsOf n)).Applies g g') (hun : g.UnreadAt n)
include h hun

/-- No other node read the node that goes. -/
theorem UnreadAt.refsOf_retired (hg : g.Sound) (hc : c ∈ g.connsOf m) (hm : m ≠ n)
    (hs : g.isSink c) : g'.refsOf c = g.refsOf c := by
  have hcn : c ∉ g.connsOf n := fun hcn => hm (hg.eq_of_mem hc hcn)
  rw [Network.refsOf_retired h, if_neg hcn, filter_eq_self]
  intro d hd
  have hdn : d ∉ g.connsOf n := by
    intro hdn
    have hmem := hg.mirror hd
    rw [hun hdn (hg.output_of_sink hd hs)] at hmem
    cases hmem
  simpa using hdn

theorem UnreadAt.stays_driver (hg : g.Sound) (hs : g.isSink c) (hd : d ∈ g.refsOf c) : g.Stays g' d d := by
  have hmem := hg.mirror hd
  have hout := hg.output_of_sink hd hs
  obtain ⟨e, he⟩ := hg.listed hmem
  refine ⟨rfl, hout, ⟨e, he⟩, e, ?_⟩
  rw [connsOf_retired h, if_neg]
  · exact he
  · rintro rfl
    rw [hun he hout] at hmem
    cases hmem

/-- An output that stays has the same logic behind it. -/
theorem UnreadAt.matches_stays (hg : g.Sound) (ho : g.Stays g' o o') :
    g.Matches g' v v (g.Stays g') o o' := by
  obtain ⟨rfl, hout, -, m, hm⟩ := ho
  rw [connsOf_retired h] at hm
  split at hm
  · cases hm
  rename_i hmn
  have hconns : g'.connsOf m = g.connsOf m := by rw [connsOf_retired h, if_neg hmn]
  apply Matches.frame hm h.kindOf? h.absorbedOf hconns _
    ((isOutput_congr h.directionOf?).trans hout) rfl
  intro c hc
  by_cases hs : g.isSink c = true
  · apply Corresponds.of_eq (isSink_congr h.directionOf?) (hun.refsOf_retired h hg hc hmn hs)
    exact fun d hd _ => .inl (hun.stays_driver h hg hs hd)
  · exact ⟨isSink_congr h.directionOf?, fun hs' => absurd hs' hs⟩

/-- Retiring a node that nothing reads changes no value. -/
theorem UnreadAt.preserves (hg : g.Sound) (hset : g.Settled v) : Preserves v v g g' := by
  have hg' := hg.retired h
  have hsink : ∀ c, g'.isSink c = g.isSink c := fun c => isSink_congr h.directionOf?
  have hm : ∀ {o o'}, g.Stays g' o o' → g.Matches g' v v (g.Stays g') o o' :=
    hun.matches_stays h hg
  -- a connection that still stands somewhere belongs to another node
  have hother : ∀ {c k}, c ∈ g'.connsOf k → c ∈ g.connsOf k ∧ k ≠ n := by
    intro c k hc
    rw [connsOf_retired h] at hc
    split at hc
    · cases hc
    · rename_i hk
      exact ⟨hc, hk⟩
  apply Preserves.of_matches hg.toOwned hg'.toOwned hset hm
  · intro c d k hs hd hc
    obtain ⟨hc, hk⟩ := hother hc
    refine ⟨(hsink c).trans hs, d, (hun.refsOf_retired h hg hc hk hs).trans hd, ?_⟩
    exact .inl (hun.stays_driver h hg hs (by simp [hd]))
  · intro c d hs hd
    rw [hsink] at hs
    obtain ⟨k, hc⟩ := hg'.listed hd
    obtain ⟨hc, hk⟩ := hother hc
    rw [hun.refsOf_retired h hg hc hk hs] at hd
    exact ⟨c, d, hs, hd, .inl (hun.stays_driver h hg hs hd)⟩
  · intro k c d hk hu hc hs hd
    have hkn : k ≠ n := by
      rintro rfl
      obtain ⟨kind, hkind, hnamed⟩ := hasKind_iff.mp hk
      have hd : kind ≠ .design := by
        rintro rfl
        cases hnamed
      exact not_inUse_retired h (ne_designId hg.toOwned hkind hd) hu
    refine ⟨c, by rwa [connsOf_retired h, if_neg hkn], (hsink c).trans hs, d,
      (hun.refsOf_retired h hg hc hkn hs).trans hd, fun b hb => ?_⟩
    exact hb.follow hg.toOwned hg'.toOwned hm (hun.stays_driver h hg hs (by simp [hd]))

theorem UnreadAt.raw (hg : g.Raw K) : g'.Raw K where
  toTidy := tidy_retired h hg.toTidy
  unmerged m := h.absorbedOf.trans (hg.unmerged m)
  single {m c c'} hk hc hc' hs hs' := by
    rw [hasKind, h.kindOf?] at hk
    rw [isSink_congr h.directionOf?] at hs hs'
    rw [connsOf_retired h] at hc hc'
    split at hc
    · cases hc
    · rename_i hm
      rw [if_neg hm] at hc'
      exact hg.single hk hc hc' hs hs'
  driven {m c} hc hs := by
    rw [isSink_congr h.directionOf?] at hs
    rw [connsOf_retired h] at hc
    split at hc
    · cases hc
    · rename_i hm
      rw [hun.refsOf_retired h hg.toSound hc hm hs]
      exact hg.driven hc hs

end Retired

/-! ## Several nodes -/

/-- `g'` is `g` after some nodes that nothing read were retired, none of them a pin, a register or a
buffer. -/
structure Retires (K : NodeKind → Bool) (g g' : Network) : Prop where
  tidy : g'.Tidy K
  raw : g.Raw K → g'.Raw K
  evolves : Evolves g g'
  preserves : ∀ {v}, g.Settled v → Preserves v v g g'
  kindOf? : ∀ n, g'.kindOf? n = g.kindOf? n
  connsOf : ∀ {n}, g'.InUse n → g'.connsOf n = g.connsOf n
  absorbedOf : ∀ n, g'.absorbedOf n = g.absorbedOf n
  connNameOf? : ∀ x, g'.connNameOf? x = g.connNameOf? x
  refsOf : ∀ x, (g'.refsOf x).Sublist (g.refsOf x)
  cells : g'.cells.Sublist g.cells
  sequential : ∀ {n}, g.hasKind NodeKind.isSequential n = true → n ∈ g.cells → n ∈ g'.cells
  pins : g'.pins = g.pins
  pinNodes : g'.pinNodes.Sublist g.pinNodes

theorem Retires.refl (hg : g.Tidy K) : Retires K g g :=
  ⟨hg, id, .refl g, .refl, fun _ => rfl, fun _ => rfl, fun _ => rfl, fun _ => rfl, fun _ => .refl _,
    .refl _, fun _ hn => hn, rfl, .refl _⟩

theorem Retires.inUse (h : Retires K g g') (hn : g'.InUse n) : g.InUse n := by
  rcases hn with hn | hn | hn | hn
  · exact .inl hn
  · exact .inr (.inl (h.cells.subset hn))
  · exact .inr (.inr (.inl (h.pins ▸ hn)))
  · exact .inr (.inr (.inr (h.pinNodes.subset hn)))

theorem Retires.trans (h : Retires K g g') (h' : Retires K g' g'') : Retires K g g'' where
  tidy := h'.tidy
  raw hg := h'.raw (h.raw hg)
  evolves := h.evolves.trans h'.evolves
  preserves hset :=
    (h.preserves hset).trans (h'.preserves (h.preserves hset).settled) h.evolves h'.evolves
  kindOf? n := (h'.kindOf? n).trans (h.kindOf? n)
  connsOf hn := (h'.connsOf hn).trans (h.connsOf (h'.inUse hn))
  absorbedOf n := (h'.absorbedOf n).trans (h.absorbedOf n)
  connNameOf? x := (h'.connNameOf? x).trans (h.connNameOf? x)
  refsOf x := (h'.refsOf x).trans (h.refsOf x)
  cells := h'.cells.trans h.cells
  sequential {n} hk hn := by
    apply h'.sequential _ (h.sequential hk hn)
    rwa [hasKind, h.kindOf?]
  pins := h'.pins.trans h.pins
  pinNodes := h'.pinNodes.trans h.pinNodes

/-- A driver of what stays is not among the nodes that go. -/
theorem Retires.refsOf_eq {v : ConnId → Bool} (h : Retires K g g') (hset : g.Settled v)
    (hs : g.isSink c) (hd : g.refsOf c = [d]) (hc : ∃ n, c ∈ g'.connsOf n) : g'.refsOf c = [d] := by
  obtain ⟨-, d', hd', -⟩ := (h.preserves hset).trails hs hd hc
  have hsub := h.refsOf c
  rw [hd, hd', singleton_sublist, mem_singleton] at hsub
  rw [hd', hsub]

theorem Retires.fresh (h : Retires K g g') (hg : g.Fresh K) : g'.Fresh K :=
  ⟨h.raw hg.toRaw, fun v => (h.preserves (hg.settled v)).settled⟩

/-- Retiring one node. -/
theorem retires_retired (h : (retired n (g.connsOf n)).Applies g g') (hg : g.Tidy K)
    (hk : g.kindOf? n = some k) (hne : k ≠ .design ∧ k ≠ .pin ∧ k.isSequential = false)
    (hun : g.UnreadAt n) : Retires K g g' where
  tidy := tidy_retired h hg
  raw := hun.raw h
  evolves := evolves_retired h
  preserves := hun.preserves h hg.toSound
  kindOf? _ := h.kindOf?
  connsOf {m} hm := by
    have hmn : m ≠ n := by
      rintro rfl
      exact not_inUse_retired h (ne_designId hg.toOwned hk hne.1) hm
    rw [connsOf_retired h, if_neg hmn]
  absorbedOf m := h.absorbedOf
  connNameOf? _ := h.connNameOf?
  refsOf x := by
    rw [refsOf_retired h]
    split
    · exact nil_sublist _
    · exact filter_sublist
  cells := by
    rw [h.cells]
    exact filter_sublist
  sequential {m} hm hc := by
    have hmn : m ≠ n := by
      rintro rfl
      simp [hasKind, hk, hne.2.2] at hm
    rw [h.cells, mem_filter]
    exact ⟨hc, by simp [retired, hmn]⟩
  pins := by
    rw [h.pins, filter_eq_self]
    intro m hm
    have hmn : m ≠ n := by
      rintro rfl
      have := hg.pin_kind hm
      rw [hk, Option.some.injEq] at this
      exact hne.2.1 this
    simp [retired, hmn]
  pinNodes := by
    rw [h.pinNodes]
    exact filter_sublist

/-! ## Rebuilding the list of equations -/

/-- A node with one output is unread if its first output is. -/
theorem unreadAt_of_isUnread (hl : g.LoneAt n) (h : g.isUnread n) : g.UnreadAt n := by
  intro o ho hout
  unfold isUnread at h
  split at h
  · rename_i o' ho'
    rw [hl ho (mem_of_find?_eq_some ho') hout (find?_some ho')]
    exact isEmpty_iff.mp h
  · rename_i hnone
    have := find?_eq_none.mp hnone o ho
    exact absurd hout this

theorem UnreadAt.mono (h : g.UnreadAt n) (hconns : ∀ {o}, o ∈ g'.connsOf n → o ∈ g.connsOf n)
    (hdir : ∀ {o}, o ∈ g.connsOf n → g'.directionOf? o = g.directionOf? o)
    (hrefs : ∀ x, (g'.refsOf x).Sublist (g.refsOf x)) : g'.UnreadAt n := by
  intro o ho hout
  have ho := hconns ho
  rw [isOutput_congr (hdir ho)] at hout
  have := hrefs o
  rw [h ho hout] at this
  exact sublist_nil.mp this

/-- Retiring several pin nodes that were unread at the start. -/
theorem retires_foldlM_retire {l : List NodeId} (hg : g.Tidy K)
    (hl : ∀ n ∈ l, g.kindOf? n = some .pinNode ∧ g.UnreadAt n) (h : l.foldlM retire g = .ok g') :
    Retires K g g' := by
  induction l generalizing g with
  | nil => exact foldlM_nil_eq_ok.mp h ▸ .refl hg
  | cons n l ih =>
    obtain ⟨g1, h1, hrest⟩ := foldlM_cons_eq_ok.mp h
    obtain ⟨hk, hun⟩ := hl n mem_cons_self
    have happ := applies_retire hg.mirror h1
    have hr := retires_retired happ hg hk ⟨nofun, nofun, rfl⟩ hun
    refine hr.trans (ih hr.tidy ?_ hrest)
    intro m hm
    obtain ⟨hkm, hunm⟩ := hl m (mem_cons_of_mem n hm)
    refine ⟨happ.kindOf?.trans hkm, hunm.mono ?_ (fun _ => happ.directionOf?) hr.refsOf⟩
    intro o ho
    rw [connsOf_retired happ] at ho
    split at ho
    · cases ho
    · exact ho

theorem retires_setTop (hg : g.Tidy K) (l : List ConnId) : Retires K g { g with top := l } where
  tidy := (alike_setTop l).tidy hg
  raw := (alike_setTop l).raw fun _ => rfl
  evolves := (alike_setTop l).evolves (fun _ => rfl) fun _ _ => rfl
  preserves := (alike_setTop l).preserves (fun _ => rfl) hg.toSound
  kindOf? _ := rfl
  connsOf _ := rfl
  absorbedOf _ := rfl
  connNameOf? _ := rfl
  refsOf _ := .refl _
  cells := .refl _
  sequential _ hn := hn
  pins := rfl
  pinNodes := .refl _

theorem retires_rebuildTop (hg : g.Tidy K) (h : g.rebuildTop = .ok g') : Retires K g g' := by
  simp only [rebuildTop, bind_eq_ok, pure_eq_ok] at h
  obtain ⟨g1, h1, rfl⟩ := h
  have hr := retires_foldlM_retire hg ?_ h1
  · exact hr.trans (retires_setTop hr.tidy _)
  · intro n hn
    obtain ⟨hn, hun⟩ := mem_filter.mp hn
    have hk := hg.pinNode_kind hn
    have hreg := hg.regular (hasKind_of hk (by simp [NodeKind.isNamed]))
    exact ⟨hk, unreadAt_of_isUnread hreg.1 hun⟩

/-! ## Pin nodes that are read -/

/-- Something reads each pin node. -/
def PinNodesRead (g : Network) : Prop :=
  ∀ n ∈ g.pinNodes, ∃ c d, g.isSink c = true ∧ g.refsOf c = [d] ∧ d ∈ g.connsOf n

/-- Then no pin node is retired. -/
theorem PinNodesRead.rebuildTop (h : g.PinNodesRead) (hg : g.Tidy K) :
    g.rebuildTop = .ok { g with top := g.equationOwners.flatMap g.wiredSinks } := by
  have hnone : g.pinNodes.filter g.isUnread = [] := by
    rw [filter_eq_nil_iff]
    intro n hn hun
    obtain ⟨c, d, hs, hd, hmem⟩ := h n hn
    have hreg := hg.regular (hasKind_of (hg.pinNode_kind hn) (by simp [NodeKind.isNamed]))
    have hdc : d ∈ g.refsOf c := by simp [hd]
    have hnil := unreadAt_of_isUnread hreg.lone hun hmem (hg.output_of_sink hdc hs)
    exact ne_nil_of_mem (hg.mirror hdc) hnil
  rw [Network.rebuildTop, hnone]
  rfl

theorem PinNodesRead.rebuilt (h : g.PinNodesRead) (hg : g.Tidy K) (hr : g.rebuildTop = .ok g') :
    g'.PinNodesRead := by
  rw [h.rebuildTop hg] at hr
  cases hr
  exact h

/-- Retiring a node that reads nothing leaves every pin node read. -/
theorem PinNodesRead.retired (h : g.PinNodesRead) (hr : (retired n (g.connsOf n)).Applies g g')
    (hg : g.Sound) (hun : g.UnreadAt n) (hsilent : ∀ c ∈ g.connsOf n, g.isSink c = false) :
    g'.PinNodesRead := by
  intro m hm
  rw [hr.pinNodes, mem_filter] at hm
  have hmn : m ≠ n := by simpa [Network.retired] using hm.2
  obtain ⟨c, d, hs, hd, hmem⟩ := h m hm.1
  obtain ⟨e, he⟩ := hg.listed (c := c) (d := d) (by simp [hd])
  have hen : e ≠ n := by
    rintro rfl
    rw [hsilent c he] at hs
    cases hs
  refine ⟨c, d, (isSink_congr hr.directionOf?).trans hs, ?_, ?_⟩
  · rw [hun.refsOf_retired hr hg he hen hs, hd]
  · rwa [connsOf_retired hr, if_neg hmn]

/-- The list of equations is up to date: it holds the wired inputs of all nodes that get an equation. -/
def Collected (g : Network) : Prop :=
  g.top = g.equationOwners.flatMap g.wiredSinks

theorem collected_rebuildTop (h : g.rebuildTop = .ok g') : g'.Collected := by
  simp only [rebuildTop, bind_eq_ok, pure_eq_ok] at h
  obtain ⟨g1, -, rfl⟩ := h
  rfl

end PldSynth.Network
