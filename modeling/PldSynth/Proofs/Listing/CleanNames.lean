import PldSynth.Listing
import PldSynth.Proofs.Network.Retirement

/-!
# Names that an equation can hold

Cleaning the names changes nothing but names: a pin or pin node is renamed to the identifier of its
name, and a connection that bears the name of its node changes with it.
-/

namespace PldSynth.Text

/-- Whether a name is its own identifier: it has letters, digits and underscores only. -/
def isIdentifier (s : String) : Bool :=
  s.toList.all fun c => isAlphanumeric c || c = '_'

theorem identifier_eq_self {s : String} (h : isIdentifier s) : identifier s = s := by
  apply String.toList_inj.mp
  rw [identifier, String.toList_map]
  simp only [isIdentifier, List.all_eq_true, Bool.or_eq_true, decide_eq_true_eq] at h
  refine (List.map_congr_left fun c hc => ?_).trans (List.map_id _)
  split
  · rfl
  · rename_i hno
    exact ((h c hc).resolve_left hno).symm

theorem isIdentifier_identifier (s : String) : isIdentifier (identifier s) := by
  simp only [isIdentifier, identifier, String.toList_map, List.all_map, List.all_eq_true]
  intro c _
  show (isAlphanumeric (if isAlphanumeric c then c else '_') ||
    decide ((if isAlphanumeric c then c else '_') = '_')) = true
  split
  · rename_i hc
    rw [hc, Bool.true_or]
  · simp

theorem isIdentifier_append {s t : String} (hs : isIdentifier s) (ht : isIdentifier t) :
    isIdentifier (s ++ t) := by
  rw [isIdentifier, String.toList_append, List.all_append]
  exact Bool.and_eq_true_iff.mpr ⟨hs, ht⟩

theorem isIdentifier_toString (k : Nat) : isIdentifier (toString k) := by
  simp only [isIdentifier, Nat.toString_eq_repr, Nat.toList_repr, List.all_eq_true, Bool.or_eq_true]
  intro c hc
  exact .inl (isAlphanumeric_of_isDigit (Nat.isDigit_of_mem_toDigits (by omega) (Nat.le_refl 10) hc))

end PldSynth.Text

namespace PldSynth.Network

open Attempt

variable {K : NodeKind → Bool} {g g' g'' : Network} {n m : NodeId} {c : ConnId}

namespace Relabels

theorem fresh (h : Relabels g g') (hg : g.Fresh K) : g'.Fresh K :=
  h.alike.fresh h.absorbedOf hg

theorem preserves {v : ConnId → Bool} (h : Relabels g g') (hg : g.Fresh K) : Preserves v v g g' :=
  h.alike.preserves h.absorbedOf hg.toSound (hg.settled v)

theorem hasKind (h : Relabels g g') (p : NodeKind → Bool) (n : NodeId) :
    g'.hasKind p n = g.hasKind p n := by
  rw [Network.hasKind, h.alike.kindOf?, Network.hasKind]

/-- The list of equations stays up to date. -/
theorem collected (h : Relabels g g') (htop : g.Collected) : g'.Collected := by
  have howners : g'.equationOwners = g.equationOwners := by
    have hp : g'.hasKind NodeKind.isSequential = g.hasKind NodeKind.isSequential :=
      funext (h.hasKind _)
    rw [equationOwners, h.alike.pins, h.alike.pinNodes, h.alike.cells, hp, equationOwners]
  have hsinks : g'.wiredSinks = g.wiredSinks := by
    funext n
    simp only [wiredSinks, h.alike.connsOf, h.alike.isSink, h.alike.refsOf]
  rw [Collected, h.top, htop, howners, hsinks]

end Relabels

/-- Cleaning a name is a relabelling. -/
theorem relabels_cleanName (h : g.cleanName n = .ok g') : Relabels g g' := by
  simp only [cleanName, bind_eq_ok, node_eq_ok] at h
  obtain ⟨x, hx, h⟩ := h
  split at h
  · rw [pure_eq_ok] at h
    exact h ▸ .refl g
  · refine foldlM_invariant ?_
      (relabels_renameNode _) h
    intro s c s' _ hs hstep
    simp only [bind_eq_ok, pure_eq_ok] at hstep
    obtain ⟨y, -, rfl⟩ := hstep
    split
    · exact hs.trans (relabels_renameConn _)
    · exact hs

theorem relabels_cleanNames (h : g.cleanNames = .ok g') : Relabels g g' :=
  foldlM_invariant
    (fun _ _ _ _ hs hstep => hs.trans (relabels_cleanName hstep)) (.refl g) h

/-! ## The new names -/

theorem nodeNameOf?_renameNode (s : String) :
    (g.renameNode n s).nodeNameOf? m = if m = n then (g.nodeNameOf? m).map fun _ => s else g.nodeNameOf? m := by
  rw [nodeNameOf?, renameNode, node?_modifyNode, nodeNameOf?]
  split
  · rw [Option.map_map, Option.map_map]
    rfl
  · rfl

/-- Cleaning the name of a node changes no other node's name. -/
theorem nodeNameOf?_cleanName (h : g.cleanName n = .ok g') (m : NodeId) :
    g'.nodeNameOf? m = if m = n then (g.nodeNameOf? m).map Text.identifier else g.nodeNameOf? m := by
  simp only [cleanName, bind_eq_ok, node_eq_ok] at h
  obtain ⟨x, hx, h⟩ := h
  have hname : g.nodeNameOf? n = some x.name := by rw [nodeNameOf?, hx]; rfl
  split at h
  · rename_i hsame
    rw [← pure_eq_ok.mp h]
    split
    · rename_i hm
      rw [hm, hname, Option.map_some, hsame]
    · rfl
  · -- renaming connections does not touch the nodes
    have hconns := foldlM_invariant
      (P := fun s => s.nodeNameOf? m = (g.renameNode n (Text.identifier x.name)).nodeNameOf? m) ?_ rfl h
    · rw [hconns, nodeNameOf?_renameNode]
      split
      · rename_i hm
        rw [hm, hname]
        rfl
      · rfl
    · intro s c s' _ hs hstep
      simp only [bind_eq_ok, pure_eq_ok] at hstep
      obtain ⟨y, -, rfl⟩ := hstep
      split
      · exact hs
      · exact hs

/-- Every pin and pin node is renamed to the identifier of its name. -/
theorem nodeNameOf?_cleanNames (h : g.cleanNames = .ok g') (hn : n ∈ g.pins ++ g.pinNodes) :
    g'.nodeNameOf? n = (g.nodeNameOf? n).map Text.identifier := by
  have hall := foldlM_inits (P := fun pre s => s.nodeNameOf? n =
    if n ∈ pre then (g.nodeNameOf? n).map Text.identifier else g.nodeNameOf? n) ?_ (by simp) h
  · rw [hall, if_pos hn]
  · intro pre m post s s' _ hs hstep
    rw [nodeNameOf?_cleanName hstep, hs]
    by_cases hm : n = m
    · by_cases hpre : n ∈ pre
      · -- a second time changes nothing
        have hid : Text.identifier ∘ Text.identifier = Text.identifier :=
          funext fun s => Text.identifier_eq_self (Text.isIdentifier_identifier s)
        simp [hpre, hid]
      · simp [hpre]
    · simp [hm]

/-- A connection is renamed if it bears the old name. -/
theorem connNameOf?_renameIf {d : ConnId} {y : Conn} (hy : g.conn? d = some y) (old new : String) :
    (if y.name = old then g.renameConn d new else g).connNameOf? c =
      if c = d ∧ g.connNameOf? c = some old then some new else g.connNameOf? c := by
  have hname : g.connNameOf? d = some y.name := by rw [connNameOf?, hy]; rfl
  by_cases hcd : c = d
  · subst hcd
    by_cases heq : y.name = old
    · rw [if_pos heq, if_pos ⟨rfl, hname.trans (congrArg some heq)⟩,
        connNameOf?_renameConn_self new (by simp [hy])]
    · rw [if_neg heq, if_neg fun hcond => heq (Option.mem_unique hname hcond.2)]
  · have hkept : (if y.name = old then g.renameConn d new else g).connNameOf? c = g.connNameOf? c := by
      split
      · exact connNameOf?_renameConn_of_ne new hcd
      · rfl
    simp only [hkept, hcd, false_and, if_false]

/-- Of the connections of the node, those that bear its name change with it. -/
theorem connNameOf?_cleanName (h : g.cleanName n = .ok g') (c : ConnId) :
    g'.connNameOf? c = if c ∈ g.connsOf n ∧ g.connNameOf? c = g.nodeNameOf? n then
      (g.connNameOf? c).map Text.identifier else g.connNameOf? c := by
  simp only [cleanName, bind_eq_ok, node_eq_ok] at h
  obtain ⟨x, hx, h⟩ := h
  have hname : g.nodeNameOf? n = some x.name := by rw [nodeNameOf?, hx]; rfl
  have hconns : g.connsOf n = x.conns := by rw [connsOf_def, hx]; rfl
  rw [hname, hconns]
  split at h
  · rename_i hsame
    rw [← pure_eq_ok.mp h]
    split
    · rename_i hc
      rw [hc.2, Option.map_some, hsame]
    · rfl
  · -- a connection is renamed when its turn comes, and not a second time
    have hall := foldlM_inits
      (P := fun pre s => s.connNameOf? c = if c ∈ pre ∧ g.connNameOf? c = some x.name then
        some (Text.identifier x.name) else g.connNameOf? c) ?_ rfl h
    · rw [hall]
      split
      · rename_i hc
        rw [hc.2, Option.map_some]
      · rfl
    · intro pre d post s s' _ hs hstep
      simp only [bind_eq_ok, pure_eq_ok, conn_eq_ok] at hstep
      obtain ⟨y, hy, rfl⟩ := hstep
      rw [connNameOf?_renameIf hy]
      by_cases hpre : c ∈ pre <;> by_cases hold : g.connNameOf? c = some x.name <;>
        by_cases hcd : c = d <;> simp_all

/-- A connection that is on no pin and no pin node keeps its name. -/
theorem connNameOf?_cleanNames_of_not_mem (h : g.cleanNames = .ok g')
    (hc : ∀ n ∈ g.pins ++ g.pinNodes, c ∉ g.connsOf n) : g'.connNameOf? c = g.connNameOf? c := by
  have hall := foldlM_invariant
    (P := fun s => Relabels g s ∧ s.connNameOf? c = g.connNameOf? c) ?_ ⟨.refl g, rfl⟩ h
  · exact hall.2
  · rintro s n s' hn ⟨hrel, hs⟩ hstep
    refine ⟨hrel.trans (relabels_cleanName hstep), ?_⟩
    have hnot : c ∉ s.connsOf n := by
      rw [hrel.alike.connsOf]
      exact hc n hn
    rw [connNameOf?_cleanName hstep, if_neg fun hcond => hnot hcond.1, hs]

/-- A connection of a pin or pin node that bears the name of the node changes with it. -/
theorem connNameOf?_cleanNames (h : g.cleanNames = .ok g') (hn : n ∈ g.pins ++ g.pinNodes)
    (hc : c ∈ g.connsOf n) (hown : ∀ m ∈ g.pins ++ g.pinNodes, c ∈ g.connsOf m → m = n) :
    g'.connNameOf? c = if g.connNameOf? c = g.nodeNameOf? n then
      (g.connNameOf? c).map Text.identifier else g.connNameOf? c := by
  have hid : Text.identifier ∘ Text.identifier = Text.identifier :=
    funext fun s => Text.identifier_eq_self (Text.isIdentifier_identifier s)
  have hall := foldlM_inits (P := fun pre s => Relabels g s ∧
    s.nodeNameOf? n = (if n ∈ pre then (g.nodeNameOf? n).map Text.identifier else g.nodeNameOf? n) ∧
    s.connNameOf? c = if n ∈ pre ∧ g.connNameOf? c = g.nodeNameOf? n then
      (g.connNameOf? c).map Text.identifier else g.connNameOf? c) ?_ (by simp [Relabels.refl]) h
  · rw [hall.2.2]
    simp only [hn, true_and]
  · rintro pre m post s s' hl ⟨hrel, hnode, hs⟩ hstep
    have hm : m ∈ g.pins ++ g.pinNodes := by simp [hl]
    have hstep' := connNameOf?_cleanName hstep c
    refine ⟨hrel.trans (relabels_cleanName hstep), ?_, ?_⟩
    · rw [nodeNameOf?_cleanName hstep, hnode]
      by_cases hmn : n = m
      · by_cases hpre : n ∈ pre <;> simp [hpre, hid]
      · simp [hmn]
    · rw [hstep', hrel.alike.connsOf]
      by_cases hmn : m = n
      · subst hmn
        have hmem : m ∈ pre ++ [m] := List.mem_append_right _ List.mem_cons_self
        rw [hnode, hs]
        by_cases hpre : m ∈ pre
        · -- a second time changes nothing
          by_cases hsame : g.connNameOf? c = g.nodeNameOf? m
          · simp [hpre, hc, hsame, hid]
          · simp only [hpre, hsame, and_false, if_false, if_true, hc, true_and, hmem]
            split
            · rename_i heq
              rw [heq, Option.map_map, hid]
            · rfl
        · simp [hpre, hc]
      · have hnot : c ∉ g.connsOf m := fun hcm => hmn (hown m hm hcm)
        have hmem : n ∈ pre ++ [m] ↔ n ∈ pre := by simp [Ne.symm hmn]
        simp only [hnot, false_and, if_false, hs, hmem]

end PldSynth.Network
