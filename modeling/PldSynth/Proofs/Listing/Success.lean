import PldSynth.Proofs.Compile.Gates
import PldSynth.Proofs.Listing.CleanNames
import PldSynth.Proofs.Network.Resemblance

/-!
# When there is a listing

Names can always be cleaned, and what they are does not matter for the equations. So there is a listing
exactly if the equations can be written (`exists_listing_iff`).
-/

namespace PldSynth.Network

open Attempt

variable {K : NodeKind → Bool} {g g' : Network} {n m : NodeId} {c d o : ConnId}

/-! ## Cleaning the names -/

/-- The name of a node that is there can be cleaned. -/
theorem exists_cleanName (hg : g.Sound) (hn : (g.node? n).isSome) : ∃ g', g.cleanName n = .ok g' := by
  rcases Option.isSome_iff_exists.mp hn with ⟨x, hx⟩
  refine exists_bind (node_eq_ok.mpr hx) ?_
  dsimp only
  split
  · exact ⟨_, rfl⟩
  refine exists_foldlM fun pre c post s hl hs => ?_
  have hrelabels : Relabels g s := by
    refine foldlM_invariant (fun t e t' _ ht hstep => ?_)
      (relabels_renameNode _) hs
    simp only [bind_eq_ok, pure_eq_ok] at hstep
    rcases hstep with ⟨y, -, rfl⟩
    split
    · exact ht.trans (relabels_renameConn _)
    · exact ht
  have hc : c ∈ s.connsOf n := by
    rw [hrelabels.alike.connsOf, connsOf_of_node? hx, hl]
    simp
  rcases Option.isSome_iff_exists.mp ((hrelabels.alike.sound hg).conn_isSome hc) with ⟨y, hy⟩
  exact exists_bind (conn_eq_ok.mpr hy) ⟨_, rfl⟩

theorem exists_cleanNames (hg : g.Sound) : ∃ g', g.cleanNames = .ok g' := by
  refine exists_foldlM fun pre n post s hl hs => ?_
  have hrelabels : Relabels g s := foldlM_invariant
    (fun _ _ _ _ ht hstep => ht.trans (relabels_cleanName hstep)) (.refl g) hs
  have hn : n ∈ g.pins ++ g.pinNodes := by simp [hl]
  have hk : ∃ k, g.kindOf? n = some k := by
    rcases List.mem_append.mp hn with hn | hn
    · exact ⟨_, hg.pin_kind hn⟩
    · exact ⟨_, hg.pinNode_kind hn⟩
  rcases hk with ⟨k, hk⟩
  refine exists_cleanName (hrelabels.alike.sound hg) (isSome_of_kindOf? (k := k) ?_)
  rw [hrelabels.alike.kindOf?, hk]

/-! ## The same wires under other names -/

namespace Alike

theorem symm (h : Alike g g') : Alike g' g where
  kindOf? n := (h.kindOf? n).symm
  constantOf? n := (h.constantOf? n).symm
  connsOf n := (h.connsOf n).symm
  directionOf? c := (h.directionOf? c).symm
  ownerOf? c := (h.ownerOf? c).symm
  refsOf c := (h.refsOf c).symm
  cells := h.cells.symm
  pins := h.pins.symm
  pinNodes := h.pinNodes.symm
  names := h.names.symm

/-- A network is mirrored by one that is alike. -/
theorem mirrors {N : NodeId → NodeId → Prop} {C : ConnId → ConnId → Prop} (h : Alike g g')
    (hN : ∀ n n', N n n' ↔ n = n') (hC : ∀ c c', C c c' ↔ c = c') : Mirrors N C g g' where
  node {n _} _ _ := ⟨n, (hN n n).mpr rfl⟩
  kind {n n'} hn := (hN n n').mp hn ▸ h.kindOf? n
  constant {n n'} hn _ := (hN n n').mp hn ▸ h.constantOf? n
  conns {n n'} hn := by
    rw [← (hN n n').mp hn, h.connsOf]
    exact List.forall₂_same.mpr fun c _ => (hC c c).mpr rfl
  owner {c c' n} hc hmem := by
    rw [← (hC c c').mp hc]
    exact ⟨n, (hN n n).mpr rfl, (h.connsOf n).symm ▸ hmem⟩
  direction {c c'} hc := (hC c c').mp hc ▸ h.directionOf? c
  refs {c c' d} hc _ hd := by
    rw [← (hC c c').mp hc, h.refsOf]
    exact ⟨d, hd, (hC d d).mpr rfl⟩
  unique {c c1 c2} h1 h2 := ((hC c c1).mp h1).symm.trans ((hC c c2).mp h2)

theorem resembles (h : Alike g g') : Resembles (· = ·) (· = ·) g g' where
  forth := h.mirrors (fun _ _ => .rfl) fun _ _ => .rfl
  back := h.symm.mirrors (fun _ _ => eq_comm) fun _ _ => eq_comm

end Alike

/-! ## The listing -/

/-- Besides its equations, a listing holds names only. -/
theorem exists_listing_iff_equations (hg : g.Owned) (options : Options) :
    (∃ text, g.listing options = .ok text) ↔ ∃ es, g.equations = .ok es := by
  constructor
  · rintro ⟨text, h⟩
    simp only [listing, bind_eq_ok] at h
    rcases h with ⟨_, -, _, -, _, -, es, hes, -⟩
    exact ⟨es, hes⟩
  · rintro ⟨es, hes⟩
    have hends : Ends (fun _ => False) (fun _ => True) g.equations := .inl ⟨es, hes, trivial⟩
    rcases ends_listing hg hends options with ⟨text, htext, -⟩ | ⟨_, -, hfalse⟩
    · exact ⟨text, htext⟩
    · exact hfalse.elim

/-- After the names are cleaned, there is a listing if and only if every live gate has enough inputs and
no expression behind a live gate is nested too deeply. -/
theorem exists_listing_iff {v : ConnId → Bool} (hg : g.Tidy K)
    (hK : ∀ k, k.isCombinational → K k) (hset : g.Settled v) (hu : g.Unshared) (htop : g.Collected)
    (hdesign : g.connsOf designId = []) (options : Options) :
    (∃ text, (g.cleanNames >>= fun g' => g'.listing options) = .ok text) ↔ g.Writable := by
  rcases exists_cleanNames hg.toSound with ⟨g', hclean⟩
  have hr := relabels_cleanNames hclean
  have hg' := hr.alike.tidy hg
  have hresembles := hr.alike.resembles
  have hset' := (hr.alike.preserves hr.absorbedOf hg.toSound hset).settled
  rw [hclean, ok_bind, exists_listing_iff_equations hg'.toOwned,
    exists_equations_iff hg' (hr.collected htop) ((hr.alike.connsOf _).trans hdesign) hK
      (hresembles.unshared hu) (hset'.wellFounded hg'.toSound)]
  exact ⟨hresembles.symm.writable hg'.toWired, hresembles.writable hg.toWired⟩

end PldSynth.Network
