import Mathlib.Data.List.Forall2
import PldSynth.Proofs.Netlist.Bindings

/-!
# Which node a cell becomes

The cells of a design become nodes one after the other, behind the node of the design itself, and each
node has the connections that its cell binds (`Design.Rows`). So the connections of a design are cut into
blocks, one for the ports and one for each cell, and which block a binding is in says which node it is at.
-/

namespace PldSynth

open List Network

/-- The blocks of two lists that are cut in the same places, side by side. -/
theorem zip_flatMap {α β γ δ : Type} {f : α → List γ} {f' : β → List δ} {l : List α} {l' : List β}
    (h : List.Forall₂ (fun x y => (f x).length = (f' y).length) l l') :
    (l.flatMap f).zip (l'.flatMap f') = (l.zip l').flatMap fun p => (f p.1).zip (f' p.2) := by
  induction h with
  | nil => rfl
  | cons hlen _ ih =>
    rw [flatMap_cons, flatMap_cons, zip_append hlen, ih, zip_cons_cons,
      flatMap_cons]

namespace Draft

variable {d d' : Draft} {n m : NodeId} {ts : List Terminal} {pre : List NodeId}
  {cells : List (String × Cell)}

/-- The node has the kind of the cell and as many connections as the cell binds. -/
def Stands (g : Network) (cell : Cell) (n : NodeId) : Prop :=
  (∃ k, Library.kindOfType? cell.type = some k ∧ g.kindOf? n = some k) ∧
    cell.bindings.length = (g.connsOf n).length

theorem forall₂_stands_congr {g g' : Network} {cells : List Cell} {ns : List NodeId}
    (h : List.Forall₂ (Stands g) cells ns)
    (hold : ∀ n ∈ ns, g'.kindOf? n = g.kindOf? n ∧ g'.connsOf n = g.connsOf n) :
    List.Forall₂ (Stands g') cells ns := by
  rw [forall₂_iff_zip] at h ⊢
  refine ⟨h.1, fun {cell n} hmem => ?_⟩
  rcases hold n (of_mem_zip hmem).2 with ⟨hk, hconns⟩
  unfold Stands
  rw [hk, hconns]
  exact h.2 hmem

/-- Drawing a cell keeps the nodes that were drawn before and adds one that stands for the cell. -/
theorem Traced.stands_addCell {root : String} {cell : String × Cell} (h : d.Traced pre n ts)
    (hrun : Draft.addCell root d cell = .ok d') :
    (∃ new : List Terminal, new.map Terminal.binding = cell.2.bindings ∧
      d'.Traced (pre ++ [n]) d.net.nextNode (ts ++ new)) ∧
      (∀ m ∈ d.net.boundNodes, d'.net.kindOf? m = d.net.kindOf? m ∧ d'.net.connsOf m = d.net.connsOf m) ∧
      Stands d'.net cell.2 d.net.nextNode := by
  rcases h.addCell hrun with ⟨new, hnew, htraced⟩
  rcases valid_addCell h.valid hrun with ⟨-, -, hnode, k, htype, hdrawn, -⟩
  have hold : ∀ m ∈ d.net.boundNodes,
      d'.net.kindOf? m = d.net.kindOf? m ∧ d'.net.connsOf m = d.net.connsOf m := by
    intro m hm
    rw [kindOf?_def, connsOf_def,
      hnode (h.valid.sound.toOwned.isSome_boundNodes hm)]
    exact ⟨rfl, rfl⟩
  refine ⟨⟨new, hnew, htraced⟩, hold, ⟨k, htype, hdrawn.kind⟩, ?_⟩
  -- the terminals that are new are the connections of the new node
  have hconns := h.tracks.conns
  have hconns' := htraced.tracks.conns
  rw [append_nil] at hconns hconns'
  rw [boundConns, htraced.last, ← h.last, flatMap_append, flatMap_singleton,
    flatMap_congr fun m hm => (hold m hm).2, map_append, hconns] at hconns'
  rw [← append_cancel_left hconns', ← hnew, length_map, length_map]

/-- The cells that were drawn are the nodes behind the node of the design. -/
def Rows (cells : List (String × Cell)) (g : Network) : Prop :=
  ∃ ns, g.boundNodes = designId :: ns ∧ List.Forall₂ (Stands g) (cells.map Prod.snd) ns

/-- Cells that are drawn line up behind those that were drawn before. -/
theorem Traced.rows_addCells {root : String} {more : List (String × Cell)} (h : d.Traced pre n ts)
    (hrows : Rows cells d.net) (hrun : more.foldlM (Draft.addCell root) d = .ok d') :
    Rows (cells ++ more) d'.net := by
  induction more generalizing d cells pre n ts with
  | nil =>
    cases hrun
    rw [append_nil]
    exact hrows
  | cons cell more ih =>
    rcases Attempt.foldlM_cons_eq_ok.mp hrun with ⟨d1, h1, hrest⟩
    rcases h.stands_addCell h1 with ⟨⟨_, -, htraced⟩, hold, hstands⟩
    rcases hrows with ⟨ns, hns, hrows⟩
    rw [append_cons]
    refine ih htraced ⟨ns ++ [d.net.nextNode], ?_, ?_⟩ hrest
    · rw [htraced.last, ← h.last, hns, cons_append]
    · have hkeep := forall₂_stands_congr hrows fun m hm => hold m (hns ▸ mem_cons_of_mem _ hm)
      rw [map_append]
      exact rel_append hkeep (.cons hstands .nil)

end Draft

namespace Design

variable {d : Design} {g : Network} {name : String}

/-- The node has the kind of the cell and the connections that the cell binds. -/
def CellAt (d : Design) (g : Network) (cell : Cell) (n : NodeId) : Prop :=
  (∃ k, Library.kindOfType? cell.type = some k ∧ g.kindOf? n = some k) ∧
    List.Forall₂ (fun b c => (b, c) ∈ d.bindings.zip g.boundConns) cell.bindings (g.connsOf n)

/-- The cells of the design are the nodes `ns`, and each node has the connections that its cell binds. -/
structure Rows (d : Design) (ns : List NodeId) (g : Network) : Prop where
  nodes : g.boundNodes = designId :: ns
  ports : List.Forall₂ (fun b c => (b, c) ∈ d.bindings.zip g.boundConns)
    (d.ports.entries.flatMap Port.bindings) (g.connsOf designId)
  cells : List.Forall₂ (d.CellAt g) (d.cells.entries.map Prod.snd) ns

/-- If as many connections are bound as there are bindings, each node has those of its cell. -/
theorem rows_of_stands {ns : List NodeId} (hnodes : g.boundNodes = designId :: ns)
    (hlen : d.bindings.length = g.boundConns.length)
    (hrows : List.Forall₂ (Draft.Stands g) (d.cells.entries.map Prod.snd) ns) : d.Rows ns g := by
  have hconns : g.boundConns = g.connsOf designId ++ ns.flatMap g.connsOf := by
    rw [boundConns, hnodes, flatMap_cons]
  have hbindings : d.bindings = d.ports.entries.flatMap Port.bindings ++
      (d.cells.entries.map Prod.snd).flatMap Cell.bindings := by
    rw [bindings, flatMap_map]
  have hcut := hrows.imp fun _ _ h => h.2
  have hcells := (forall₂_iff_zip.mp hrows).1
  have hsame : ((d.cells.entries.map Prod.snd).flatMap Cell.bindings).length =
      (ns.flatMap g.connsOf).length := by
    rw [length_flatMap, length_flatMap]
    congr 1
    rw [← forall₂_eq_eq_eq, forall₂_map_left_iff, forall₂_map_right_iff]
    exact hcut
  -- the cells have as many connections as bindings, so the ports do too
  have hports : (d.ports.entries.flatMap Port.bindings).length = (g.connsOf designId).length := by
    rw [hconns, hbindings, length_append, length_append] at hlen
    omega
  have hzip : d.bindings.zip g.boundConns =
      (d.ports.entries.flatMap Port.bindings).zip (g.connsOf designId) ++
        ((d.cells.entries.map Prod.snd).zip ns).flatMap fun p => p.1.bindings.zip (g.connsOf p.2) := by
    rw [hconns, hbindings, zip_append hports, zip_flatMap hcut]
  refine ⟨hnodes, ?_, ?_⟩
  · rw [hzip]
    exact forall₂_iff_zip.mpr ⟨hports, fun hmem => mem_append_left _ hmem⟩
  · refine forall₂_iff_zip.mpr ⟨hcells, fun {cell n} hmem => ?_⟩
    rcases (forall₂_iff_zip.mp hrows).2 hmem with ⟨hkind, hlen⟩
    refine ⟨hkind, forall₂_iff_zip.mpr ⟨hlen, fun hb => ?_⟩⟩
    rw [hzip]
    exact mem_append_right _ (mem_flatMap.mpr ⟨(cell, n), hmem, hb⟩)

/-- The network of a design has one node for each cell. -/
theorem exists_rows (h : d.toNetwork name = .ok g) : ∃ ns, d.Rows ns g := by
  rcases exists_bound h with ⟨ts, hbound⟩
  have hlen : d.bindings.length = g.boundConns.length := by
    rw [← hbound.bindings, ← hbound.conns, length_map, length_map]
  simp only [Design.toNetwork, Attempt.bind_eq_ok, Attempt.pure_eq_ok] at h
  rcases h with ⟨draft, hports, draft', hcells, net, hnet, rfl⟩
  rcases Draft.exists_traced_addPorts hports with ⟨_, -, htraced⟩
  have hstart : Draft.Rows [] draft.net := ⟨[], htraced.last, .nil⟩
  rcases htraced.rows_addCells hstart hcells with ⟨ns, hns, hrows⟩
  rcases Draft.exists_traced hports hcells with ⟨_, _, _, -, htraced'⟩
  -- drawing the wires and naming the registers moves no connection
  rcases htraced'.valid.connectAll_spec hnet with ⟨-, ⟨f, hf⟩, -⟩
  have hr : Renamed net (d.nets.entries.foldl (Draft.nameRegisters draft'.registers) net) :=
    renamed_foldl Draft.renamed_nameRegisters _ net
  have hkind := fun m => (hr.alike.kindOf? m).trans (hf.kindOf?)
  refine ⟨ns, rows_of_stands ?_ hlen (Draft.forall₂_stands_congr hrows fun m _ => ⟨hkind m, ?_⟩)⟩
  · rw [← hns]
    exact boundNodes_congr (hr.alike.cells.trans hf.cells) fun m _ => hkind m
  · exact (hr.alike.connsOf m).trans hf.connsOf

end Design

end PldSynth
