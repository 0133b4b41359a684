import PldSynth.Network.Consistency
import PldSynth.Proofs.Network.Sound

/-!
# The consistency check

A network in order passes the check of each of its nodes (`Network.Sound.checkNode`).
-/

namespace PldSynth.Network

open Attempt

variable {g : Network} {n : NodeId} {c r : ConnId} {x : Conn}

/-- The ends of a wire face each other. -/
theorem Wired.mayFace (hg : g.Wired) {y : Conn} (hx : g.conn? c = some x) (hy : g.conn? r = some y)
    (hr : r ∈ g.refsOf c) : x.direction.mayFace y.direction := by
  have hdx : g.directionOf? c = some x.direction := by rw [directionOf?_def, hx]; rfl
  have hdy : g.directionOf? r = some y.direction := by rw [directionOf?_def, hy]; rfl
  have hsink := hg.sink_of_output hr
  have hout := hg.output_of_sink hr
  simp only [isSink, isOutput, hdx, hdy] at hsink hout
  cases hd : x.direction with
  | bidirectional => rfl
  | output => simpa [hd, Direction.mayFace] using hsink
  | input =>
    have hy' : y.direction = .output := by simpa [hd, Direction.isInput] using hout
    rw [hy']
    rfl

theorem Wired.checkRef (hg : g.Wired) (hx : g.conn? c = some x) (hr : r ∈ g.refsOf c) :
    g.checkRef c x r = .ok () := by
  have hback := hg.mirror hr
  obtain ⟨y, hy⟩ := Option.isSome_iff_exists.mp (isSome_of_mem_refsOf hback)
  rw [refsOf_of_conn? hy] at hback
  rw [Network.checkRef, bind_eq_ok]
  refine ⟨y, conn_eq_ok.mpr hy, ?_⟩
  simp only [hg.mayFace hx hy hr, List.contains_iff_mem.mpr hback, if_true]
  rfl

/-- In a sound network every connection passes the check. -/
theorem Sound.checkConn (hg : g.Sound) (hc : c ∈ g.connsOf n) : g.checkConn n c = .ok () := by
  obtain ⟨x, hx⟩ := Option.isSome_iff_exists.mp (hg.conn_isSome hc)
  have howner : x.owner = n := by
    have := hg.owner hc
    rw [ownerOf?_def, hx] at this
    exact Option.some.inj this
  have hrefs := refsOf_of_conn? hx
  have hcount : ¬ (x.direction = .input ∧ 1 < x.refs.length) := by
    rintro ⟨hdir, hlt⟩
    have hsink : g.isSink c := by
      rw [isSink, directionOf?_def, hx]
      simp [hdir, Direction.isInput]
    have := hg.sole hsink
    rw [hrefs] at this
    omega
  rw [Network.checkConn, bind_eq_ok]
  refine ⟨x, conn_eq_ok.mpr hx, ?_⟩
  simp only [howner, if_true, if_neg hcount]
  exact forM_eq_ok.mpr fun r hr => hg.toWired.checkRef hx (hrefs ▸ hr)

/-- A node of a network in order passes the check. -/
theorem Sound.checkNode (hg : g.Sound) (hn : (g.node? n).isSome) : g.checkNode n = .ok () := by
  obtain ⟨x, hx⟩ := Option.isSome_iff_exists.mp hn
  rw [Network.checkNode, bind_eq_ok]
  refine ⟨x, node_eq_ok.mpr hx, forM_eq_ok.mpr fun c hc => hg.checkConn ?_⟩
  rw [connsOf_def, hx]
  exact hc

theorem mayFace_of_checkRef (h : g.checkRef c x r = .ok ()) :
    ∃ y, g.conn? r = some y ∧ x.direction.mayFace y.direction := by
  simp only [Network.checkRef, bind_eq_ok, conn_eq_ok] at h
  rcases h with ⟨y, hy, h⟩
  refine ⟨y, hy, ?_⟩
  by_contra hno
  simp only [hno, if_false, bind_eq_ok, throw_eq_ok, false_and, exists_false,
    and_false] at h

theorem checkRef_of_checkConn (hx : g.conn? c = some x) (hr : r ∈ x.refs)
    (h : g.checkConn n c = .ok ()) : g.checkRef c x r = .ok () := by
  simp only [Network.checkConn, bind_eq_ok, conn_eq_ok] at h
  obtain ⟨y, hy, h⟩ := h
  obtain rfl := Option.mem_unique hx hy
  split at h
  · split at h
    · simp only [bind_eq_ok, throw_eq_ok, false_and, exists_false, and_false] at h
    · exact forM_eq_ok.mp h r hr
  · simp only [bind_eq_ok, throw_eq_ok, false_and, exists_false, and_false] at h

/-- What an input of a checked node reads can drive. -/
theorem isSource_of_checkAll (h : g.checkAll = .ok ()) (hn : n ∈ g.pins ++ g.pinNodes ++ g.cells)
    (hc : c ∈ g.connsOf n) (hi : g.isInput c) (hr : r ∈ g.refsOf c) : g.isSource r := by
  have hnode := forM_eq_ok.mp h n hn
  simp only [Network.checkNode, bind_eq_ok, node_eq_ok] at hnode
  obtain ⟨z, hz, hconns⟩ := hnode
  rw [connsOf_def, hz] at hc
  obtain ⟨x, hx⟩ := Option.isSome_iff_exists.mp (isSome_of_mem_refsOf hr)
  rw [refsOf_of_conn? hx] at hr
  have href := checkRef_of_checkConn hx hr (forM_eq_ok.mp hconns c hc)
  have hdir : x.direction = .input := by simpa [isInput, directionOf?_def, hx] using hi
  rcases mayFace_of_checkRef href with ⟨y, hy, hface⟩
  rw [hdir] at hface
  rw [isSource, directionOf?_def, hy]
  exact hface

end PldSynth.Network
