import PldSynth.Proofs.Network.Forwarding
import PldSynth.Proofs.Network.Redirection

/-!
# Where the names of pin nodes come from

A pin node bears the name of a register or a name that was made up for it. The made-up names are
numbered, and no number is used twice. A register that gave its name to a pin node is taken over at
once, so it does not give it to another one. `NamedBy` states both, and every pass keeps it.
-/

namespace PldSynth.Network

variable {K : NodeKind → Bool} {g0 g g' g1 g2 : Network} {n m r : NodeId} {c o : ConnId} {k : Nat}
  {source' : Node}

/-- The name with the given number that is made up for a pin node. -/
def madeUpName (k : Nat) : String :=
  "PN" ++ toString k

/-- Where a pin node has its name from. -/
inductive NameSource
  | register (r : NodeId)
  | number (k : Nat)
  deriving DecidableEq

namespace NameSource

/-- The name, where `g` is the network with the registers. -/
def name? (g : Network) : NameSource → Option String
  | .register r => g.nodeNameOf? r
  | .number k => some (madeUpName k)

/-- A register of `g0` that is gone from `g`, or a number that was reached. -/
def Used (g0 g : Network) : NameSource → Prop
  | .register r => r ∈ g0.cells ∧ g0.hasKind NodeKind.isRegister r = true ∧ r ∉ g.cells
  | .number k => k ≤ g.pinNodeNames

theorem Used.mono {a : NameSource} (h : a.Used g0 g) (hc : ∀ n ∈ g'.cells, n ∈ g.cells)
    (hk : g.pinNodeNames ≤ g'.pinNodeNames) : a.Used g0 g' := by
  cases a with
  | register r => exact ⟨h.1, h.2.1, fun hr => h.2.2 (hc r hr)⟩
  | number k => exact Nat.le_trans h hk

end NameSource

/-- In `g`, which `g0` has led to, the names of the pin nodes come from different sources. -/
structure NamedBy (source : NodeId → NameSource) (g0 g : Network) : Prop where
  evolves : Evolves g0 g
  cells : ∀ n ∈ g.cells, n ∈ g0.cells
  name : ∀ n ∈ g.pinNodes, g.nodeNameOf? n = (source n).name? g0
  used : ∀ n ∈ g.pinNodes, (source n).Used g0 g
  inj : ∀ n ∈ g.pinNodes, ∀ m ∈ g.pinNodes, source n = source m → n = m

namespace NamedBy

variable {source : NodeId → NameSource} (h : NamedBy source g0 g)
include h

/-- Pin nodes may go, and their names with them. -/
theorem shrink (hg : g.Owned) (he : Evolves g g') (hp : ∀ n ∈ g'.pinNodes, n ∈ g.pinNodes)
    (hc : ∀ n ∈ g'.cells, n ∈ g.cells) : NamedBy source g0 g' where
  evolves := h.evolves.trans he
  cells n hn := h.cells n (hc n hn)
  name n hn := by
    rw [he.name (isSome_of_kindOf? (hg.pinNode_kind (hp n hn))), h.name n (hp n hn)]
  used n hn := (h.used n (hp n hn)).mono hc he.names
  inj n hn m hm := h.inj n (hp n hn) m (hp m hm)

/-- A new pin node may come, with a name from a source that was not used before. -/
theorem add {a : NameSource} (hg : g.Owned) (he : Evolves g g')
    (hp : g'.pinNodes = g.pinNodes ++ [g.nextNode]) (hc : ∀ n ∈ g'.cells, n ∈ g.cells)
    (hname : g'.nodeNameOf? g.nextNode = a.name? g0) (hnew : ¬ a.Used g0 g) (hused : a.Used g0 g') :
    NamedBy (Function.update source g.nextNode a) g0 g' := by
  have hold : ∀ {n}, n ∈ g.pinNodes → n ≠ g.nextNode := fun hn =>
    ne_nextNode (isSome_of_kindOf? (hg.pinNode_kind hn))
  have hmem : ∀ {n}, n ∈ g'.pinNodes → n ∈ g.pinNodes ∨ n = g.nextNode := by
    intro n hn
    rwa [hp, List.mem_append, List.mem_singleton] at hn
  refine ⟨h.evolves.trans he, fun n hn => h.cells n (hc n hn), fun n hn => ?_, fun n hn => ?_,
    fun n hn m hm heq => ?_⟩
  · rcases hmem hn with hn | rfl
    · rw [Function.update_of_ne (hold hn),
        he.name (isSome_of_kindOf? (hg.pinNode_kind hn)), h.name n hn]
    · rw [Function.update_self, hname]
  · rcases hmem hn with hn | rfl
    · rw [Function.update_of_ne (hold hn)]
      exact (h.used n hn).mono hc he.names
    · rwa [Function.update_self]
  · -- an old source is in use, so it is not the new one
    rcases hmem hn with hn | rfl <;> rcases hmem hm with hm | rfl
    · rw [Function.update_of_ne (hold hn), Function.update_of_ne (hold hm)] at heq
      exact h.inj n hn m hm heq
    · rw [Function.update_of_ne (hold hn), Function.update_self] at heq
      exact absurd (heq ▸ h.used n hn) hnew
    · rw [Function.update_of_ne (hold hm), Function.update_self] at heq
      exact absurd (heq ▸ h.used m hm) hnew
    · rfl

/-- A pin node behind anything but a register gets the next number. -/
theorem add_number (hg : g.Owned) (hputs : PutsPinNode o source' g g1)
    (hk : source'.kind.isRegister = false) (he : Evolves g1 g2) (hp : g2.pinNodes = g1.pinNodes)
    (hc : ∀ n ∈ g2.cells, n ∈ g1.cells) : ∃ source, NamedBy source g0 g2 := by
  have hfor : g.pinNodeNameFor source' = g.freshPinNodeName := by
    rw [pinNodeNameFor, if_neg (by simp [hk])]
  have hname : g1.nodeNameOf? g.nextNode = some (madeUpName (g.pinNodeNames + 1)) := by
    rw [hputs.nodeNameOf?, if_pos rfl, hfor]
    rfl
  have hsome : (g1.node? g.nextNode).isSome := by simp [hputs.node?]
  have hcount : g1.pinNodeNames = g.pinNodeNames + 1 := by
    rw [hputs.names, hfor]
    rfl
  refine ⟨_, h.add hg (hputs.evolves.trans he) (hp.trans hputs.pinNodes)
    (fun n hn => hputs.cells ▸ hc n hn) (a := .number (g.pinNodeNames + 1)) ?_ ?_ ?_⟩
  · rw [he.name hsome, hname]
    rfl
  · exact Nat.not_succ_le_self _
  · exact hcount ▸ he.names

/-- A pin node behind a register has the name of the register, if the register goes. -/
theorem add_register (hg : g.Owned) (hg0 : g0.Owned)
    (hputs : PutsPinNode o source' g g1) (hr : r ∈ g.cells) (hsource : g.node? r = some source')
    (hk : source'.kind.isRegister) (he : Evolves g1 g2) (hp : g2.pinNodes = g1.pinNodes)
    (hc : g2.cells = g1.cells.filter (· ≠ r)) : ∃ source, NamedBy source g0 g2 := by
  have hr0 := h.cells r hr
  have hsome := hg0.cell_isSome hr0
  have hcells : ∀ n ∈ g2.cells, n ∈ g.cells := by
    intro n hn
    rw [hc, hputs.cells] at hn
    exact (List.mem_filter.mp hn).1
  -- the register was still there, so nothing had its name yet
  refine ⟨_, h.add hg (hputs.evolves.trans he) (hp.trans hputs.pinNodes) hcells (a := .register r) ?_
    (fun hused => hused.2.2 hr) ⟨hr0, ?_, ?_⟩⟩
  · rw [he.name (by simp [hputs.node?]), hputs.nodeNameOf?, if_pos rfl, pinNodeNameFor, if_pos hk]
    show some source'.name = g0.nodeNameOf? r
    rw [← h.evolves.name hsome, nodeNameOf?, hsource]
    rfl
  · rw [← h.evolves.hasKind hsome, hasKind, kindOf?_def, hsource]
    exact hk
  · rw [hc]
    simp

end NamedBy

/-! ## The passes -/

theorem Shares.namedBy (h : Shares o n source' g g') (hg : g.Owned)
    (hn : ∃ source, NamedBy source g0 g) : ∃ source, NamedBy source g0 g' := by
  obtain ⟨source, hn⟩ := hn
  have hk := h.given.1
  have hk' : source'.kind.isRegister = false := by
    cases hr : source'.kind.isRegister with
    | false => rfl
    | true => rw [NodeKind.isSequential_of_isRegister hr] at hk; cases hk
  exact hn.add_number hg h.puts hk' (.refl g') rfl fun _ hn => hn

/-- The first pass makes up the names of its pin nodes. -/
theorem namedBy_branch {r : Bool × Network} (hg : g.Fresh K) (hpins : g.pins = [])
    (hpinNodes : g.pinNodes = []) (h : g.branch = .ok r) : ∃ source, NamedBy source g r.2 := by
  simp only [branch, Attempt.bind_eq_ok, Attempt.pure_eq_ok] at h
  obtain ⟨_, -, g1, h1, w, hw, g2, h2, -, -, rfl⟩ := h
  have hexp := exposed_exposePorts hg hpins h1
  have hnone : ∀ {n}, n ∉ g1.pinNodes := by
    rw [hexp.pinNodes, hpinNodes]
    exact List.not_mem_nil
  -- before the walk there are pins only
  have hstart : NamedBy (fun _ => .number 0) g g1 :=
    ⟨hexp.refines.evolves, fun n hn => hexp.cells ▸ hn, fun n hn => absurd hn hnone,
      fun n hn => absurd hn hnone, fun n hn => absurd hn hnone⟩
  have hwalk := nameSharedOutputs_invariant
    (P := fun s => Branched K g s ∧ ∃ source, NamedBy source g s) hexp.fresh.toSound
    ⟨.of_exposed hpinNodes hexp, _, hstart⟩
    (fun hs hP hsh => ⟨hP.1.shares hsh, hsh.namedBy hs.toOwned hP.2⟩) hw
  obtain ⟨hb, source, hn⟩ := hwalk
  have hr := retires_rebuildTop hb.fresh.toTidy h2
  exact ⟨source, hn.shrink hb.fresh.toOwned hr.evolves (fun n => hr.pinNodes.mem)
    fun n => hr.cells.mem⟩

/-- A takeover may add one pin node. For a register it has the name of the register, which is gone
afterwards. -/
theorem TakesOver.namedBy {s : Takeover} (ht : TakesOver s g g1 g2 g') (hg : g.Poised K)
    (hg0 : g0.Owned) (hn : ∃ source, NamedBy source g0 g) : ∃ source, NamedBy source g0 g' := by
  obtain ⟨source, hn⟩ := hn
  have hcells : ∀ n ∈ g2.cells, n ∈ g1.cells := by
    intro n hn
    rw [ht.applies.cells] at hn
    exact (List.mem_filter.mp hn).1
  have hmerged : ∃ source, NamedBy source g0 g2 := by
    have hseats := ht.seats
    have happ := ht.applies
    generalize s.target = t, s.slot = slot at hseats
    cases hseats with
    | existing =>
      exact ⟨source, hn.shrink hg.toOwned happ.evolves (fun n hn => happ.pinNodes ▸ hn) hcells⟩
    | @fresh _ source' hputs howner =>
      obtain ⟨cell, hcell, hsource⟩ := howner
      obtain rfl : s.cell = cell := Option.mem_unique (hg.owner ht.mem) hcell
      by_cases hreg : source'.kind.isRegister = true
      · exact hn.add_register hg.toOwned hg0 hputs (ht.mem_cells hg.toOwned) hsource hreg happ.evolves
          happ.pinNodes happ.cells
      · exact hn.add_number hg.toOwned hputs (by simpa using hreg) happ.evolves happ.pinNodes hcells
  -- at the end of a takeover pin nodes that nothing reads go
  obtain ⟨source, hn⟩ := hmerged
  have hr := ht.retires hg
  exact ⟨source, hn.shrink (ht.poised2 hg).toOwned hr.evolves (fun n => hr.pinNodes.mem)
    fun n => hr.cells.mem⟩

theorem namedBy_collapse {r : Bool × Network} (hg : g.Ready K) (hg0 : g0.Owned)
    (hn : ∃ source, NamedBy source g0 g) (h : g.collapse = .ok r) :
    r.2.Ready K ∧ Evolves g r.2 ∧ r.2.pins = g.pins ∧ ∃ source, NamedBy source g0 r.2 := by
  have hstep : ∀ {u : Takeover} {s g1 g2 s'}, s.Poised K →
      (s.pins = g.pins ∧ ∃ source, NamedBy source g0 s) → TakesOver u s g1 g2 s' →
      s'.pins = g.pins ∧ ∃ source, NamedBy source g0 s' := by
    rintro u s g1 g2 s' hs ⟨hpins, hn⟩ ht
    refine ⟨?_, ht.namedBy hs hg0 hn⟩
    rw [(ht.retires hs).pins, ht.applies.pins, ht.seats.pins, hpins]
  exact collapse_invariant hg ⟨rfl, hn⟩
    (fun hs hP _ ht => hstep hs.toPoised hP ht) id (fun hs hP _ ht => hstep hs.toPoised hP ht) h

end PldSynth.Network
