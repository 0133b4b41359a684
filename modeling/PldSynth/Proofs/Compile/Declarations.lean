import Mathlib.Data.List.Nodup
import PldSynth.Proofs.Compile.Sequential
import PldSynth.Proofs.Network.Labels
import PldSynth.Proofs.Network.Naming

/-!
# The names that a listing declares

A listing declares the bits of the ports as pins, and then its pin nodes. A pin node has the name of a
register or a made-up one (`Network.NameSource`), and neither is compared with the names of the ports
or of other registers. `Design.nodup_declared_iff` says when the declared names differ nevertheless, and
`Design.shiftRegister` is a design where they do not.
-/

namespace PldSynth

open Attempt List Network

variable {d : Design} {g g' : Network} {name out s : String} {options : Options}

/-! ## Ports -/

/-- The names of the bits of the ports, in order. -/
def Design.portNames (d : Design) : List String :=
  (d.ports.entries.flatMap Draft.portBits).map Prod.fst

/-- The names of the ports have letters, digits and underscores only. -/
def Design.hasCleanPorts (d : Design) : Bool :=
  d.ports.entries.all fun p => Text.isIdentifier p.1

theorem Design.isIdentifier_of_mem (h : d.hasCleanPorts) (hs : s ∈ d.portNames) : Text.isIdentifier s := by
  obtain ⟨bit, hbit, rfl⟩ := mem_map.mp hs
  obtain ⟨port, hport, hbit⟩ := mem_flatMap.mp hbit
  have hclean : Text.isIdentifier port.1 := all_eq_true.mp h port hport
  unfold Draft.portBits at hbit
  split at hbit
  · cases hbit
  · obtain ⟨i, -, rfl⟩ := mem_map.mp hbit
    unfold Draft.bitName
    split
    · exact Text.isIdentifier_append hclean (Text.isIdentifier_toString i)
    · exact hclean

/-! ## Declarations -/

/-- The listing declares these pins and pin nodes, in this order. -/
def Listing.Declares (options : Options) (out : String) (pins pinNodes : List String) : Prop :=
  ∃ header equations, out = lines header ++ gap ++ banner ++ gap ++
    lines (pins.map (pinLine options.pins)) ++ gap ++ lines (pinNodes.map pinNodeLine) ++ gap ++
    lines equations

theorem map_eq_of_forall₂ {α β γ : Type} {f : α → γ} {f' : β → γ} {l : List α} {l' : List β}
    (h : List.Forall₂ (fun a b => f a = f' b) l l') : l.map f = l'.map f' := by
  rw [← forall₂_eq_eq_eq, forall₂_map_left_iff, forall₂_map_right_iff]
  exact h

/-- What a listing declares are the names of the pins and pin nodes of its network. -/
theorem Network.declares_listing {pins pinNodes : List String} (h : g.listing options = .ok out)
    (hpins : g.pins.map g.nodeNameOf? = pins.map some)
    (hpinNodes : g.pinNodes.map g.nodeNameOf? = pinNodes.map some) :
    Listing.Declares options out pins pinNodes := by
  simp only [listing, bind_eq_ok, pure_eq_ok, mapM_eq_ok, nodeName_eq_ok] at h
  obtain ⟨title, -, pins', hpins', pinNodes', hpinNodes', equations, -, rfl⟩ := h
  have hinj : Function.Injective (List.map (some : String → Option String)) :=
    map_injective_iff.mpr (Option.some_injective _)
  obtain rfl := hinj ((map_eq_of_forall₂ hpins').symm.trans hpins)
  obtain rfl := hinj ((map_eq_of_forall₂ hpinNodes').symm.trans hpinNodes)
  exact ⟨_, _, rfl⟩

namespace Network.NameSource

/-- The name in an equation, where `g` is the network with the registers. -/
def signal (g : Network) : NameSource → String
  | .register r => Text.identifier ((g.nodeNameOf? r).getD "")
  | .number k => madeUpName k

/-- A register of the network, or a number. -/
def Of (g : Network) : NameSource → Prop
  | .register r => r ∈ g.cells ∧ g.hasKind NodeKind.isRegister r = true
  | .number _ => True

theorem Used.of {a : NameSource} (h : a.Used g g') : a.Of g := by
  cases a with
  | register r => exact ⟨h.1, h.2.1⟩
  | number k => trivial

theorem Of.map_name? {a : NameSource} (h : a.Of g) :
    (a.name? g).map Text.identifier = some (a.signal g) := by
  cases a with
  | register r =>
    obtain ⟨x, hx⟩ := Option.isSome_iff_exists.mp (isSome_of_hasKind h.2)
    simp [name?, signal, nodeNameOf?, hx]
  | number k =>
    have hid : Text.isIdentifier (madeUpName k) :=
      Text.isIdentifier_append (by decide) (Text.isIdentifier_toString k)
    rw [name?, Option.map_some, Text.identifier_eq_self hid]
    rfl

end Network.NameSource

theorem Network.madeUpName_injective : Function.Injective madeUpName := by
  intro j k h
  have hdigits : Nat.toDigits 10 j = Nat.toDigits 10 k := by
    have hlist := congrArg String.toList h
    simpa [madeUpName, Nat.toList_repr] using hlist
  rw [← Nat.ofDigitChars_ten_toDigits (n := j), hdigits, Nat.ofDigitChars_ten_toDigits]

/-- Names from different sources differ if those of the registers do. -/
theorem Network.nodup_signals_iff {sources : List NameSource} (hnd : sources.Nodup) :
    (sources.map (·.signal g)).Nodup ↔ ∀ r, .register r ∈ sources → ∀ a ∈ sources,
      a.signal g = NameSource.signal g (.register r) → a = .register r := by
  rw [nodup_map_iff_inj_on hnd]
  constructor
  · exact fun hinj r hr a ha heq => hinj a ha _ hr heq
  · intro hreg a ha b hb heq
    cases a with
    | register r => exact (hreg r ha b hb heq.symm).symm
    | number j =>
      cases b with
      | register r => exact hreg r hb _ ha heq
      | number k => rw [madeUpName_injective heq]

/-! ## The whole way -/

/-- After registers and buffers were taken over, pin nodes may go, and then all names become
identifiers. -/
theorem Network.names_of_cleanNames {limit : Option Nat} {r : Bool × Network} (hg : g.Listed)
    (hr : g.expand limit = .ok r) (h : r.2.cleanNames = .ok g') :
    g'.pins = g.pins ∧ g'.pinNodes.Sublist g.pinNodes ∧
      ∀ n ∈ g'.pins ++ g'.pinNodes, g'.nodeNameOf? n = (g.nodeNameOf? n).map Text.identifier := by
  have hkeeps := KeepsNames.expand hg hr
  have halike := (relabels_cleanNames h).alike
  refine ⟨halike.pins.trans hkeeps.pins, halike.pinNodes ▸ hkeeps.pinNodes, fun n hn => ?_⟩
  rw [halike.pins, halike.pinNodes] at hn
  have hsome : (g.node? n).isSome := by
    rcases mem_append.mp hn with hn | hn
    · exact isSome_of_kindOf? (hg.pin (hkeeps.pins ▸ hn))
    · exact isSome_of_kindOf? (hg.pinNode (hkeeps.pinNodes.subset hn))
  rw [nodeNameOf?_cleanNames h hn, hkeeps.name hsome]

theorem Network.Branched.portNames {K : NodeKind → Bool} (h : Branched K g g') (hd : d.Built g) :
    g'.pins.map g'.nodeNameOf? = d.portNames.map some := by
  have hports : (d.ports.entries.flatMap Draft.portBits).map (fun e => some e.1) =
      (g.connsOf designId).map g.connNameOf? :=
    map_eq_of_forall₂ (hd.covers.ports.imp fun _ _ hlabel => hlabel.1.symm)
  have hpins : (g.connsOf designId).map g.connNameOf? = g'.pins.map g'.nodeNameOf? :=
    map_eq_of_forall₂ (h.pins.imp fun _ _ hp => hp.2.symm)
  rw [← hpins, ← hports, Design.portNames, map_map]
  rfl

/-- Of a network that led to a listing, the pins are named after the ports and the pin nodes after
different sources. -/
theorem Design.Built.names_of_reduced {g1 g2 : Network} {limit : Option Nat} (h : d.Built g)
    (h1 : g.branched = .ok g1) (h2 : g1.simplified = .ok g2) (h3 : g2.reduced limit = .ok g') :
    g'.pins.map g'.nodeNameOf? = d.portNames.map (fun s => some (Text.identifier s)) ∧
      ∃ sources : List NameSource, sources.Nodup ∧ (∀ a ∈ sources, a.Of g) ∧
        g'.pinNodes.map g'.nodeNameOf? = sources.map fun a => some (a.signal g) := by
  -- the shape of the cells does not matter here
  have hfresh : g.checkLoops = .ok () → g.Fresh fun _ => false :=
    h.fresh (fun _ _ _ _ hk => nomatch hk) rfl
  obtain ⟨hg, hb, hs⟩ := h.passes hfresh h1 h2
  obtain ⟨-, r1, hr1, rfl⟩ := branched_eq_ok.mp h1
  simp only [reduced, bind_eq_ok] at h3
  obtain ⟨r3, hr3, r4, hr4, hclean⟩ := h3
  -- pin nodes get their names in the first pass and when registers and buffers are taken over
  obtain ⟨source, hn⟩ := namedBy_branch hg h.pins h.pinNodes hr1
  have hn2 := hn.shrink hb.fresh.toOwned hs.refines.evolves hs.pinNodes hs.cells
  obtain ⟨hready, he, hpins, source, hn3⟩ :=
    namedBy_collapse (hs.ready h hg hb) hg.toOwned ⟨source, hn2⟩ hr3
  obtain ⟨hpins', hsub, hnames⟩ := names_of_cleanNames ⟨hready.pin_kind, hready.pinNode_kind⟩ hr4 hclean
  constructor
  · -- a pin keeps the name of its port until the names become identifiers
    have hall : ∀ n ∈ g'.pins, g'.nodeNameOf? n = (r1.2.nodeNameOf? n).map Text.identifier := by
      intro n hn
      have hn1 : n ∈ r1.2.pins := by rwa [hpins', hpins, hs.pins] at hn
      have hsome := isSome_of_kindOf? (hb.fresh.pin_kind hn1)
      rw [hnames n (mem_append_left _ hn), he.name (hs.refines.evolves.node_isSome hsome),
        hs.refines.evolves.name hsome]
    rw [map_congr_left hall, hpins', hpins, hs.pins]
    have hports := congrArg (List.map (Option.map Text.identifier)) (hb.portNames h)
    rwa [map_map, map_map] at hports
  · refine ⟨g'.pinNodes.map source, ?_, fun a ha => ?_, ?_⟩
    · refine List.Nodup.map_on ?_ (hsub.nodup hready.nodup_pinNodes)
      exact fun n hn m hm => hn3.inj n (hsub.subset hn) m (hsub.subset hm)
    · obtain ⟨n, hn, rfl⟩ := mem_map.mp ha
      exact (hn3.used n (hsub.subset hn)).of
    · rw [map_map]
      refine map_congr_left fun n hn => ?_
      have hn' := hsub.subset hn
      rw [hnames n (mem_append_right _ hn), hn3.name n hn']
      exact (hn3.used n hn').of.map_name?

/-- The bits of the ports are declared as pins, and the pin nodes after different registers of the
network and different numbers. If the names of the ports are identifiers and no two bits have the same
name, then the declared names differ if and only if no pin node has the name of a port and no other pin
node has the name of a register. -/
theorem Design.nodup_declared_iff (hports : d.portNames.Nodup) (hclean : d.hasCleanPorts = true)
    (hg : d.toNetwork name = .ok g) (h : g.compile options = .ok out) :
    ∃ sources : List NameSource, sources.Nodup ∧ (∀ a ∈ sources, a.Of g) ∧
      Listing.Declares options out d.portNames (sources.map (·.signal g)) ∧
      ((d.portNames ++ sources.map (·.signal g)).Nodup ↔
        (∀ a ∈ sources, a.signal g ∉ d.portNames) ∧
          ∀ r, .register r ∈ sources → ∀ a ∈ sources,
            a.signal g = NameSource.signal g (.register r) → a = .register r) := by
  simp only [Network.compile, bind_eq_ok] at h
  obtain ⟨g1, h1, g2, h2, g3, h3, hlist⟩ := h
  obtain ⟨hpins, sources, hnd, hof, hpinNodes⟩ := (built_toNetwork hg).names_of_reduced h1 h2 h3
  have hself : d.portNames.map (fun s => some (Text.identifier s)) = d.portNames.map some :=
    map_congr_left fun s hs =>
      congrArg some (Text.identifier_eq_self (isIdentifier_of_mem hclean hs))
  have hsignals : (sources.map (·.signal g)).map some = sources.map fun a => some (a.signal g) :=
    map_map
  refine ⟨sources, hnd, hof,
    declares_listing hlist (hpins.trans hself) (hpinNodes.trans hsignals.symm), ?_⟩
  rw [nodup_append, nodup_signals_iff hnd]
  simp only [hports, true_and]
  rw [and_comm]
  refine and_congr_left fun _ => ?_
  constructor
  · exact fun hne a ha hmem => hne _ hmem _ (mem_map_of_mem ha) rfl
  · intro hnot s hs b hb heq
    obtain ⟨a, ha, rfl⟩ := mem_map.mp hb
    exact hnot a ha (heq ▸ hs)

/-- A chain of two registers whose outputs are the bits of the port `q`. The registers are named after a
net, and the second one comes first in the order of the cells. -/
def Design.shiftRegister (net : String) : Design where
  ports := .ofList [("clk", ⟨"input", [.wire 2]⟩), ("d", ⟨"input", [.wire 3]⟩),
    ("q", ⟨"output", [.wire 5, .wire 6]⟩)]
  cells := .ofList [("a", .ofRegister "FDCP" [("CK", .wire 2), ("D", .wire 5), ("Q", .wire 6)]),
    ("b", .ofRegister "FDCP" [("CK", .wire 2), ("D", .wire 3), ("Q", .wire 5)])]
  nets := .ofList [(net, ⟨0, [.wire 5, .wire 6]⟩)]

/-- The shift register with a net that is not named like the port: all declared names differ. -/
theorem Design.nodup_declared_iff_shiftRegister :
    ∃ g out names, (shiftRegister "s").toNetwork "m" = .ok g ∧ g.compile {} = .ok out ∧
    Listing.Declares {} out ["clk", "d", "q0", "q1"] names ∧
    (["clk", "d", "q0", "q1"] ++ names).Nodup := by
  have hports : (shiftRegister "s").portNames = ["clk", "d", "q0", "q1"] := by decide +kernel
  have hclean : (shiftRegister "s").hasCleanPorts = true := by decide +kernel
  have h : (shiftRegister "s").run? "m" (fun g =>
      g.compile {} >>= fun _ => pure (g.cells.map fun r =>
        (r, NameSource.signal g (.register r)))) = some [(⟨1⟩, "s1"), (⟨2⟩, "s0")] := by
    decide +kernel
  simp only [run?_eq_some, bind_eq_ok, pure_eq_ok] at h
  obtain ⟨g, hg, out, hout, hcells⟩ := h
  have hsignal : ∀ r ∈ g.cells, r = ⟨1⟩ ∧ NameSource.signal g (.register r) = "s1" ∨
      r = ⟨2⟩ ∧ NameSource.signal g (.register r) = "s0" := by
    intro r hr
    have hmem := mem_map_of_mem (f := fun r => (r, NameSource.signal g (.register r))) hr
    simpa [hcells] using hmem
  have hmade : ∀ k, (madeUpName k).toList = 'P' :: 'N' :: Nat.toDigits 10 k := by simp [madeUpName]
  obtain ⟨sources, -, hof, hdecl, hiff⟩ := nodup_declared_iff (hports ▸ by decide) hclean hg hout
  rw [hports] at hdecl hiff
  refine ⟨g, out, _, hg, hout, hdecl, hiff.mpr ⟨fun a ha hmem => ?_, fun r hr a ha heq => ?_⟩⟩
  · cases a with
    | register r => rcases hsignal r (hof _ ha).1 with ⟨-, hs⟩ | ⟨-, hs⟩ <;> simp [hs] at hmem
    | number k => simp [NameSource.signal, String.ext_iff, hmade] at hmem
  · have hr := hsignal r (hof _ hr).1
    cases a with
    | register r' =>
      have hr' := hsignal r' (hof _ ha).1
      rcases hr with ⟨rfl, hs⟩ | ⟨rfl, hs⟩ <;> rcases hr' with ⟨rfl, hs'⟩ | ⟨rfl, hs'⟩ <;> simp_all
    | number k =>
      rcases hr with ⟨-, hs⟩ | ⟨-, hs⟩ <;> rw [hs] at heq <;>
        simp [NameSource.signal, String.ext_iff, hmade] at heq

/-- If the net is named like the port, then the name `q0` is declared twice: for the first bit of the
port, and for the pin node between the first register and the two pins that read it. -/
theorem Design.not_nodup_declared_shiftRegister :
    (shiftRegister "q").portNames.Nodup ∧ (shiftRegister "q").hasCleanPorts = true ∧
    ∃ g out, (shiftRegister "q").toNetwork "m" = .ok g ∧ g.compile {} = .ok out ∧
      Listing.Declares {} out ["clk", "d", "q0", "q1"] ["q0"] ∧
      ¬ (["clk", "d", "q0", "q1"] ++ ["q0"]).Nodup := by
  refine ⟨by decide +kernel, by decide +kernel, ?_⟩
  have h : (shiftRegister "q").run? "m" (fun g =>
      g.branched >>= fun g1 => g1.simplified >>= fun g2 => g2.reduced none >>= fun g3 =>
        g3.listing {} >>= fun _ =>
          pure (g3.pins.map g3.nodeNameOf?, g3.pinNodes.map g3.nodeNameOf?)) =
      some (["clk", "d", "q0", "q1"].map some, ["q0"].map some) := by
    decide +kernel
  simp only [run?_eq_some, bind_eq_ok, pure_eq_ok, Prod.mk.injEq] at h
  obtain ⟨g, hg, g1, h1, g2, h2, g3, h3, out, hlist, hpins, hpinNodes⟩ := h
  refine ⟨g, out, hg, ?_, declares_listing hlist hpins hpinNodes, by decide⟩
  simp only [Network.compile, bind_eq_ok]
  exact ⟨g1, h1, g2, h2, g3, h3, hlist⟩

end PldSynth
