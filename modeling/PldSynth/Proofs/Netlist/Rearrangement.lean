import PldSynth.Netlist.Draft
import PldSynth.Proofs.Json.Rearrangement

/-!
# Rearranged netlists

What a netlist says depends neither on the order of the members in its text nor on members that no part of
a netlist knows. The designs, ports, cells and nets stand in the order of their names anyway, so the
network of a design comes out the same down to the numbers of its handles.
-/

namespace PldSynth

open Json List

/-! ## Shapes -/

def Port.shape : Shape :=
  .record [("direction", .plain), ("bits", .plain)]

def Cell.shape : Shape :=
  .record [("type", .plain), ("port_directions", .plain), ("connections", .plain)]

def Net.shape : Shape :=
  .record [("hide_name", .plain), ("bits", .plain)]

def Design.shape : Shape :=
  .record [("ports", .dict Port.shape), ("cells", .dict Cell.shape), ("netnames", .dict Net.shape)]

/-- Of all that a netlist consists of, the designs, ports, cells and nets and the netlist itself are
records. -/
def Netlist.shape : Shape :=
  .record [("modules", .dict Design.shape)]

/-! ## Reading -/

theorem respects_bits : Respects .plain bitsOfJson? :=
  respects_list fun _ => .of_scalar (fun _ => rfl) fun _ => rfl

theorem respects_plain_dict {α : Type} {read : Json → Option α} (h : Respects .plain read) :
    Respects .plain (dict? read) :=
  respects_dict (fun _ => nofun) fun _ => h

theorem respects_dict_of {α : Type} {shape : Shape} {read : Json → Option α} (h : Respects shape read) :
    Respects (.dict shape) (dict? read) :=
  respects_dict (fun _ => nofun) fun _ => h

/-- A port is read alike after a change of no concern. -/
theorem respects_port : Respects Port.shape Port.ofJson? := by
  refine respects_record (by decide) fun _ hall => ?_
  obtain _ | @⟨_, ⟨direction, _⟩, _, _, hdirection, _ | @⟨_, ⟨bits, _⟩, _, _, hbits, _ | _⟩⟩ := hall
  dsimp only at hdirection hbits
  -- both fields are required, so nothing is read if one of them is missing
  obtain rfl | ⟨_, _, rfl, rfl, hdirection⟩ := hdirection <;>
    obtain rfl | ⟨_, _, rfl, rfl, hbits⟩ := hbits
  · rfl
  · cases direction with
    | none => rfl
    | some => simp only [map_cons, map_nil, respects_bits hbits]
  · cases bits with
    | none => rfl
    | some => simp only [map_cons, map_nil, respects_text hdirection]
  · simp only [map_cons, map_nil, respects_text hdirection, respects_bits hbits]

theorem respects_cell : Respects Cell.shape Cell.ofJson? := by
  refine respects_record (by decide) fun _ hall => ?_
  obtain _ | @⟨_, ⟨type, _⟩, _, _, htype, _ | ⟨hdirections, _ | ⟨hconnections, _ | _⟩⟩⟩ := hall
  have hdirections := hdirections.orElse_eq (respects_plain_dict respects_text) Dict.empty
  have hconnections := hconnections.orElse_eq (respects_plain_dict respects_bits) Dict.empty
  dsimp only at htype
  obtain rfl | ⟨_, _, rfl, rfl, htype⟩ := htype
  · cases type with
    | none => rfl
    | some => simp only [map_cons, map_nil, hdirections, hconnections]
  · simp only [map_cons, map_nil, respects_text htype, hdirections, hconnections]

theorem respects_net : Respects Net.shape Net.ofJson? := by
  refine respects_record (by decide) fun _ hall => ?_
  obtain _ | ⟨hhide, _ | ⟨hbits, _ | _⟩⟩ := hall
  simp only [map_cons, map_nil, hhide.orElse_eq (respects_integerIn 0 256),
    hbits.orElse_eq respects_bits]

theorem respects_design : Respects Design.shape Design.ofJson? := by
  refine respects_record (by decide) fun _ hall => ?_
  obtain _ | ⟨hports, _ | ⟨hcells, _ | ⟨hnets, _ | _⟩⟩⟩ := hall
  simp only [map_cons, map_nil, hports.orElse_eq (respects_dict_of respects_port),
    hcells.orElse_eq (respects_dict_of respects_cell), hnets.orElse_eq (respects_dict_of respects_net)]

theorem respects_netlist : Respects Netlist.shape Netlist.ofJson? := by
  refine respects_record (by decide) fun _ hall => ?_
  obtain _ | ⟨hdesigns, _ | _⟩ := hall
  simp only [map_cons, map_nil, hdesigns.orElse_eq (respects_dict_of respects_design)]

/-- Rearranged texts are the same netlist or are refused alike, and every design in them has the same
network or is refused for the same reason. -/
theorem Netlist.parse_rearranged {j j' : Json} {text text' : String} (hr : Rearranged shape j j')
    (h : Json.parse? text = some j) (h' : Json.parse? text' = some j') :
    parse text = parse text' ∧ ∀ name, network text name = network text' name := by
  have hparse : parse text = parse text' := by
    rw [parse, parse, h, h', Option.bind_some, Option.bind_some, respects_netlist.rearranged hr]
  refine ⟨hparse, fun name => ?_⟩
  rw [network, network, hparse]

theorem Json.parse?_ofList (cs : List Char) :
    Json.parse? (.ofList cs) = (Reading.run .blank [] cs).bind ofTokens? := by
  rw [parse?, tokens?, String.toList_ofList]
  rfl

/-- The text of a netlist whose only design has nothing but ports. -/
def Netlist.portsText (head ports : String) : String :=
  .ofList (List.flatMap String.toList
    ["\x7b", head, "\"modules\":\x7b\"top\":\x7b\"ports\":\x7b", ports, "\x7d\x7d\x7d\x7d"])

/-- What the text says. -/
def Netlist.portsValue (head ports : List (Option String × Json)) : Json :=
  .object (head ++ [(some "modules", .object [(some "top", .object [(some "ports", .object ports)])])])

/-- A port at wire 2, with more members. -/
def Port.value (direction : String) (extra : List (Option String × Json)) : Json :=
  .object ((some "direction", .string (some direction)) :: extra ++ [(some "bits", .array [.integer 2])])

/-- The ports come in another order, `Y` gets a member, and the netlist loses one. -/
theorem Netlist.parse_rearranged_ports :
    let text := portsText "\"creator\":null," ("\"A\":\x7b\"direction\":\"input\",\"bits\":[2]\x7d," ++
      "\"Y\":\x7b\"direction\":\"output\",\"bits\":[2]\x7d")
    let text' := portsText "" ("\"Y\":\x7b\"direction\":\"output\",\"upto\":1,\"bits\":[2]\x7d," ++
      "\"A\":\x7b\"direction\":\"input\",\"bits\":[2]\x7d")
    ((Json.parse? text).bind ofJson?).isSome ∧ parse text = parse text' ∧
      ∀ name, network text name = network text' name := by
  intro text text'
  have h : Json.parse? text = some (portsValue [(some "creator", .null)]
      [(some "A", Port.value "input" []), (some "Y", Port.value "output" [])]) :=
    (parse?_ofList _).trans rfl
  have h' : Json.parse? text' = some (portsValue []
      [(some "Y", Port.value "output" [(some "upto", .integer 1)]), (some "A", Port.value "input" [])]) :=
    (parse?_ofList _).trans rfl
  refine ⟨by rw [h]; decide, parse_rearranged ?_ h h'⟩
  exact .head (.delete (l := []) (by decide)) (.head (.member (l := []) (.member (l := [])
    (.member (l := []) (.permute (by decide) (.swap _ _ _)))))
    (.single (.member (l := []) (.member (l := []) (.member (l := []) (.member (l := [])
      (.insert (l := [_]) (by decide))))))))

end PldSynth
