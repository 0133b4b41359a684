import PldSynth.Header
import PldSynth.Project.Error
import PldSynth.Project.PinFile
import PldSynth.Text.Blank
import PldSynth.Text.Decimal
import PldSynth.Toml.Document
import PldSynth.Toml.Record

/-!
# The configuration of a project

The settings that a project keeps in a file: the device, the fields of the header, what to compile,
and pin numbers. Every setting may be left out. Values that would break the listing are refused.
-/

namespace PldSynth

/-- The settings of a project. -/
structure Config where
  device : String := "virtual"
  header : Header := {}
  /-- The module to compile. -/
  module : Option String := none
  /-- How many pin nodes may stay. -/
  pinNodeLimit : Option Nat := none
  /-- A pin file, as seen from the configuration. -/
  pinFile : Option String := none
  pins : PinTable := Dict.empty
  deriving Repr, Inhabited

namespace Config

/-- The name of the file that holds the settings. -/
def fileName : String := "netcupl.toml"

/-! ## Reading -/

/-- The name of the device. A device that is given must have one. -/
def device? (v : Toml) : Option String := do
  match ← v.record? ["name"] with
  | [some name] => name.text?
  | _ => none

/-- The fields of the header. -/
def header? (v : Toml) : Option Header := do
  let text := Toml.orElse Toml.text?
  let d : Header := {}
  match ← v.record? ["name", "partno", "date", "revision", "designer", "company", "assembly",
      "location"] with
  | [name, partno, date, revision, designer, company, assembly, location] =>
    return {
      name := ← text d.name name
      partno := ← text d.partno partno
      date := ← text d.date date
      revision := ← text d.revision revision
      designer := ← text d.designer designer
      company := ← text d.company company
      assembly := ← text d.assembly assembly
      location := ← text d.location location }
  | _ => none

/-- Adds the settings for compiling. -/
def withCompile? (c : Config) (v : Toml) : Option Config := do
  match ← v.record? ["module", "pinnode_limit", "pin_file"] with
  | [module, limit, pinFile] =>
    return { c with
      module := ← Toml.optional? Toml.text? module
      pinNodeLimit := ← Toml.optional? (Toml.natBelow? Text.bound64) limit
      pinFile := ← Toml.optional? Toml.text? pinFile }
  | _ => none

/-- The settings in a table. -/
def ofEntries? (entries : List (String × Toml)) : Option Config := do
  match ← Toml.fieldsOf? ["device", "header", "compile", "pins"] entries with
  | [device, header, compile, pins] =>
    let c : Config := {}
    let c := { c with
      device := ← Toml.orElse device? c.device device
      header := ← Toml.orElse header? c.header header
      pins := ← Toml.orElse (Toml.dict? (Toml.natBelow? Text.bound32)) c.pins pins }
    Toml.orElse c.withCompile? c compile
  | _ => none

/-! ## Checking -/

/-- A character that would end the line or the statement of a header field. -/
def endsField (c : Char) : Bool :=
  c = ';' || c = '\r' || c = '\n'

/-- What stands against the use of these settings; the first of several faults. -/
def fault? (c : Config) : Option ProjectError :=
  if (Text.trim c.device).isEmpty then some (.missing "device.name")
  else if c.device.toList.any Text.isBlank then some (.misfit (.blankInDevice c.device))
  else
    match c.header.fields.find? fun f => f.2.toList.any endsField with
    | some f => some (.misfit (.headerField f.1))
    | none => if c.module = some "" then some (.misfit .emptyModule) else none

/-- The settings that a text gives. -/
def parse (text : String) : Except ProjectError Config :=
  match (Toml.parse? text).bind ofEntries? with
  | none => .error .unreadable
  | some c =>
    match c.fault? with
    | some e => .error e
    | none => .ok c

end Config

end PldSynth
