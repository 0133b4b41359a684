import PldSynth.Files.PathName

/-!
# Synthesis scripts

A script for Yosys that reduces Verilog sources to the cells that a netlist may hold, and writes the
netlist.
-/

namespace PldSynth

/-- What a script is about. -/
structure Script where
  /-- The sources, in the order in which they are read. -/
  sources : List String
  /-- The directory of the cell library. -/
  library : String
  /-- The netlist that is written. -/
  netlist : String
  deriving DecidableEq, Repr

namespace Script

/-- The netlist that a script writes if no other is asked for: it bears the name of the script. -/
def defaultNetlist (path : String) : String :=
  (PathName.stem? path).getD "netlist" ++ ".json"

/-- The path of a file in the cell library. -/
def libraryFile (s : Script) (name : String) : String :=
  String.ofList (s.library.toList.reverse.dropWhile (· = '/')).reverse ++ "/" ++ name

/-- The commands of a script. -/
def commands (s : Script) : List String :=
  let registers := s.libraryFile "cupl_dff.lib"
  s.sources.map ("read_verilog " ++ ·) ++
    ["hierarchy", "proc", "flatten", "tribuf -logic", "opt",
      "techmap -map +/techmap.v -map " ++ s.libraryFile "cupl_cells_latch.v", "opt",
      "dfflibmap -prepare -liberty " ++ registers, "abc -g AND,XOR", "clean",
      "dfflibmap -liberty " ++ registers, "opt", "write_json " ++ s.netlist]

/-- The text of a script, one command a line. -/
def text (s : Script) : String :=
  String.join (s.commands.map (· ++ "\n"))

end Script

end PldSynth
