import PldSynth.CommandLine.Run

/-!
# What is shown to the user

The help page, and the lines with which the program ends.
-/

namespace PldSynth.CommandLine

/-- The help page. -/
def helpPage : List String :=
  ["Compiles Yosys JSON netlists to WinCUPL source.",
    "",
    "Usage: netcupl [-q] [-v] [--config FILE] COMMAND",
    "",
    "Commands:",
    "  cupl INPUT          Compile a netlist to a CUPL file",
    "    -o, --output FILE         Output file (default: MODULE.pld)",
    "    -d, --device NAME         Target device",
    "    -p, --pin-file FILE       Pin file with pin numbers",
    "    -m, --module NAME         Module to compile",
    "        --pinnode-limit N     Maximum number of buried pin nodes",
    "    -i, --intermediate        Also write .it1 and .it2 files",
    "  yosys SOURCE...     Write a script that makes a netlist",
    "    -o, --output FILE         Script to write",
    "        --json FILE           Netlist that the script writes",
    "        --lib-dir DIR         Directory of the cell library (default: yosys)",
    "  help                Show this page",
    "",
    "Options:",
    "  -q, --quiet         Show errors only",
    "  -v, --verbose       Show more",
    "      --config FILE   Configuration file",
    "  -h, --help          Show this page",
    "  -V, --version       Show the version"]

/-- What an ending shows on standard output. -/
def Ending.outputLines : Ending → List String
  | .stopped .help => helpPage
  | .stopped .version => [versionLine]
  | _ => []

/-- What an ending shows on standard error. -/
def Ending.errorLines : Ending → List String
  | .stopped .missing => helpPage
  | .stopped .invalid => ["error: invalid arguments", "", "For more information, try '--help'."]
  | .failed why => ["error: " ++ why.message]
  | _ => []

end PldSynth.CommandLine
