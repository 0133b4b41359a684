import PldSynth.Listing
import PldSynth.Netlist.Draft

/-!
# From a netlist to a listing

The whole way: the text of a netlist becomes the network of a design, and that becomes a listing.
-/

namespace PldSynth

/-- Why there is no listing. -/
inductive CompileError
  | netlist (e : NetlistError)
  | network (e : NetworkError)
  deriving DecidableEq, Repr

/-- The text of a failure. -/
def CompileError.message : CompileError → String
  | .netlist e => e.message
  | .network e => e.message

/-- The listing of a design in the text of a netlist. -/
def compile (text : String) (name : Option String) (options : Options) :
    Except CompileError String := do
  let net ← (Netlist.network text name).mapError .netlist
  (net.compile options).mapError .network

end PldSynth
