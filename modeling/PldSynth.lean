import PldSynth.Main
import PldSynth.Names
import PldSynth.Proofs.Equation.Printing
import PldSynth.Proofs.Compile.Registers
import PldSynth.Proofs.Compile.Takeovers
import PldSynth.Proofs.Compile.PinNumbers
import PldSynth.Proofs.Compile.Signals
import PldSynth.Proofs.Compile.CellNames
import PldSynth.Proofs.CommandLine.Leftovers
import PldSynth.Proofs.Text.Wrapping
import PldSynth.Proofs.Project.PinFile
import PldSynth.Proofs.Compile.PinNodeBudget
import PldSynth.Proofs.Netlist.Rearrangement
import PldSynth.Proofs.Network.Splicing
import PldSynth.Proofs.Network.Candidates
