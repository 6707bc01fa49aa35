import BindingPower.Main
import BindingPower.Table
import BindingPower.Tree
import BindingPower.Proofs.Following
import BindingPower.Proofs.Agreement
import BindingPower.Proofs.Steps
import BindingPower.Proofs.TreeReading
import BindingPower.Proofs.Yield
import BindingPower.Proofs.Completeness
import BindingPower.Proofs.Nesting
import BindingPower.Proofs.Containment
import BindingPower.Proofs.Soundness
import BindingPower.Proofs.Calc.CalcReading
import BindingPower.Proofs.Calc.Lexing
import BindingPower.Proofs.Calc.RoundTrip
import BindingPower.Proofs.Lockstep
import BindingPower.Proofs.Strictness
import BindingPower.Proofs.Detachment
import BindingPower.Proofs.Cutting
import BindingPower.Proofs.Guarding
import BindingPower.Proofs.Calc.Chaining
import BindingPower.Proofs.Contract
import BindingPower.Proofs.Calc.Forms
import BindingPower.Proofs.Calc.Surface
import BindingPower.Proofs.Advancing
import BindingPower.Proofs.Rendering
import BindingPower.Proofs.Folding
import BindingPower.Proofs.Lookahead
import BindingPower.Proofs.Spending
import BindingPower.Proofs.Calc.Counting
import BindingPower.Proofs.Calc.Munching
import BindingPower.Proofs.Calc.Scanning
import BindingPower.Proofs.Calc.Pairing
import BindingPower.Proofs.Calc.Respelling
import BindingPower.Proofs.Carrying
import BindingPower.Proofs.Calc.Placing
import BindingPower.Proofs.Calc.Lines
import BindingPower.Proofs.Relimiting
import BindingPower.Proofs.Floors
import BindingPower.Proofs.Building
import BindingPower.Proofs.Leniency
import BindingPower.Proofs.Calc.Grouping
import BindingPower.Proofs.Calc.Dumping
import BindingPower.Proofs.Streaming
import BindingPower.Proofs.Refusals
import BindingPower.Proofs.Locating
import BindingPower.Proofs.Pervading
import BindingPower.Proofs.Levels
import BindingPower.Proofs.Missing
