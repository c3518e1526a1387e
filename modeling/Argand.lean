import Argand.Calc.Trace
import Argand.CommandLine
import Argand.Gallery.Drill
import Argand.Gallery.Lexers
import Argand.Grammar.Report
import Argand.Main
import Argand.Proofs.Ambiguity
import Argand.Proofs.Calc.Agreement
import Argand.Proofs.Calc.Backoff
import Argand.Proofs.Calc.BranchCut
import Argand.Proofs.Calc.Effort
import Argand.Proofs.Calc.Payload
import Argand.Proofs.Calc.Recovery
import Argand.Proofs.Calc.Resuming
import Argand.Proofs.Calc.RoundTrip
import Argand.Proofs.Calc.Session
import Argand.Proofs.Calc.Spacing
import Argand.Proofs.Closure
import Argand.Proofs.CommandLine
import Argand.Proofs.Deliveries
import Argand.Proofs.Discovery
import Argand.Proofs.Endings
import Argand.Proofs.FollowLoop
import Argand.Proofs.Slr
import Argand.Proofs.Stacks
import Argand.Proofs.Termination
import Argand.Proofs.TreeParser
