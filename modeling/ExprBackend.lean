import ExprBackend.BitSet.Command
import ExprBackend.Cli.Perform
import ExprBackend.Expr.Temporary
import ExprBackend.Interference.Command
import ExprBackend.Main
import ExprBackend.Proofs.Aliasing
import ExprBackend.Proofs.AssemblyText
import ExprBackend.Proofs.Binding
import ExprBackend.Proofs.DeadBinding
import ExprBackend.Proofs.FiniteSets
import ExprBackend.Proofs.Forward
import ExprBackend.Proofs.GraphRuns
import ExprBackend.Proofs.Hoisting
import ExprBackend.Proofs.Interning
import ExprBackend.Proofs.Legality
import ExprBackend.Proofs.Liveness
import ExprBackend.Proofs.PoolIndependence
import ExprBackend.Proofs.PreciseTraps
import ExprBackend.Proofs.ProgramText
import ExprBackend.Proofs.Programs
import ExprBackend.Proofs.Renaming
import ExprBackend.Proofs.Resolution
import ExprBackend.Proofs.SafeMove
import ExprBackend.Proofs.SpillQueue
import ExprBackend.Proofs.Storage
import ExprBackend.Proofs.StraightLine
