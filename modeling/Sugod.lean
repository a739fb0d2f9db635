import Sugod.Env.Lemmas
import Sugod.Eval.Steps
import Sugod.Grammar.Steps
import Sugod.Main
import Sugod.Proofs.Change
import Sugod.Proofs.Compositional
import Sugod.Proofs.Effect
import Sugod.Proofs.History
import Sugod.Proofs.Scopes
import Sugod.Proofs.Isolation
import Sugod.Proofs.Points
import Sugod.Proofs.StoreTyping
import Sugod.Proofs.Permanence
import Sugod.Proofs.Ending
import Sugod.Proofs.Derivation
import Sugod.Proofs.Follow
import Sugod.Proofs.Frame
import Sugod.Proofs.AcceptedExpr
import Sugod.Proofs.EndOfInput
import Sugod.Proofs.Accepted
import Sugod.Proofs.WrittenExpr
import Sugod.Proofs.Written
import Sugod.Proofs.CountingLoop
import Sugod.Proofs.LoopFree
import Sugod.Proofs.Rows
import Sugod.Proofs.PipedInput
import Sugod.Proofs.Regular
import Sugod.Proofs.Returns
import Sugod.Proofs.Renumber
import Sugod.Proofs.ParseLines
import Sugod.Proofs.EvalLines
import Sugod.Proofs.Layout
import Sugod.Proofs.Tiling
import Sugod.Proofs.Spelling
import Sugod.Proofs.FailingWrites
import Sugod.Proofs.ReportedLines
import Sugod.Proofs.Concatenation
import Sugod.Proofs.Rescanning
import Sugod.Proofs.CountedRounds
import Sugod.Proofs.InputLine
import Sugod.Proofs.Reentry
import Sugod.Proofs.ReadBack
import Sugod.Proofs.FractionText
import Sugod.Proofs.WholeNumbers
import Sugod.Proofs.InputModes
import Sugod.Proofs.NestedChoice
import Sugod.Proofs.Displaying
import Sugod.Proofs.Pieces
import Sugod.Proofs.BalancedScopes
import Sugod.Proofs.AssignedSlot
import Sugod.Proofs.WrappingArithmetic
