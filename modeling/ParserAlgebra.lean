import ParserAlgebra.CommandLine.Run
import ParserAlgebra.Evaluation.Bound
import ParserAlgebra.Main
import ParserAlgebra.Parser.Display
import ParserAlgebra.Parser.Outline
import ParserAlgebra.Parser.Path
import ParserAlgebra.Proofs.Choice
import ParserAlgebra.Proofs.CommandLine.Paths
import ParserAlgebra.Proofs.CommandLine.Printed
import ParserAlgebra.Proofs.Consumed
import ParserAlgebra.Proofs.Expr.Arithmetic
import ParserAlgebra.Proofs.Expr.RoundTrip
import ParserAlgebra.Proofs.Expr.Stacks
import ParserAlgebra.Proofs.Memoized.Session
import ParserAlgebra.Proofs.Offset
import ParserAlgebra.Proofs.Optimizer.Collecting
import ParserAlgebra.Proofs.Optimizer.Late
import ParserAlgebra.Proofs.Optimizer.RightSides
import ParserAlgebra.Proofs.Outline
import ParserAlgebra.Proofs.Recursion
import ParserAlgebra.Proofs.Repetition
import ParserAlgebra.Proofs.Repetition.AtLeast
import ParserAlgebra.Proofs.Repetition.Bounded
import ParserAlgebra.Proofs.Report
import ParserAlgebra.Proofs.Script.Log
import ParserAlgebra.Proofs.Sequence
import ParserAlgebra.Proofs.Spelled
import ParserAlgebra.Proofs.Termination
import ParserAlgebra.Proofs.Translation
import ParserAlgebra.Vocabulary.Binder
import ParserAlgebra.Proofs.Optimizer.OwnCalls
