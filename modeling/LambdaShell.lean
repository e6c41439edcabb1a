import LambdaShell.Main
import LambdaShell.Proofs.Concrete.Diagnosis
import LambdaShell.Proofs.Concrete.RoundTrip
import LambdaShell.Proofs.Evaluation.Agreement
import LambdaShell.Proofs.Evaluation.BigStep
import LambdaShell.Proofs.Evaluation.Divergence
import LambdaShell.Proofs.Evaluation.HeadFirst
import LambdaShell.Proofs.Typing.Normalization
import LambdaShell.Proofs.Typing.Preservation
import LambdaShell.Proofs.Session.Notice
import LambdaShell.Proofs.Session.Saving
import LambdaShell.Proofs.Nameless.FreeNames
import LambdaShell.Proofs.Environment.Unfolding
import LambdaShell.Proofs.Concrete.Folding
import LambdaShell.Proofs.Environment.Refinement
import LambdaShell.Proofs.Session.Frame
import LambdaShell.Proofs.Text.Trimming
import LambdaShell.Proofs.Session.SaveAndLoad
import LambdaShell.Proofs.Reduction.Leftmost
import LambdaShell.Proofs.Nameless.OneIndex
import LambdaShell.Proofs.Evaluation.TypedBack
import LambdaShell.Proofs.Session.Faults
import LambdaShell.Proofs.Environment.Names
import LambdaShell.Proofs.Environment.Cycles
import LambdaShell.Proofs.Term.BoundNames
import LambdaShell.Proofs.Term.Numbering
import LambdaShell.Proofs.Typing.Judgements
import LambdaShell.Proofs.Typing.ProofTrees
import LambdaShell.Proofs.Typing.Transparency
import LambdaShell.Proofs.Evaluation.Truncation
import LambdaShell.Proofs.Evaluation.InitialSegment
import LambdaShell.Proofs.Concrete.NamelessText
import LambdaShell.Proofs.Environment.CutShort
import LambdaShell.Proofs.Reduction.ValueRedexes
import LambdaShell.Proofs.Session.Values
import LambdaShell.Proofs.Concrete.Layout
import LambdaShell.Proofs.Latex.Faithfulness
