import SmallLisp.Token.Inspect
import SmallLisp.Main
import SmallLisp.Proofs.Lexing
import SmallLisp.Proofs.Reading
import SmallLisp.Proofs.Yield
import SmallLisp.Proofs.Nesting
import SmallLisp.Proofs.Continuation
import SmallLisp.Proofs.Grammar
import SmallLisp.Proofs.Acceptance
import SmallLisp.Proofs.Relocation
import SmallLisp.Proofs.Composition
import SmallLisp.Proofs.Evaluation
import SmallLisp.Proofs.Interactive
import SmallLisp.Proofs.Munch
import SmallLisp.Proofs.Source
import SmallLisp.Proofs.Scopes
import SmallLisp.Proofs.Postorder
import SmallLisp.Proofs.Sequence
import SmallLisp.Proofs.WriteOnce
import SmallLisp.Proofs.Failures
import SmallLisp.Proofs.Blame
import SmallLisp.Proofs.TypedLines
import SmallLisp.Proofs.Commands
import SmallLisp.Proofs.Registration
import SmallLisp.Proofs.Gaps
import SmallLisp.Proofs.Layout
import SmallLisp.Proofs.Legible
import SmallLisp.Proofs.Positions
import SmallLisp.Proofs.Outline
import SmallLisp.Proofs.Reports
import SmallLisp.Proofs.Sessions
import SmallLisp.Proofs.FileRuns
import SmallLisp.Proofs.Quoting
import SmallLisp.Proofs.Shadowing
import SmallLisp.Proofs.Anchors
import SmallLisp.Proofs.Numerals
import SmallLisp.Proofs.Standstill
import SmallLisp.Proofs.Descent
import SmallLisp.Proofs.Requests
import SmallLisp.Proofs.Loading
