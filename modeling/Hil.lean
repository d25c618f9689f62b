import Hil.Expr.Text
import Hil.Pass.Scripted
import Hil.Session
import Hil.Proofs.Folding.Meaning
import Hil.Proofs.Reference.Language
import Hil.Proofs.Reference.Column
import Hil.Proofs.Reference.Grammar
import Hil.Proofs.Binding.Typing
import Hil.Proofs.Compile.Defaults
import Hil.Proofs.Compile.History
import Hil.Proofs.Binding.Evaluation
import Hil.Proofs.Binding.CountScope
import Hil.Proofs.Binding.Effects
import Hil.Proofs.Walk.WellFormed
import Hil.Proofs.Walk.Deleting
import Hil.Proofs.Schedule.Order
import Hil.Proofs.Pass.Running
import Hil.Proofs.Compile.Escaping
import Hil.Proofs.Compile.Dependencies
import Hil.Proofs.Dependencies.Source
import Hil.Proofs.Walk.Answers
import Hil.Proofs.Graph.Adding
import Hil.Proofs.Binding.Splat
import Hil.Proofs.Binding.Mirror
import Hil.Proofs.Tree.Unambiguous
import Hil.Proofs.Schema.Loading
import Hil.Proofs.Folding.FixedPoint
import Hil.Proofs.Folding.Types
import Hil.Proofs.Walk.Interruption
import Hil.Proofs.Walk.Once
import Hil.Proofs.Pass.Queue
import Hil.Proofs.Pass.Validating
import Hil.Proofs.Pass.Looking
import Hil.Proofs.Binding.Extending
import Hil.Proofs.Binding.Blocks
import Hil.Proofs.Diagnostic.Color
import Hil.Proofs.Diagnostic.Carets
