import DerivedTables.Json.Reader
import DerivedTables.Json.Writer
import DerivedTables.Proofs.Compilation.Callable
import DerivedTables.Proofs.Compilation.HiddenTables
import DerivedTables.Proofs.Compilation.Inlining
import DerivedTables.Proofs.Compilation.Repeated
import DerivedTables.Proofs.Compilation.WriteNames
import DerivedTables.Proofs.Eval.Callees
import DerivedTables.Proofs.Lowering.FallThrough
import DerivedTables.Proofs.Rows.Chains
import DerivedTables.Proofs.Rows.CountedView
import DerivedTables.Proofs.Rows.Forward
import DerivedTables.Proofs.Rows.Recomputed
import DerivedTables.Proofs.Scope.SameValues
import DerivedTables.Proofs.Source.Positions
import DerivedTables.Proofs.Surface.JsonForm
import DerivedTables.Proofs.Tree.Legible
import DerivedTables.Proofs.Tree.Watched
import DerivedTables.Proofs.Typing.Decided
import DerivedTables.Proofs.Typing.Limits
import DerivedTables.Proofs.Typing.Ranked
import DerivedTables.Surface.Shorthand
import DerivedTables.Tree.Shape
