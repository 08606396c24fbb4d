import SizedTypes.Constructor
import SizedTypes.Core.Term
import SizedTypes.Core.Visit
import SizedTypes.Diagnostic
import SizedTypes.Goal
import SizedTypes.Graph
import SizedTypes.Infer.Bindings
import SizedTypes.Infer.Calls
import SizedTypes.Infer.Defaulting
import SizedTypes.Infer.Expect
import SizedTypes.Infer.Expr
import SizedTypes.Infer.Generalize
import SizedTypes.Infer.Goals
import SizedTypes.Infer.Kinding
import SizedTypes.Infer.Literals
import SizedTypes.Infer.Monad
import SizedTypes.Infer.Patterns
import SizedTypes.Infer.Resolve
import SizedTypes.Infer.Selectors
import SizedTypes.Infer.TypeDecls
import SizedTypes.Kind
import SizedTypes.Name
import SizedTypes.Options
import SizedTypes.Options.Text
import SizedTypes.Prelude
import SizedTypes.Proofs.Core.Awaited
import SizedTypes.Proofs.Core.Mentions
import SizedTypes.Proofs.Core.Types
import SizedTypes.Proofs.Core.Typing
import SizedTypes.Proofs.Graph.Components
import SizedTypes.Proofs.Graph.Reach
import SizedTypes.Proofs.Graph.Search
import SizedTypes.Proofs.Infer.Asking
import SizedTypes.Proofs.Infer.Calls
import SizedTypes.Proofs.Infer.ClosedTypes
import SizedTypes.Proofs.Infer.Completion
import SizedTypes.Proofs.Infer.Completion.Types
import SizedTypes.Proofs.Infer.Constraints
import SizedTypes.Proofs.Infer.Defaulting
import SizedTypes.Proofs.Infer.Environment
import SizedTypes.Proofs.Infer.Expect
import SizedTypes.Proofs.Infer.Expr
import SizedTypes.Proofs.Infer.Frame
import SizedTypes.Proofs.Infer.Frame.Recursion
import SizedTypes.Proofs.Infer.Frame.Scoped
import SizedTypes.Proofs.Infer.Functions
import SizedTypes.Proofs.Infer.Generalize
import SizedTypes.Proofs.Infer.Generalize.Minimal
import SizedTypes.Proofs.Infer.Goals
import SizedTypes.Proofs.Infer.Goals.Agreement
import SizedTypes.Proofs.Infer.Goals.Rounds
import SizedTypes.Proofs.Infer.Goals.Settled
import SizedTypes.Proofs.Infer.Heads
import SizedTypes.Proofs.Infer.Ignores
import SizedTypes.Proofs.Infer.InForce
import SizedTypes.Proofs.Infer.InForce.Recursion
import SizedTypes.Proofs.Infer.Kinding
import SizedTypes.Proofs.Infer.Kinding.Definedness
import SizedTypes.Proofs.Infer.Kinding.Demands
import SizedTypes.Proofs.Infer.Kinding.Saturation
import SizedTypes.Proofs.Infer.Kinding.Sizes
import SizedTypes.Proofs.Infer.Ledger
import SizedTypes.Proofs.Infer.Ledger.Checks
import SizedTypes.Proofs.Infer.Ledger.Groups
import SizedTypes.Proofs.Infer.Ledger.Recursion
import SizedTypes.Proofs.Infer.Mirror
import SizedTypes.Proofs.Infer.Mirror.Live
import SizedTypes.Proofs.Infer.Mirror.Recursion
import SizedTypes.Proofs.Infer.Monad
import SizedTypes.Proofs.Infer.Names
import SizedTypes.Proofs.Infer.Params
import SizedTypes.Proofs.Infer.Params.Checks
import SizedTypes.Proofs.Infer.Params.Declarations
import SizedTypes.Proofs.Infer.Params.Goals
import SizedTypes.Proofs.Infer.Params.Groups
import SizedTypes.Proofs.Infer.Params.Recursion
import SizedTypes.Proofs.Infer.Params.Types
import SizedTypes.Proofs.Infer.Patterns
import SizedTypes.Proofs.Infer.Patterns.Flattening
import SizedTypes.Proofs.Infer.Provides
import SizedTypes.Proofs.Infer.Provides.Bindings
import SizedTypes.Proofs.Infer.Provides.Checks
import SizedTypes.Proofs.Infer.Provides.Groups
import SizedTypes.Proofs.Infer.Provides.Recursion
import SizedTypes.Proofs.Infer.Provides.Scopes
import SizedTypes.Proofs.Infer.Provides.Types
import SizedTypes.Proofs.Infer.Reading
import SizedTypes.Proofs.Infer.RecursiveCalls
import SizedTypes.Proofs.Infer.RecursiveCalls.Types
import SizedTypes.Proofs.Infer.Resolve
import SizedTypes.Proofs.Infer.Respects
import SizedTypes.Proofs.Infer.Respects.Checks
import SizedTypes.Proofs.Infer.Respects.Goals
import SizedTypes.Proofs.Infer.Routes
import SizedTypes.Proofs.Infer.Selecting
import SizedTypes.Proofs.Infer.Selecting.Indexing
import SizedTypes.Proofs.Infer.Selecting.Others
import SizedTypes.Proofs.Infer.Selecting.Outcome
import SizedTypes.Proofs.Infer.Selecting.Settling
import SizedTypes.Proofs.Infer.Signatures
import SizedTypes.Proofs.Infer.Silent
import SizedTypes.Proofs.Infer.State
import SizedTypes.Proofs.Infer.Steady
import SizedTypes.Proofs.Infer.Steady.Checks
import SizedTypes.Proofs.Infer.Submodules
import SizedTypes.Proofs.Infer.Uses
import SizedTypes.Proofs.Infer.Uses.Groups
import SizedTypes.Proofs.Infer.Uses.Plans
import SizedTypes.Proofs.Infer.Uses.Recursion
import SizedTypes.Proofs.Prelude.Enumerations
import SizedTypes.Proofs.Quantify
import SizedTypes.Proofs.Run.Asking
import SizedTypes.Proofs.Run.Cancelled
import SizedTypes.Proofs.Run.Closed
import SizedTypes.Proofs.Run.Module
import SizedTypes.Proofs.Run.Params
import SizedTypes.Proofs.Run.Scoping
import SizedTypes.Proofs.Run.Selectors
import SizedTypes.Proofs.Run.Stages
import SizedTypes.Proofs.Run.Synonyms
import SizedTypes.Proofs.Run.Uses
import SizedTypes.Proofs.Simplify.Closure
import SizedTypes.Proofs.Simplify.Completeness
import SizedTypes.Proofs.Simplify.Decided
import SizedTypes.Proofs.Simplify.Evaluation
import SizedTypes.Proofs.Simplify.Hierarchy
import SizedTypes.Proofs.Simplify.Images
import SizedTypes.Proofs.Simplify.Improvement
import SizedTypes.Proofs.Simplify.Instantiation
import SizedTypes.Proofs.Simplify.Normal
import SizedTypes.Proofs.Simplify.NormalForms
import SizedTypes.Proofs.Simplify.Replacement
import SizedTypes.Proofs.Simplify.Soundness
import SizedTypes.Proofs.Simplify.Valuation
import SizedTypes.Proofs.Simplify.Variables
import SizedTypes.Proofs.Simplify.WithinWords
import SizedTypes.Proofs.Size.Guarded
import SizedTypes.Proofs.Size.Primes
import SizedTypes.Proofs.Size.Rounded
import SizedTypes.Proofs.Subst.Acyclic
import SizedTypes.Proofs.Subst.Escape
import SizedTypes.Proofs.Subst.Image
import SizedTypes.Proofs.Subst.Merge
import SizedTypes.Proofs.Subst.Params
import SizedTypes.Proofs.Subst.Scope
import SizedTypes.Proofs.Subst.WellFormed
import SizedTypes.Proofs.Surface.Conditions
import SizedTypes.Proofs.Surface.Cut
import SizedTypes.Proofs.Surface.Grouping
import SizedTypes.Proofs.Surface.References
import SizedTypes.Proofs.Surface.Regrouping
import SizedTypes.Proofs.Surface.Scoping
import SizedTypes.Proofs.Table
import SizedTypes.Proofs.Ty.Erased
import SizedTypes.Proofs.Ty.Leaves
import SizedTypes.Proofs.Ty.Lift
import SizedTypes.Proofs.Ty.Params
import SizedTypes.Proofs.Ty.Shape
import SizedTypes.Proofs.Ty.Sizes
import SizedTypes.Proofs.Ty.Transparent
import SizedTypes.Proofs.Ty.WellFormed
import SizedTypes.Proofs.Ty.WellKinded
import SizedTypes.Proofs.Unify.Commit
import SizedTypes.Proofs.Unify.MostGeneral
import SizedTypes.Proofs.Unify.Soundness
import SizedTypes.Proofs.Unify.Step
import SizedTypes.Proofs.Unify.Variable
import SizedTypes.Quantify
import SizedTypes.Run
import SizedTypes.Schema
import SizedTypes.Scope
import SizedTypes.Selector
import SizedTypes.Session
import SizedTypes.Simplify
import SizedTypes.Simplify.Improve
import SizedTypes.Simplify.Instances
import SizedTypes.Size
import SizedTypes.Solver
import SizedTypes.Solver.Canned
import SizedTypes.Source
import SizedTypes.Subst
import SizedTypes.Surface.Expr
import SizedTypes.Surface.Grouping
import SizedTypes.Surface.TypeExpr
import SizedTypes.Table
import SizedTypes.Text.Quoted
import SizedTypes.Ty
import SizedTypes.Ty.Lemmas
import SizedTypes.Ty.Measure
import SizedTypes.Ty.Predicate
import SizedTypes.Ty.Printer
import SizedTypes.Unify
import SizedTypes.Word
import SizedTypes.Yaml.Cursor
import SizedTypes.Yaml.Node
import SizedTypes.Yaml.ScalarKind
import SizedTypes.Yaml.Token.Lexer
import SizedTypes.Yaml.Token.Scalar
import SizedTypes.Yaml.Writer
