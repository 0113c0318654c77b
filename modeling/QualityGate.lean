import QualityGate.Advice
import QualityGate.Command.Arguments
import QualityGate.Command.Check
import QualityGate.Command.Options
import QualityGate.Command.Rendering
import QualityGate.Command.Run
import QualityGate.Command.Template
import QualityGate.Config.Basic
import QualityGate.Config.Reader
import QualityGate.Context.Classifier
import QualityGate.Context.PathPattern
import QualityGate.DottedName
import QualityGate.Engine
import QualityGate.Family
import QualityGate.Glob
import QualityGate.Json.Reader
import QualityGate.Json.Value
import QualityGate.Main
import QualityGate.Metrics
import QualityGate.Node.Basic
import QualityGate.Node.Walk
import QualityGate.Path
import QualityGate.Proofs.Command.Flags
import QualityGate.Proofs.Command.Limits
import QualityGate.Proofs.Command.Preparation
import QualityGate.Proofs.Command.Selection
import QualityGate.Proofs.Config.Limits
import QualityGate.Proofs.Config.Overlay
import QualityGate.Proofs.Context.BuiltIn
import QualityGate.Proofs.Context.LeadingDot
import QualityGate.Proofs.Context.Override
import QualityGate.Proofs.Context.ScopeRoot
import QualityGate.Proofs.Context.Spelling
import QualityGate.Proofs.Cst.Comments
import QualityGate.Proofs.Cst.Decisions
import QualityGate.Proofs.Cst.Descent
import QualityGate.Proofs.Cst.Placement
import QualityGate.Proofs.Cst.Region
import QualityGate.Proofs.Cst.Regular
import QualityGate.Proofs.Cst.Shape
import QualityGate.Proofs.Engine.Attestation
import QualityGate.Proofs.Engine.Branching
import QualityGate.Proofs.Engine.CoreOnly
import QualityGate.Proofs.Engine.Isolation
import QualityGate.Proofs.Engine.Permutation
import QualityGate.Proofs.Engine.Run
import QualityGate.Proofs.Engine.Selection
import QualityGate.Proofs.Engine.Tightening
import QualityGate.Proofs.Json.RoundTrip
import QualityGate.Proofs.Lowering.Branches
import QualityGate.Proofs.Lowering.Callee
import QualityGate.Proofs.Lowering.Children
import QualityGate.Proofs.Lowering.Comments
import QualityGate.Proofs.Lowering.Decisions
import QualityGate.Proofs.Lowering.Depth
import QualityGate.Proofs.Lowering.Lines
import QualityGate.Proofs.Lowering.Operands
import QualityGate.Proofs.Lowering.Simulation
import QualityGate.Proofs.Lowering.Unlimited
import QualityGate.Proofs.Node.Ancestors
import QualityGate.Proofs.Node.Bounds
import QualityGate.Proofs.Node.Cognitive
import QualityGate.Proofs.Node.Flattening
import QualityGate.Proofs.Node.Growth
import QualityGate.Proofs.Node.Inheritance
import QualityGate.Proofs.Node.Lines
import QualityGate.Proofs.Node.Nesting
import QualityGate.Proofs.Node.Place
import QualityGate.Proofs.Node.Replacement
import QualityGate.Proofs.Node.Traversal
import QualityGate.Proofs.Path.Order
import QualityGate.Proofs.Report.Blocking
import QualityGate.Proofs.Report.Consistency
import QualityGate.Proofs.Report.Recommendations
import QualityGate.Proofs.Report.RoundTrip
import QualityGate.Proofs.Rule.Attribution
import QualityGate.Proofs.Rule.CallTable
import QualityGate.Proofs.Rule.Growth
import QualityGate.Proofs.Rule.Handling
import QualityGate.Proofs.Rule.Impurity
import QualityGate.Proofs.Rule.Lines
import QualityGate.Proofs.Rule.Locality
import QualityGate.Proofs.Rule.Naming
import QualityGate.Proofs.Rule.Provenance
import QualityGate.Proofs.Rule.QualifiedName
import QualityGate.Proofs.Rule.Retagging
import QualityGate.Proofs.Rule.Tightening
import QualityGate.Proofs.Sequence.Embedding
import QualityGate.Proofs.Sequence.Keyed
import QualityGate.Proofs.Sequence.StableSort
import QualityGate.Proofs.Sequence.Traversal
import QualityGate.Proofs.Text.Reading
import QualityGate.Proofs.Text.Writing
import QualityGate.Python.Cst
import QualityGate.Python.FrontEnd
import QualityGate.Python.Grammar.Atom
import QualityGate.Python.Grammar.Basic
import QualityGate.Python.Grammar.Block
import QualityGate.Python.Grammar.CasePattern
import QualityGate.Python.Grammar.Comprehension
import QualityGate.Python.Grammar.Expression
import QualityGate.Python.Grammar.Module
import QualityGate.Python.Grammar.Parameter
import QualityGate.Python.Grammar.SimpleStatement
import QualityGate.Python.Grammar.Strength
import QualityGate.Python.Grammar.Trailer
import QualityGate.Python.Grammar.TypeHint
import QualityGate.Python.Lowering
import QualityGate.Python.Token.Basic
import QualityGate.Python.Token.Blank
import QualityGate.Python.Token.Identifier
import QualityGate.Python.Token.Number
import QualityGate.Python.Token.Quote
import QualityGate.Python.Token.Sequence
import QualityGate.Report.Basic
import QualityGate.Report.Encoding
import QualityGate.Rule.Basic
import QualityGate.Rule.Catalogue
import QualityGate.Rule.Complexity
import QualityGate.Rule.Design
import QualityGate.Rule.ErrorHandling
import QualityGate.Rule.Purity
import QualityGate.Selection.Exclusion
import QualityGate.Selection.FileTree
import QualityGate.Selection.Ignore
import QualityGate.Selection.Scope
import QualityGate.Text.Basic
import QualityGate.Text.Reader
import QualityGate.Text.Segments
import QualityGate.Thresholds
import QualityGate.Toml.Document
import QualityGate.Toml.Scalar
import QualityGate.Total
import QualityGate.Violation.Basic
import QualityGate.Violation.Kind
