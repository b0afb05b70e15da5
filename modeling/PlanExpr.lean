import PlanExpr.CommandLine.Report
import PlanExpr.Expr.Outline
import PlanExpr.Expr.Visitor
import PlanExpr.Main
import PlanExpr.Wire.Grammar
import PlanExpr.Wire.Layout
import PlanExpr.Wire.Steps
import PlanExpr.Workbench
import PlanExpr.Proofs.Wire.Writing
import PlanExpr.Proofs.Wire.Recognition
import PlanExpr.Proofs.Wire.Spelling
import PlanExpr.Proofs.Wire.Supply
import PlanExpr.Proofs.Wire.Parsing
import PlanExpr.Proofs.Wire.Acceptance
import PlanExpr.Proofs.Wire.RoundTrip
import PlanExpr.Proofs.Wire.Correspondence
import PlanExpr.Proofs.Wire.Lockstep
import PlanExpr.Proofs.Wire.Extension
import PlanExpr.Proofs.Wire.Canonical
import PlanExpr.Expr.Skeleton
import PlanExpr.Proofs.Text.Reader
import PlanExpr.Proofs.Text.Readability
import PlanExpr.Proofs.Wire.Visits
import PlanExpr.Proofs.Wire.Traversal
import PlanExpr.Proofs.Wire.Nesting
import PlanExpr.Proofs.Wire.Tracing
import PlanExpr.Proofs.Wire.BoundedOutput
import PlanExpr.Proofs.CommandLine.StreamOption
import PlanExpr.Proofs.CommandLine.Agreement
import PlanExpr.Proofs.Expr.Embedding
import PlanExpr.Proofs.Wire.Delivery
import PlanExpr.Proofs.Wire.Justification
import PlanExpr.Proofs.CommandLine.Inspection
import PlanExpr.Proofs.Text.Hexadecimal
import PlanExpr.Proofs.Expr.Descent
import PlanExpr.Proofs.Expr.Retention
import PlanExpr.Proofs.Wire.Amplification
import PlanExpr.Proofs.Wire.Repetition
import PlanExpr.Expr.SpelledOut
import PlanExpr.Proofs.Expr.ColumnName
import PlanExpr.Proofs.Wire.Placement
import PlanExpr.Proofs.Wire.PrimitiveReads
import PlanExpr.Proofs.Wire.Integers
import PlanExpr.Proofs.Text.HexAcceptance
import PlanExpr.Proofs.Expr.Recording
import PlanExpr.Proofs.Wire.Pieces
