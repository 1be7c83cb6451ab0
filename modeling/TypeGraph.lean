import TypeGraph.Event
import TypeGraph.Expr.Basic
import TypeGraph.Expr.Document
import TypeGraph.Expr.References
import TypeGraph.Fault
import TypeGraph.Graph.Basic
import TypeGraph.Graph.Id
import TypeGraph.Graph.Order
import TypeGraph.Graph.Search
import TypeGraph.Json.Basic
import TypeGraph.Json.Record
import TypeGraph.Number.Binary64
import TypeGraph.Number.Decimal
import TypeGraph.Number.Layout
import TypeGraph.Number.Power
import TypeGraph.Number.Shortest
import TypeGraph.OrderedSet
import TypeGraph.Proofs.Except
import TypeGraph.Proofs.Expr.Bodies
import TypeGraph.Proofs.Expr.Document
import TypeGraph.Proofs.Expr.Occurrence
import TypeGraph.Proofs.Expr.Switch
import TypeGraph.Proofs.Expr.Walk
import TypeGraph.Proofs.Graph.Analysis
import TypeGraph.Proofs.Graph.Appending
import TypeGraph.Proofs.Graph.Bodies
import TypeGraph.Proofs.Graph.Components
import TypeGraph.Proofs.Graph.Condensation
import TypeGraph.Proofs.Graph.Construction
import TypeGraph.Proofs.Graph.Cycles
import TypeGraph.Proofs.Graph.Dependence
import TypeGraph.Proofs.Graph.Interleaving
import TypeGraph.Proofs.Graph.Names
import TypeGraph.Proofs.Graph.Postorder
import TypeGraph.Proofs.Graph.Reordering
import TypeGraph.Proofs.Graph.RootCause
import TypeGraph.Proofs.Json.Record
import TypeGraph.Proofs.Number.Text
import TypeGraph.Proofs.OrderedSet
import TypeGraph.Proofs.Search.Invariant
import TypeGraph.Proofs.Search.LoopInvariant
import TypeGraph.Proofs.Search.Moves
import TypeGraph.Proofs.Search.State
import TypeGraph.Proofs.Search.Turn
import TypeGraph.Proofs.Text.Bytes
import TypeGraph.Proofs.Text.Parts
import TypeGraph.Proofs.Text.Quoted
import TypeGraph.Proofs.Ty.Between
import TypeGraph.Proofs.Ty.Document
import TypeGraph.Proofs.Ty.Faults
import TypeGraph.Proofs.Ty.Groups
import TypeGraph.Proofs.Ty.History
import TypeGraph.Proofs.Ty.Identity
import TypeGraph.Proofs.Ty.Key
import TypeGraph.Proofs.Ty.Shape
import TypeGraph.Proofs.Ty.Span
import TypeGraph.Proofs.Ty.Spelling
import TypeGraph.Proofs.Ty.Union
import TypeGraph.Proofs.Ty.WellFormed
import TypeGraph.Text.Invisible
import TypeGraph.Text.Quoted
import TypeGraph.Ty.Basic
import TypeGraph.Ty.Description
import TypeGraph.Ty.Description.Document
import TypeGraph.Ty.Groups
import TypeGraph.Ty.Kind
import TypeGraph.Ty.Literal
import TypeGraph.Ty.Number
import TypeGraph.Ty.Shape
