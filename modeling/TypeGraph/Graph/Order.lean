/-
# Cycles and evaluation order

A component is a cycle when its definitions depend on each other: it has several members, or its
only member depends on itself and that is not allowed.  Without a cycle the components, one after
the other, are an order in which every definition comes after its dependencies.
-/
import TypeGraph.Graph.Search

namespace TypeGraph
namespace DependencyGraph

/-- Whether a component is a cycle. -/
def isCycle (g : DependencyGraph) (component : List DefId) : Except Breach Bool :=
  match component with
  | [id] =>
    if g.options.allowSelfReferences then return false
    else return (← g.mentionsOf id).dependencies.contains id
  | _ => return true

/-- The cycles of a graph, dependencies first. -/
def cycles (g : DependencyGraph) : Except Breach (List (List DefId)) := do
  (← g.components).filterM g.isCycle

/-- What is reported when the cycles of a graph are known. -/
def cycleEvents (cycles : List (List DefId)) : List Event := [.cyclesFound cycles.length]

/-- The definitions in an order in which each comes after its dependencies, or the names on the
first cycle. -/
def evaluationOrder (g : DependencyGraph) : Except Breach (Except CycleFault (List DefId)) := do
  let components ← g.components
  match ← components.findM? g.isCycle with
  | some cycle => return .error ⟨← cycle.mapM g.nameOf⟩
  | none => return .ok components.flatten

end DependencyGraph
end TypeGraph
