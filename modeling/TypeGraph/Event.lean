/-
# Events

What a computation reports while it runs, beside its result.
-/
import TypeGraph.Fault

namespace TypeGraph

/-- A report. -/
inductive Event where
  /-- Bounds broke the promise made for them. -/
  | boundsBroken (fault : BoundsFault)
  /-- Structs broke the promise of one shape per name. -/
  | shapeBroken (fault : ShapeFault)
  /-- A graph over this many definitions is about to be built. -/
  | buildingGraph (definitions : Nat)
  /-- The mentions of one definition are sorted into known and unknown names. -/
  | collected (name : String) (dependencies unknown : Nat)
  /-- The cycles of a graph are known. -/
  | cyclesFound (count : Nat)
deriving DecidableEq

/-- An event as a line: its level, its words, and its values. -/
def Event.text : Event → String
  | .boundsBroken fault => "ERROR type invariant violated error=" ++ fault.message
  | .shapeBroken fault => "ERROR struct shape invariant violated error=" ++ fault.message
  | .buildingGraph n => "DEBUG building dependency graph definitions=" ++ toString n
  | .collected name deps unknown =>
    "TRACE collected references name=" ++ name ++ " dependencies=" ++ toString deps
      ++ " unknown=" ++ toString unknown
  | .cyclesFound n => "DEBUG cycle detection finished cycles=" ++ toString n

/-- What is reported of a breach before the computation stops. -/
def Breach.events : Breach → List Event
  | .bounds fault => [.boundsBroken fault]
  | .shape fault => [.shapeBroken fault]
  | .unknownId _ => []

end TypeGraph
