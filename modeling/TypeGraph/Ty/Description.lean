/-
# Descriptions of types

A description is a type as a document spells it: nothing is checked, bounds may be left open, and
unions come in any order.  `Description.build` makes the type it describes, or reports its first
fault; `Ty.describe` goes back.
-/
import TypeGraph.Ty.Basic

namespace TypeGraph

/-- An unchecked type. -/
inductive Description where
  | never
  | any
  | number
  | string
  | numberLiteral (value : Binary64)
  | stringLiteral (value : String)
  | interval (min max : Option Binary64)
  | intInterval (min max : Option Binary64)
  | struct (name : String) (fields : List (Field Description))
  | union (items : List Description)

namespace Description

instance : Inhabited Description := ⟨.never⟩

/-- An open lower bound is negative infinity. -/
def lowerBound (b : Option Binary64) : Binary64 := b.getD .negInfinity

/-- An open upper bound is infinity. -/
def upperBound (b : Option Binary64) : Binary64 := b.getD .infinity

mutual

/-- The type that is described, or the fault of the first part that describes none, depth first and
in order. -/
def build : Description → Except BoundsFault Ty
  | .never => return .never
  | .any => return .any
  | .number => return .number .all
  | .string => return .string .all
  | .numberLiteral v => return .number (← NumberType.ofValue v)
  | .stringLiteral s => return .string (.literal s)
  | .interval min max =>
    return .number (← NumberType.ofBounds (lowerBound min) (upperBound max))
  | .intInterval min max =>
    return .number (← NumberType.ofIntBounds (lowerBound min) (upperBound max))
  | .struct name fields => return .struct (.of name (← buildFields fields))
  | .union items => return .union (.of (← buildItems items))

/-- The described fields, in order. -/
def buildFields : List (Field Description) → Except BoundsFault (List (Field Ty))
  | [] => return []
  | ⟨name, d⟩ :: rest => do
    let t ← d.build
    return ⟨name, t⟩ :: (← buildFields rest)

/-- The described types, in order. -/
def buildItems : List Description → Except BoundsFault (List Ty)
  | [] => return []
  | d :: rest => do
    let t ← d.build
    return t :: (← buildItems rest)

end

end Description

namespace Ty

/-- A lower bound, left open if it is negative infinity. -/
def openLower (x : Binary64) : Option Binary64 := if x = .negInfinity then none else some x

/-- An upper bound, left open if it is infinity. -/
def openUpper (x : Binary64) : Option Binary64 := if x = .infinity then none else some x

mutual

/-- The description of a type. -/
def describe : Ty → Description
  | .never => .never
  | .any => .any
  | .number .all => .number
  | .number (.literal v) => .numberLiteral v
  | .number (.interval min max) => .interval (openLower min) (openUpper max)
  | .number (.intInterval min max) => .intInterval (openLower min) (openUpper max)
  | .string .all => .string
  | .string (.literal s) => .stringLiteral s
  | .struct ⟨name, fields, _⟩ => .struct name (describeFields fields)
  | .union ⟨members, _⟩ => .union (describeMembers members)

def describeFields : List (Field Ty) → List (Field Description)
  | [] => []
  | ⟨name, t⟩ :: rest => ⟨name, t.describe⟩ :: describeFields rest

def describeMembers : List Ty → List Description
  | [] => []
  | t :: rest => t.describe :: describeMembers rest

end

end Ty
end TypeGraph
