/-
# Faults

What can go wrong, each cause with the words it is reported in.  A fault is an answer to the
caller; a breach is a promise that the caller broke, after which the computation stops.
-/
import TypeGraph.Number.Layout
import TypeGraph.Graph.Id

namespace TypeGraph

/-- Why numbers do not make a number type. -/
inductive BoundsFault where
  /-- A value or bound is NaN. -/
  | notANumber
  /-- The lower bound is not below the upper one. -/
  | reversed (min max : Binary64)
  /-- A finite bound of an integer interval has a fraction. -/
  | fractional (min max : Binary64)
deriving DecidableEq

def BoundsFault.message : BoundsFault → String
  | .notANumber => "numeric types cannot hold NaN"
  | .reversed min max =>
    "invalid interval bounds: expected " ++ min.text ++ " < " ++ max.text
  | .fractional min max =>
    "int interval bounds must be integers or infinite, got " ++ min.text ++ ".." ++ max.text

/-- How two structs of one name differ in shape. -/
inductive ShapeMismatch where
  | fieldCount
  | fieldNames
deriving DecidableEq

/-- Two structs that share a name and not a shape, given by the name and their keys. -/
structure ShapeFault where
  mismatch : ShapeMismatch
  name : String
  left : String
  right : String
deriving DecidableEq

def ShapeMismatch.noun : ShapeMismatch → String
  | .fieldCount => "number of fields"
  | .fieldNames => "field names"

def ShapeFault.message (f : ShapeFault) : String :=
  "invalid struct: expected all structs named `" ++ f.name ++ "` to have the same "
    ++ f.mismatch.noun ++ " (a = " ++ f.left ++ ", b = " ++ f.right ++ ")"

/-- Why a document is not the written form of a type, expression or definition. -/
inductive ReadFault where
  /-- A required member is absent. -/
  | missing (key : String)
  /-- The tag is none of the known ones. -/
  | unknownTag (tag : String) (known : List String)
  /-- A value of the wrong kind. -/
  | wrongKind
  /-- A positional form that ends before its last required element. -/
  | tooShort
  /-- A value that spells no number. -/
  | noNumber
  /-- A type whose bounds do not fit together. -/
  | bounds (fault : BoundsFault)
deriving DecidableEq

/-- The words of a reading fault; some faults have none. -/
def ReadFault.message? : ReadFault → Option String
  | .missing key => some ("missing field `" ++ key ++ "`")
  | .unknownTag tag known =>
    some ("unknown variant `" ++ tag ++ "`, expected one of "
      ++ ", ".intercalate (known.map fun t => "`" ++ t ++ "`"))
  | .wrongKind | .tooShort | .noNumber => none
  | .bounds fault => some fault.message

/-- The names of the definitions that depend on each other and so have no evaluation order. -/
structure CycleFault where
  names : List String
deriving DecidableEq

def CycleFault.message (f : CycleFault) : String :=
  "cyclic dependency between definitions: " ++ ", ".intercalate f.names

/-- A promise broken by a caller. -/
inductive Breach where
  /-- Bounds that were promised to be well formed are not. -/
  | bounds (fault : BoundsFault)
  /-- Structs that were promised to have one shape per name have not. -/
  | shape (fault : ShapeFault)
  /-- An id of no definition of the graph. -/
  | unknownId (id : DefId)
deriving DecidableEq

def Breach.message : Breach → String
  | .bounds fault => "Type: " ++ fault.message ++ " (callers must pass well-formed bounds)"
  | .shape fault =>
    fault.message ++ " (the type registry must keep one shape per struct name)"
  | .unknownId id => "DependencyGraph: DefId(" ++ toString id.index ++ ") not found"

end TypeGraph
