/-
# Kinds and families

Two coarse views of a type: its family, one per constructor, and its kind, which tells literals
and intervals apart and does not tell a number literal from a string literal.
-/
import TypeGraph.Ty.Basic

namespace TypeGraph

/-- The families of types. -/
inductive Family where
  | never | any | number | string | struct | union
deriving DecidableEq

namespace Family

/-- All families, in order. -/
def all : List Family := [.never, .any, .number, .string, .struct, .union]

def name : Family → String
  | .never => "never"
  | .any => "any"
  | .number => "number"
  | .string => "string"
  | .struct => "struct"
  | .union => "union"

end Family

/-- The kinds of types. -/
inductive Kind where
  | never | any | number | string | literal | interval | intInterval | struct | union
deriving DecidableEq

namespace Kind

/-- All kinds, in order. -/
def all : List Kind :=
  [.never, .any, .number, .string, .literal, .interval, .intInterval, .struct, .union]

def name : Kind → String
  | .never => "never"
  | .any => "any"
  | .number => "number"
  | .string => "string"
  | .literal => "literal"
  | .interval => "interval"
  | .intInterval => "int-interval"
  | .struct => "struct"
  | .union => "union"

end Kind

def NumberType.kind : NumberType → Kind
  | .all => .number
  | .literal _ => .literal
  | .interval .. => .interval
  | .intInterval .. => .intInterval

def StringType.kind : StringType → Kind
  | .all => .string
  | .literal _ => .literal

namespace Ty

def family : Ty → Family
  | .never => .never
  | .any => .any
  | .number _ => .number
  | .string _ => .string
  | .struct _ => .struct
  | .union _ => .union

def kind : Ty → Kind
  | .never => .never
  | .any => .any
  | .number n => n.kind
  | .string s => s.kind
  | .struct _ => .struct
  | .union _ => .union

end Ty
end TypeGraph
