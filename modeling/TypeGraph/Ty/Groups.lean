/-
# Types by family

A list of types sorted into one list per family, each in the order of the whole.
-/
import TypeGraph.Ty.Kind

namespace TypeGraph

/-- One list per family. -/
structure TypeGroups where
  never : List Ty
  any : List Ty
  number : List NumberType
  string : List StringType
  struct : List (Struct Ty)
  union : List (Union Ty)

namespace TypeGroups

def empty : TypeGroups := ⟨[], [], [], [], [], []⟩

/-- Puts a type in front of its family. -/
def cons (t : Ty) (g : TypeGroups) : TypeGroups :=
  match t with
  | .never => { g with never := t :: g.never }
  | .any => { g with any := t :: g.any }
  | .number n => { g with number := n :: g.number }
  | .string s => { g with string := s :: g.string }
  | .struct s => { g with struct := s :: g.struct }
  | .union u => { g with union := u :: g.union }

/-- The types of a list by family. -/
def ofList (ts : List Ty) : TypeGroups := ts.foldr cons empty

/-- The members of one family, as types. -/
def bucket (g : TypeGroups) : Family → List Ty
  | .never => g.never
  | .any => g.any
  | .number => g.number.map .number
  | .string => g.string.map .string
  | .struct => g.struct.map .struct
  | .union => g.union.map .union

/-- A type goes in front of its own family and leaves the others alone. -/
theorem bucket_cons (t : Ty) (g : TypeGroups) (f : Family) :
    (cons t g).bucket f = if t.family = f then t :: g.bucket f else g.bucket f := by
  cases t <;> cases f <;> rfl

/-- How many types there are in all families together. -/
def size (g : TypeGroups) : Nat :=
  g.never.length + g.any.length + g.number.length + g.string.length + g.struct.length
    + g.union.length

def isEmpty (g : TypeGroups) : Bool := g.size == 0

end TypeGroups
end TypeGraph
