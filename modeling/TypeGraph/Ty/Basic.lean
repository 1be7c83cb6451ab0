/-
# Structural types

Types with their canonical text, the key: two types are the same exactly when their keys agree.
A struct or union carries its key, which `Struct.of` and `Union.of` write once; these two are the
ways to make one.  A union is a set: its members are not unions, they are ordered by key, and no
key occurs twice.
-/
import TypeGraph.Ty.Number
import TypeGraph.Text.Quoted

namespace TypeGraph

/-- A type of strings. -/
inductive StringType where
  /-- Every string. -/
  | all
  /-- Exactly one string. -/
  | literal (value : String)
deriving DecidableEq

/-- The canonical text of a string type. -/
def StringType.key : StringType → String
  | .all => "string"
  | .literal s => Text.quoted s

/-- Something under a name. -/
structure Field (α : Type) where
  name : String
  value : α
deriving DecidableEq

/-- A name with fields in order, and the key of the whole. -/
structure Struct (α : Type) where
  name : String
  fields : List (Field α)
  key : String

/-- The members of a union, and the key of the whole. -/
structure Union (α : Type) where
  members : List α
  key : String

/-- A structural type. -/
inductive Ty where
  /-- No value. -/
  | never
  /-- Every value. -/
  | any
  | number (n : NumberType)
  | string (s : StringType)
  | struct (s : Struct Ty)
  | union (u : Union Ty)

instance : Inhabited Ty := ⟨.never⟩

/-! ## Keys and sameness -/

/-- The canonical text of a type. -/
def Ty.key : Ty → String
  | .never => "never"
  | .any => "any"
  | .number n => n.key
  | .string s => s.key
  | .struct s => s.key
  | .union u => u.key

/-- The same type: one key. -/
def Ty.same (a b : Ty) : Bool := a.key == b.key

instance : BEq Ty := ⟨Ty.same⟩
instance : Hashable Ty := ⟨fun t => hash t.key⟩
instance : ToString Ty := ⟨Ty.key⟩

/-! ## Structs -/

/-- A field within the key of its struct. -/
def Field.keyText (f : Field Ty) : String := Text.label f.name ++ ": " ++ f.value.key

/-- The key of a struct with this name and these fields. -/
def Struct.keyText (name : String) (fields : List (Field Ty)) : String :=
  "struct " ++ Text.label name ++
    match fields with
    | [] => ""
    | _ :: _ => " \x7b " ++ ", ".intercalate (fields.map Field.keyText) ++ " \x7d"

/-- The struct with this name and these fields. -/
def Struct.of (name : String) (fields : List (Field Ty)) : Struct Ty :=
  ⟨name, fields, keyText name fields⟩

/-- The first field of this name. -/
def Struct.field? (s : Struct Ty) (name : String) : Option (Field Ty) :=
  s.fields.find? fun f => f.name == name

/-! ## Unions -/

/-- What a type adds to a union: the members of a union, and any other type itself. -/
def Ty.leaves : Ty → List Ty
  | .union u => u.members
  | t => [t]

/-- A type beside its key. -/
abbrev Keyed := String × Ty

/-- The elements of the list after those at its front that have the key `key`, each run of one key
cut down to its first element. -/
def Union.firstsAfter (key : String) : List Keyed → List Keyed
  | [] => []
  | t :: rest => if t.1 = key then firstsAfter key rest else t :: firstsAfter t.1 rest

/-- Each run of one key cut down to its first element. -/
def Union.firsts : List Keyed → List Keyed
  | [] => []
  | t :: rest => t :: firstsAfter t.1 rest

/-- The list in the order of keys, with each key once. -/
def Union.canonical (ts : List Ty) : List Keyed :=
  firsts ((ts.map fun t => (t.key, t)).mergeSort fun a b => decide (a.1 ≤ b.1))

/-- The key of a union whose members have these keys. -/
def Union.keyText (keys : List String) : String := "(" ++ " | ".intercalate keys ++ ")"

/-- The union of these types. -/
def Union.of (ts : List Ty) : Union Ty :=
  let keyed := canonical (ts.flatMap Ty.leaves)
  ⟨keyed.map (·.2), keyText (keyed.map (·.1))⟩

/-- The types of a list without repetition, in the order of keys. -/
def Ty.distinct (ts : List Ty) : List Ty := (Union.canonical ts).map (·.2)

end TypeGraph
