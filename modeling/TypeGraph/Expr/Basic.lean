/-
# Expressions and definitions

The syntax of type-level programs: expressions that denote types, and definitions that give names
to expressions, structs and functions.
-/
import TypeGraph.Ty.Basic

namespace TypeGraph

/-- A case of a match: what it tests for, the name for what was matched, and its result. -/
structure Arm (α : Type) where
  pattern : α
  binding : Option String
  result : α
deriving DecidableEq

mutual

/-- An expression. -/
inductive Expr where
  /-- A concrete type. -/
  | literal (value : Ty)
  /-- A name, with arguments for its fields. -/
  | named (name : String) (fields : List (Field Expr))
  | intersection (items : List Expr)
  | union (items : List Expr)
  /-- A field of a value. -/
  | access (of : Expr) (field : String)
  /-- A call of a built-in function.  The function's name refers to no definition. -/
  | call (function : String) (args : List Expr)
  | matchOn (of : Expr) (arms : List (Arm Expr))
  /-- Local definitions and the expression they serve. -/
  | scope (definitions : List Definition) (body : Expr)

/-- A definition. -/
inductive Definition where
  | var (name : String) (value : Expr)
  | struct (name : String) (fields : List (Field Expr))
  | function (name : String) (parameters : List (Field Expr)) (value : Expr)

end

instance : Inhabited Expr := ⟨.union []⟩
instance : Inhabited Definition := ⟨.struct "" []⟩

/-- A name without arguments. -/
def Expr.bare (name : String) : Expr := .named name []

/-- A case that gives no name to what it matches. -/
def Arm.unnamed {α : Type} (pattern result : α) : Arm α := ⟨pattern, none, result⟩

/-- The same case with a name for what it matches. -/
def Arm.withBinding {α : Type} (arm : Arm α) (name : String) : Arm α :=
  { arm with binding := some name }

/-- The name that a definition binds. -/
def Definition.name : Definition → String
  | .var name _ => name
  | .struct name _ => name
  | .function name _ _ => name

/-! ## Size -/

mutual

/-- How many expressions and definitions an expression consists of. -/
def Expr.size : Expr → Nat
  | .literal _ => 1
  | .named _ fields => 1 + Expr.fieldsSize fields
  | .intersection items => 1 + Expr.itemsSize items
  | .union items => 1 + Expr.itemsSize items
  | .access of _ => 1 + of.size
  | .call _ args => 1 + Expr.itemsSize args
  | .matchOn of arms => 1 + of.size + Expr.armsSize arms
  | .scope definitions body => 1 + Definition.listSize definitions + body.size

/-- How many expressions and definitions a definition consists of. -/
def Definition.size : Definition → Nat
  | .var _ value => 1 + value.size
  | .struct _ fields => 1 + Expr.fieldsSize fields
  | .function _ parameters value => 1 + Expr.fieldsSize parameters + value.size

def Expr.fieldsSize : List (Field Expr) → Nat
  | [] => 0
  | ⟨_, e⟩ :: rest => e.size + Expr.fieldsSize rest

def Expr.itemsSize : List Expr → Nat
  | [] => 0
  | e :: rest => e.size + Expr.itemsSize rest

def Expr.armsSize : List (Arm Expr) → Nat
  | [] => 0
  | ⟨pattern, _, result⟩ :: rest => pattern.size + result.size + Expr.armsSize rest

def Definition.listSize : List Definition → Nat
  | [] => 0
  | d :: rest => d.size + Definition.listSize rest

end

/-! ## Nodes -/

/-- An expression or a definition. -/
inductive Node where
  | expr (e : Expr)
  | definition (d : Definition)

/-- What a node is called. -/
def Node.sort : Node → String
  | .expr _ => "expression"
  | .definition _ => "definition"

/-- How many expressions and definitions a node consists of. -/
def Node.size : Node → Nat
  | .expr e => e.size
  | .definition d => d.size

end TypeGraph
