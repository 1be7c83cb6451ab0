/-
# Expressions and definitions in documents

Each is written as a tagged record.  A literal holds the document of its type, which is read and
built at its place, so the first fault of a document is the one that is met first.
-/
import TypeGraph.Expr.Basic
import TypeGraph.Ty.Description.Document

namespace TypeGraph

/-! ## Writing -/

/-- A name that may be absent. -/
def bindingDocument : Option String → Json
  | none => .null
  | some s => .str s

mutual

/-- An expression as a document. -/
def Expr.toJson : Expr → Json
  | .literal value => .obj [("type", .str "literal"), ("value", value.toJson)]
  | .named name fields =>
    .obj [("type", .str "named"), ("name", .str name), ("fields", .arr (Expr.fieldsToJson fields))]
  | .intersection items =>
    .obj [("type", .str "intersection"), ("items", .arr (Expr.itemsToJson items))]
  | .union items => .obj [("type", .str "union"), ("items", .arr (Expr.itemsToJson items))]
  | .access of field =>
    .obj [("type", .str "field-access"), ("of", of.toJson), ("field", .str field)]
  | .call function args =>
    .obj [("type", .str "builtin-function"), ("function", .str function),
      ("args", .arr (Expr.itemsToJson args))]
  | .matchOn of arms =>
    .obj [("type", .str "match"), ("of", of.toJson), ("arms", .arr (Expr.armsToJson arms))]
  | .scope definitions body =>
    .obj [("type", .str "scope"), ("definitions", .arr (Definition.listToJson definitions)),
      ("expression", body.toJson)]

/-- A definition as a document. -/
def Definition.toJson : Definition → Json
  | .var name value =>
    .obj [("type", .str "variable"), ("name", .str name), ("value", value.toJson)]
  | .struct name fields =>
    .obj [("type", .str "struct"), ("name", .str name), ("fields", .arr (Expr.fieldsToJson fields))]
  | .function name parameters value =>
    .obj [("type", .str "function"), ("name", .str name),
      ("parameters", .arr (Expr.fieldsToJson parameters)), ("value", value.toJson)]

def Expr.fieldsToJson : List (Field Expr) → List Json
  | [] => []
  | ⟨name, e⟩ :: rest => .obj [("name", .str name), ("type", e.toJson)] :: Expr.fieldsToJson rest

def Expr.itemsToJson : List Expr → List Json
  | [] => []
  | e :: rest => e.toJson :: Expr.itemsToJson rest

def Expr.armsToJson : List (Arm Expr) → List Json
  | [] => []
  | ⟨pattern, binding, result⟩ :: rest =>
    .obj [("pattern", pattern.toJson), ("binding", bindingDocument binding), ("to", result.toJson)]
      :: Expr.armsToJson rest

def Definition.listToJson : List Definition → List Json
  | [] => []
  | d :: rest => d.toJson :: Definition.listToJson rest

end

/-- A node as a document. -/
def Node.toJson : Node → Json
  | .expr e => e.toJson
  | .definition d => d.toJson

/-! ## Reading -/

/-- The tags of expressions. -/
def Expr.tags : List String :=
  ["literal", "named", "intersection", "union", "field-access", "builtin-function", "match",
   "scope"]

/-- The tags of definitions. -/
def Definition.tags : List String := ["variable", "struct", "function"]

mutual

/-- The expression that a document writes. -/
def Expr.ofJson (j : Json) : Except ReadFault Expr := do
  let (tag, r) ← j.tagged
  match tag with
  | "literal" =>
    let value ← r.read? 0 "value" fun p => Ty.ofJson p.val
    return .literal (← r.require "value" value)
  | "named" =>
    let name ← r.read? 0 "name" fun p => p.val.text
    let fields ← r.read? 1 "fields" fun ⟨p, _⟩ => do
      (← p.elements).mapM fun ⟨f, _⟩ => Expr.fieldOfJson f
    return .named (← r.require "name" name) (fields.getD [])
  | "intersection" =>
    let items ← r.read? 0 "items" fun ⟨p, _⟩ => do
      (← p.elements).mapM fun ⟨i, _⟩ => Expr.ofJson i
    return .intersection (← r.require "items" items)
  | "union" =>
    let items ← r.read? 0 "items" fun ⟨p, _⟩ => do
      (← p.elements).mapM fun ⟨i, _⟩ => Expr.ofJson i
    return .union (← r.require "items" items)
  | "field-access" =>
    let of ← r.read? 0 "of" fun ⟨p, _⟩ => Expr.ofJson p
    let field ← r.read? 1 "field" fun p => p.val.text
    return .access (← r.require "of" of) (← r.require "field" field)
  | "builtin-function" =>
    let function ← r.read? 0 "function" fun p => p.val.text
    let args ← r.read? 1 "args" fun ⟨p, _⟩ => do
      (← p.elements).mapM fun ⟨a, _⟩ => Expr.ofJson a
    return .call (← r.require "function" function) (← r.require "args" args)
  | "match" =>
    let of ← r.read? 0 "of" fun ⟨p, _⟩ => Expr.ofJson p
    let arms ← r.read? 1 "arms" fun ⟨p, _⟩ => do
      (← p.elements).mapM fun ⟨a, _⟩ => Expr.armOfJson a
    return .matchOn (← r.require "of" of) (← r.require "arms" arms)
  | "scope" =>
    let definitions ← r.read? 0 "definitions" fun ⟨p, _⟩ => do
      (← p.elements).mapM fun ⟨d, _⟩ => Definition.ofJson d
    let body ← r.read? 1 "expression" fun ⟨p, _⟩ => Expr.ofJson p
    return .scope (← r.require "definitions" definitions) (← r.require "expression" body)
  | other => throw (.unknownTag other Expr.tags)
termination_by sizeOf j

/-- The definition that a document writes. -/
def Definition.ofJson (j : Json) : Except ReadFault Definition := do
  let (tag, r) ← j.tagged
  match tag with
  | "variable" =>
    let name ← r.read? 0 "name" fun p => p.val.text
    let value ← r.read? 1 "value" fun ⟨p, _⟩ => Expr.ofJson p
    return .var (← r.require "name" name) (← r.require "value" value)
  | "struct" =>
    let name ← r.read? 0 "name" fun p => p.val.text
    let fields ← r.read? 1 "fields" fun ⟨p, _⟩ => do
      (← p.elements).mapM fun ⟨f, _⟩ => Expr.fieldOfJson f
    return .struct (← r.require "name" name) (fields.getD [])
  | "function" =>
    let name ← r.read? 0 "name" fun p => p.val.text
    let parameters ← r.read? 1 "parameters" fun ⟨p, _⟩ => do
      (← p.elements).mapM fun ⟨f, _⟩ => Expr.fieldOfJson f
    let value ← r.read? 2 "value" fun ⟨p, _⟩ => Expr.ofJson p
    return .function (← r.require "name" name) (← r.require "parameters" parameters)
      (← r.require "value" value)
  | other => throw (.unknownTag other Definition.tags)
termination_by sizeOf j

/-- A field or parameter with its expression. -/
def Expr.fieldOfJson (j : Json) : Except ReadFault (Field Expr) := do
  let r ← j.record
  let name ← r.read? 0 "name" fun p => p.val.text
  let type ← r.read? 1 "type" fun ⟨p, _⟩ => Expr.ofJson p
  return ⟨← r.require "name" name, ← r.require "type" type⟩
termination_by sizeOf j

/-- A case of a match. -/
def Expr.armOfJson (j : Json) : Except ReadFault (Arm Expr) := do
  let r ← j.record
  let pattern ← r.read? 0 "pattern" fun ⟨p, _⟩ => Expr.ofJson p
  let binding ← r.read? 1 "binding" fun p => p.val.optionalText
  let result ← r.read? 2 "to" fun ⟨p, _⟩ => Expr.ofJson p
  return ⟨← r.require "pattern" pattern, binding.join, ← r.require "to" result⟩
termination_by sizeOf j

end

end TypeGraph
