/-
# Types in documents

A type is written as a tagged record.  An infinite bound is written as null and an infinite
literal as a string, since documents have no infinity.  Reading goes through the description:
first the whole document is read, then the type is built.
-/
import TypeGraph.Ty.Description
import TypeGraph.Json.Record

namespace TypeGraph
namespace Description

/-! ## Writing -/

/-- The number of a literal. -/
def literalDocument (x : Binary64) : Json :=
  if x = .infinity then .str "inf"
  else if x = .negInfinity then .str "-inf"
  else .num x

/-- A bound, null if it is open. -/
def boundDocument : Option Binary64 → Json
  | none => .null
  | some x => .num x

mutual

/-- A description as a document. -/
def toJson : Description → Json
  | .never => .obj [("type", .str "never")]
  | .any => .obj [("type", .str "any")]
  | .number => .obj [("type", .str "number")]
  | .string => .obj [("type", .str "string")]
  | .numberLiteral v => .obj [("type", .str "number-literal"), ("value", literalDocument v)]
  | .stringLiteral s => .obj [("type", .str "string-literal"), ("value", .str s)]
  | .interval min max =>
    .obj [("type", .str "interval"), ("min", boundDocument min), ("max", boundDocument max)]
  | .intInterval min max =>
    .obj [("type", .str "int-interval"), ("min", boundDocument min), ("max", boundDocument max)]
  | .struct name fields =>
    .obj [("type", .str "struct"), ("name", .str name), ("fields", .arr (fieldsToJson fields))]
  | .union items => .obj [("type", .str "union"), ("items", .arr (itemsToJson items))]

def fieldsToJson : List (Field Description) → List Json
  | [] => []
  | ⟨name, d⟩ :: rest => .obj [("name", .str name), ("type", d.toJson)] :: fieldsToJson rest

def itemsToJson : List Description → List Json
  | [] => []
  | d :: rest => d.toJson :: itemsToJson rest

end

/-! ## Reading -/

/-- The tags of types. -/
def tags : List String :=
  ["never", "any", "number", "string", "number-literal", "string-literal", "interval",
   "int-interval", "struct", "union"]

/-- A word for an infinity. -/
def infinityWord : String → Except ReadFault Binary64
  | "inf" => .ok .infinity
  | "-inf" => .ok .negInfinity
  | _ => .error .noNumber

/-- The number of a literal: a number, a word for an infinity, or an object with nothing but such a
word as the key of null. -/
def literalNumber : Json → Except ReadFault Binary64
  | .num x => .ok x
  | .str word => infinityWord word
  | .obj [(word, .null)] => infinityWord word
  | _ => .error .noNumber

/-- The two bounds of an interval, open if they are left out. -/
def readBounds {j : Json} (r : Record j) :
    Except ReadFault (Option Binary64 × Option Binary64) := do
  let min ← r.read? 0 "min" fun p => p.val.optionalNumber
  let max ← r.read? 1 "max" fun p => p.val.optionalNumber
  return (min.join, max.join)

mutual

/-- The description that a document writes. -/
def ofJson (j : Json) : Except ReadFault Description := do
  let (tag, r) ← j.tagged
  match tag with
  | "never" => return .never
  | "any" => return .any
  | "number" => return .number
  | "string" => return .string
  | "number-literal" =>
    let value ← r.read? 0 "value" fun p => literalNumber p.val
    return .numberLiteral (← r.require "value" value)
  | "string-literal" =>
    let value ← r.read? 0 "value" fun p => p.val.text
    return .stringLiteral (← r.require "value" value)
  | "interval" =>
    let (min, max) ← readBounds r
    return .interval min max
  | "int-interval" =>
    let (min, max) ← readBounds r
    return .intInterval min max
  | "struct" =>
    let name ← r.read? 0 "name" fun p => p.val.text
    let fields ← r.read? 1 "fields" fun ⟨p, _⟩ => do
      (← p.elements).mapM fun ⟨f, _⟩ => fieldOfJson f
    return .struct (← r.require "name" name) (fields.getD [])
  | "union" =>
    let items ← r.read? 0 "items" fun ⟨p, _⟩ => do
      (← p.elements).mapM fun ⟨i, _⟩ => ofJson i
    return .union (← r.require "items" items)
  | other => throw (.unknownTag other tags)
termination_by sizeOf j

/-- A field with its description. -/
def fieldOfJson (j : Json) : Except ReadFault (Field Description) := do
  let r ← j.record
  let name ← r.read? 0 "name" fun p => p.val.text
  let type ← r.read? 1 "type" fun ⟨p, _⟩ => ofJson p
  return ⟨← r.require "name" name, ← r.require "type" type⟩
termination_by sizeOf j

end

end Description

namespace Ty

/-- A type as a document. -/
def toJson (t : Ty) : Json := t.describe.toJson

/-- The type that a document writes. -/
def ofJson (j : Json) : Except ReadFault Ty := do
  match (← Description.ofJson j).build with
  | .ok t => return t
  | .error fault => throw (.bounds fault)

end Ty
end TypeGraph
