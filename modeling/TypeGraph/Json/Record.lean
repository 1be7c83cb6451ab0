/-
# Records in documents

A record is written as an object, its parts under their keys, or as an array, its parts in
declared order.  A tagged record carries its tag under the key `type`, or as the first element.
Reading a record looks at its parts in declared order: a fault inside a part that is there comes
before the fault of a part that is not.
-/
import TypeGraph.Json.Basic
import TypeGraph.Fault

namespace TypeGraph

namespace Json

/-- A document inside another one. -/
abbrev Part (j : Json) := { p : Json // sizeOf p < sizeOf j }

/-- The elements of an array, as parts. -/
def elementParts (elements : List Json) : List (Part (.arr elements)) :=
  elements.attach.map fun ⟨p, h⟩ => ⟨p, by
    have := List.sizeOf_lt_of_mem h
    simp only [arr.sizeOf_spec]
    omega⟩

/-- The members of an object, as parts under their keys. -/
def memberParts (members : List (String × Json)) : List (String × Part (.obj members)) :=
  members.attach.map fun ⟨(key, p), h⟩ => (key, ⟨p, by
    have := List.sizeOf_lt_of_mem h
    simp only [Prod.mk.sizeOf_spec] at this
    simp only [obj.sizeOf_spec]
    omega⟩)

theorem elementParts_map_val (elements : List Json) :
    (elementParts elements).map Subtype.val = elements := by
  rw [elementParts, List.map_map]
  exact List.attach_map_subtype_val elements

theorem memberParts_map_val (members : List (String × Json)) :
    (memberParts members).map (fun m => (m.1, m.2.val)) = members := by
  rw [memberParts, List.map_map]
  exact List.attach_map_subtype_val members

/-- The elements of an array; nothing else has elements. -/
def elements : (j : Json) → Except ReadFault (List (Part j))
  | .arr es => .ok (elementParts es)
  | _ => .error .wrongKind

/-- The characters of a string. -/
def text : Json → Except ReadFault String
  | .str s => .ok s
  | _ => .error .wrongKind

/-- A string that may be left out by writing null. -/
def optionalText : Json → Except ReadFault (Option String)
  | .null => .ok none
  | .str s => .ok (some s)
  | _ => .error .wrongKind

/-- A number that may be left out by writing null. -/
def optionalNumber : Json → Except ReadFault (Option Binary64)
  | .null => .ok none
  | .num x => .ok (some x)
  | _ => .error .wrongKind

end Json

/-- The parts of a record within a document. -/
inductive Record (j : Json) where
  /-- An object: parts under keys. -/
  | keyed (members : List (String × Json.Part j))
  /-- An array: parts in declared order. -/
  | positional (elements : List (Json.Part j))

namespace Record

variable {j : Json} {α : Type}

/-- The part declared under a key and at a position. -/
def get? (r : Record j) (position : Nat) (key : String) : Option (Json.Part j) :=
  match r with
  | .keyed members => members.lookup key
  | .positional elements => elements[position]?

/-- The fault of a required part that is not there. -/
def absent (r : Record j) (key : String) : ReadFault :=
  match r with
  | .keyed _ => .missing key
  | .positional _ => .tooShort

/-- Reads a part if it is there. -/
def read? (r : Record j) (position : Nat) (key : String)
    (read : Json.Part j → Except ReadFault α) : Except ReadFault (Option α) :=
  match r.get? position key with
  | none => .ok none
  | some part => (read part).map some

/-- Insists on a required part. -/
def require (r : Record j) (key : String) : Option α → Except ReadFault α
  | some a => .ok a
  | none => .error (r.absent key)

end Record

namespace Json

/-- The record that a document writes. -/
def record : (j : Json) → Except ReadFault (Record j)
  | .obj members => .ok (.keyed (memberParts members))
  | .arr elements => .ok (.positional (elementParts elements))
  | _ => .error .wrongKind

/-- The tag and the record that a document writes. -/
def tagged : (j : Json) → Except ReadFault (String × Record j)
  | .obj members =>
    match members.lookup "type" with
    | none => .error (.missing "type")
    | some (.str tag) => .ok (tag, .keyed (memberParts members))
    | some _ => .error .wrongKind
  | .arr [] => .error (.missing "type")
  | .arr (.str tag :: rest) => .ok (tag, .positional (elementParts (.str tag :: rest)).tail)
  | .arr (_ :: _) => .error .wrongKind
  | _ => .error .wrongKind

end Json
end TypeGraph
