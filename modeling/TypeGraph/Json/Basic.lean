/-
# Documents

The values of JSON, with doubles for numbers and members in order, and their compact text.
-/
import TypeGraph.Number.Layout

namespace TypeGraph

/-- A JSON value. -/
inductive Json where
  | null
  | bool (b : Bool)
  | num (x : Binary64)
  | str (s : String)
  | arr (elements : List Json)
  | obj (members : List (String × Json))

namespace Json

instance : Inhabited Json := ⟨.null⟩

/-! ## Text -/

/-- Numbers in documents: positional for leading digits from 10^-5 to 10^15, with a fraction digit
for whole numbers, and a half goes to the even digit. -/
def numbers : NumberLayout := ⟨.toEven, some (-5, 15), ['.', '0']⟩

/-- A number; JSON has no infinity and no NaN, which become null. -/
def numberText (x : Binary64) : String :=
  match x with
  | .nan => "null"
  | .signed _ m => if m.isFinite then numbers.write x else "null"

/-- A character within a string. -/
def escapedChar (c : Char) : List Char :=
  if c = '"' then ['\\', '"']
  else if c = '\\' then ['\\', '\\']
  else if c = '\x08' then ['\\', 'b']
  else if c = '\x0c' then ['\\', 'f']
  else if c = '\n' then ['\\', 'n']
  else if c = '\r' then ['\\', 'r']
  else if c = '\t' then ['\\', 't']
  else if c.toNat < 0x20 then
    ['\\', 'u', '0', '0', Nat.digitChar (c.toNat / 16), Nat.digitChar (c.toNat % 16)]
  else [c]

/-- A string in quotes. -/
def stringText (s : String) : String :=
  String.ofList ('"' :: s.toList.flatMap escapedChar ++ ['"'])

mutual

/-- The compact text of a document: no blanks, members in order. -/
def render : Json → String
  | .null => "null"
  | .bool true => "true"
  | .bool false => "false"
  | .num x => numberText x
  | .str s => stringText s
  | .arr elements => "[" ++ ",".intercalate (renderElements elements) ++ "]"
  | .obj members => "\x7b" ++ ",".intercalate (renderMembers members) ++ "\x7d"

/-- The texts of the elements of an array. -/
def renderElements : List Json → List String
  | [] => []
  | j :: rest => j.render :: renderElements rest

/-- The texts of the members of an object. -/
def renderMembers : List (String × Json) → List String
  | [] => []
  | (key, j) :: rest => (stringText key ++ ":" ++ j.render) :: renderMembers rest

end

end Json
end TypeGraph
