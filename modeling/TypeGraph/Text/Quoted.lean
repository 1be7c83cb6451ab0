/-
# Quoted text

Text between double quotes, with an escape for each character that would end the text, look like
an escape, or not be seen.  Names that are plain identifiers need no quotes.
-/
import TypeGraph.Text.Invisible

namespace TypeGraph.Text

/-- The code point of a character in lower-case hexadecimal, between braces. -/
def codeEscape (c : Char) : List Char :=
  '\\' :: 'u' :: '\x7b' :: Nat.toDigits 16 c.toNat ++ ['\x7d']

/-- Whether a character has no escape of its own and still must not be written as it is. -/
def needsCode (c : Char) : Bool :=
  c.toNat < 0x20 || c.toNat == 0x7f || isInvisible c

/-- A character as it stands between the quotes. -/
def quotedChar (c : Char) : List Char :=
  if c = '\x00' then ['\\', '0']
  else if c = '\t' then ['\\', 't']
  else if c = '\n' then ['\\', 'n']
  else if c = '\r' then ['\\', 'r']
  else if c = '"' then ['\\', '"']
  else if c = '\\' then ['\\', '\\']
  else if needsCode c then codeEscape c
  else [c]

/-- A text in quotes. -/
def quoted (s : String) : String :=
  String.ofList ('"' :: s.toList.flatMap quotedChar ++ ['"'])

/-- Whether a list of characters is a letter or underscore followed by letters, digits and
underscores, all of them ASCII. -/
def isIdentifierChars : List Char → Bool
  | [] => false
  | c :: rest => (c.isAlpha || c == '_') && rest.all fun d => d.isAlphanum || d == '_'

/-- Whether a name can stand without quotes. -/
def isIdentifier (name : String) : Bool := isIdentifierChars name.toList

/-- A name as it is written: plain if it is an identifier, in quotes otherwise. -/
def label (name : String) : String :=
  if isIdentifier name then name else quoted name

end TypeGraph.Text
