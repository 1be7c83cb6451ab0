/-
# Number texts

A number is written with its shortest digits, positionally or with a power of ten.  What a format
decides for itself is one `NumberLayout`: which way ties go, how far the positional form reaches,
and what follows a whole number.
-/
import TypeGraph.Number.Shortest

namespace TypeGraph

/-- The decisions of a format about its numbers. -/
structure NumberLayout where
  /-- Which of two shortest decimals is written when they are equally near. -/
  tie : Tie
  /-- The least and greatest power of ten of a leading digit in the positional form; `none` means
  that the positional form is always taken. -/
  positional : Option (Int × Int)
  /-- What follows a whole number in the positional form. -/
  wholeSuffix : List Char

namespace NumberLayout

/-- The power of ten of the leading digit. -/
def leadingPower (digits : List Char) (exponent : Int) : Int :=
  exponent + digits.length - 1

/-- The digits with the point in its place and zeros as needed. -/
def positionalText (layout : NumberLayout) (digits : List Char) (exponent : Int) : List Char :=
  match exponent with
  | .ofNat e => digits ++ List.replicate e '0' ++ layout.wholeSuffix
  | .negSucc e =>
    let places := e + 1
    if places < digits.length then
      digits.take (digits.length - places) ++ '.' :: digits.drop (digits.length - places)
    else
      '0' :: '.' :: List.replicate (places - digits.length) '0' ++ digits

/-- A sign and the digits of an exponent. -/
def powerText : Int → List Char
  | .ofNat e => '+' :: Nat.toDigits 10 e
  | .negSucc e => '-' :: Nat.toDigits 10 (e + 1)

/-- One digit, the point if more follow, and the power of ten. -/
def scientificText (digits : List Char) (exponent : Int) : List Char :=
  let fraction := if digits.length ≤ 1 then [] else '.' :: digits.drop 1
  digits.take 1 ++ fraction ++ 'e' :: powerText (leadingPower digits exponent)

/-- The text of a decimal. -/
def decimalText (layout : NumberLayout) (d : Decimal) : List Char :=
  let digits := Nat.toDigits 10 d.digits
  let power := leadingPower digits d.exponent
  match layout.positional with
  | none => layout.positionalText digits d.exponent
  | some (least, greatest) =>
    if least ≤ power ∧ power ≤ greatest then layout.positionalText digits d.exponent
    else scientificText digits d.exponent

/-- The text of a magnitude. -/
def magnitudeText (layout : NumberLayout) (m : Magnitude) : List Char :=
  if m.isFinite then
    layout.decimalText (if m.rank = 0 then ⟨0, 0⟩ else m.shortest layout.tie)
  else ['i', 'n', 'f']

/-- The text of a double. -/
def write (layout : NumberLayout) : Binary64 → String
  | .nan => "NaN"
  | .signed false m => String.ofList (layout.magnitudeText m)
  | .signed true m => String.ofList ('-' :: layout.magnitudeText m)

end NumberLayout

/-- Numbers in keys and messages: always positional, nothing after a whole number, and a half goes
up. -/
def plainNumbers : NumberLayout := ⟨.up, none, []⟩

/-- The text of a number in keys and messages. -/
def Binary64.text (x : Binary64) : String := plainNumbers.write x

end TypeGraph
