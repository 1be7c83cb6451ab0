/-
# Number types

All numbers, exactly one, an interval, or the integers of an interval.  Bounds are stored in
their one spelling and the lower bound is strictly below the upper one, so that a single number
is always a literal.
-/
import TypeGraph.Fault

namespace TypeGraph

/-- A type of numbers. -/
inductive NumberType where
  /-- Every number. -/
  | all
  /-- Exactly one number. -/
  | literal (value : Binary64)
  /-- Every number from `min` to `max`. -/
  | interval (min max : Binary64)
  /-- Every integer from `min` to `max`. -/
  | intInterval (min max : Binary64)
deriving DecidableEq

namespace NumberType

/-- The canonical text of a number type. -/
def key : NumberType → String
  | .all => "number"
  | .literal v => v.text
  | .interval min max => min.text ++ ".." ++ max.text
  | .intInterval min max => "int(" ++ min.text ++ ".." ++ max.text ++ ")"

/-! ## Checked construction -/

/-- A number in its one spelling. -/
def spelled (x : Binary64) : Except BoundsFault Binary64 :=
  match x.normalize with
  | some y => .ok y
  | none => .error .notANumber

/-- Two numbers in their one spelling, the first strictly below the second. -/
def strictBounds (min max : Binary64) : Except BoundsFault (Binary64 × Binary64) := do
  let min ← spelled min
  let max ← spelled max
  if max.atMost min then throw (.reversed min max)
  return (min, max)

/-- A bound of an integer interval: infinite, or without a fraction. -/
def isIntBound (x : Binary64) : Bool := x.isInfinite || x.isWhole

/-- Exactly the number `x`. -/
def ofValue (x : Binary64) : Except BoundsFault NumberType := do
  return .literal (← spelled x)

/-- The interval from `min` up to a greater `max`. -/
def ofBounds (min max : Binary64) : Except BoundsFault NumberType := do
  let (min, max) ← strictBounds min max
  return .interval min max

/-- The integers from `min` up to a greater `max`. -/
def ofIntBounds (min max : Binary64) : Except BoundsFault NumberType := do
  let (min, max) ← strictBounds min max
  if isIntBound min && isIntBound max then return .intInterval min max
  else throw (.fractional min max)

/-! ## Construction from promised bounds -/

/-- A fault in bounds that were promised to be well formed is a breach. -/
def promised : Except BoundsFault NumberType → Except Breach NumberType
  | .ok n => .ok n
  | .error fault => .error (.bounds fault)

/-- Exactly the number `x`, which is not NaN. -/
def exactly (x : Binary64) : Except Breach NumberType := promised (ofValue x)

/-- The numbers from `min` to a greater `max`. -/
def strictlyBetween (min max : Binary64) : Except Breach NumberType := promised (ofBounds min max)

/-- The integers from `min` to a greater `max`. -/
def intsStrictlyBetween (min max : Binary64) : Except Breach NumberType :=
  promised (ofIntBounds min max)

/-- The numbers from `min` to `max`; a single one is a literal. -/
def between (min max : Binary64) : Except Breach NumberType :=
  if min.sameNumber max then exactly min else strictlyBetween min max

/-- The integers from `min` to `max`; bounds that meet make a literal. -/
def intsBetween (min max : Binary64) : Except Breach NumberType :=
  if min.sameNumber max then exactly min else intsStrictlyBetween min max

end NumberType
end TypeGraph
