/-
# The fewest digits that read back

`Magnitude.shortest` gives a finite magnitude as a decimal with the fewest digits whose nearest
double is that magnitude, and among those the one nearest to it.  For each count of digits only
two decimals can do: the exact expansion cut after that many digits, and the next one up.
Reading the candidate back is the test, so whatever comes out reads back: `ofDecimal_shortest`.
-/
import TypeGraph.Number.Decimal

namespace TypeGraph

/-- Which way a decimal goes that lies halfway between two candidates. -/
inductive Tie where
  | up
  | toEven
deriving DecidableEq

namespace Magnitude

/-- How many decimal places the exact expansion of a finite magnitude is given: as many as there
are binary places in the unit of its significand. -/
def places (m : Magnitude) : Nat := unitPlaces - m.shift

/-- All digits of a finite magnitude, down to the last of its places. -/
def expansion (m : Magnitude) : Nat :=
  m.significand * power 2 (m.shift - unitPlaces) * power 5 m.places

/-- The exact decimal of a finite magnitude. -/
def exactDecimal (m : Magnitude) : Decimal := ⟨m.expansion, -(m.places : Int)⟩

/-- Whether the cut-off part `rest` of a grid step `step` calls for the upper neighbour of `low`. -/
def roundsUp (tie : Tie) (low rest step : Nat) : Bool :=
  step < 2 * rest || (step == 2 * rest && (tie == .up || low % 2 == 1))

/-- The decimal that reads back as `m` and ends `dropped` digits before the end of the expansion, if
there is one; of two, the one nearer to `m`. -/
def candidate? (tie : Tie) (m : Magnitude) (dropped : Nat) : Option Decimal :=
  let step := power 10 dropped
  let low := m.expansion / step
  let exponent : Int := dropped - m.places
  let lower : Decimal := ⟨low, exponent⟩
  let upper : Decimal := ⟨low + 1, exponent⟩
  if ofDecimal lower = m then
    if ofDecimal upper = m ∧ roundsUp tie low (m.expansion % step) step then some upper
    else some lower
  else if ofDecimal upper = m then some upper
  else none

/-- The shortest decimal that reads back as the finite magnitude `m`.  Seventeen digits always
do; the exact decimal stands behind them so that the result reads back without that fact. -/
def shortest (tie : Tie) (m : Magnitude) : Decimal :=
  let length := (Nat.toDigits 10 m.expansion).length
  let found := (List.range 17).findSome? fun i => m.candidate? tie (length - (i + 1))
  (found.getD m.exactDecimal).trim

/-! ## Reading back -/

/-- Cleared of powers of two and ten, the expansion is the exact value. -/
theorem expansion_mul (m : Magnitude) :
    m.expansion * unitsPerOne = m.units * power 10 m.places := by
  have h2 : power 2 (m.shift - unitPlaces) * power 2 unitPlaces
      = power 2 m.shift * power 2 m.places := by
    rw [← power_add, ← power_add]
    congr 1
    unfold places
    omega
  have h10 : power 10 m.places = power 2 m.places * power 5 m.places := mul_power 2 5 _
  unfold expansion units unitsPerOne
  calc m.significand * power 2 (m.shift - unitPlaces) * power 5 m.places * power 2 unitPlaces
      = m.significand * (power 2 (m.shift - unitPlaces) * power 2 unitPlaces)
          * power 5 m.places := by ac_rfl
    _ = m.significand * power 2 m.shift * (power 2 m.places * power 5 m.places) := by
          rw [h2]; ac_rfl
    _ = m.significand * power 2 m.shift * power 10 m.places := by rw [h10]

theorem ofDecimal_exactDecimal (m : Magnitude) : ofDecimal m.exactDecimal = m := by
  have h10 : 0 < power 10 m.places := power_pos (by decide) _
  rw [exactDecimal, ofDecimal_neg, ← ofRatio_mul_left unitsPerOne_pos, Nat.mul_comm, expansion_mul,
    Nat.mul_comm m.units, Nat.mul_comm unitsPerOne, ofRatio_mul_left h10, ofRatio_units]

theorem ofDecimal_candidate? {tie : Tie} {m : Magnitude} {dropped : Nat} {d : Decimal}
    (h : m.candidate? tie dropped = some d) : ofDecimal d = m := by
  unfold candidate? at h
  simp only at h
  split at h
  · split at h <;> simp_all
  · split at h <;> simp_all

/-- The shortest decimal of a magnitude reads back. -/
theorem ofDecimal_shortest (tie : Tie) (m : Magnitude) : ofDecimal (m.shortest tie) = m := by
  simp only [shortest]
  rw [ofDecimal_trim]
  cases h : (List.range 17).findSome? _ with
  | none => exact m.ofDecimal_exactDecimal
  | some d =>
    obtain ⟨i, _, hi⟩ := List.exists_of_findSome?_eq_some h
    exact ofDecimal_candidate? hi

end Magnitude
end TypeGraph
