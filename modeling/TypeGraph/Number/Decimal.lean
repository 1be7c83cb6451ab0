/-
# Decimals and the doubles nearest to them

A decimal is a natural number times a power of ten.  `Magnitude.ofDecimal` rounds it to the
nearest double, a tie going to the double of even rank.  Main statements: a double is the nearest
to its own exact value (`ofRatio_units`), and trailing zeros do not matter (`ofDecimal_trim`).
-/
import TypeGraph.Number.Binary64

namespace TypeGraph

/-- The number `digits * 10 ^ exponent`. -/
structure Decimal where
  digits : Nat
  exponent : Int
deriving DecidableEq

namespace Decimal

/-- The same number without trailing zeros among its digits. -/
def trim (d : Decimal) : Decimal :=
  if d.digits ≠ 0 ∧ d.digits % 10 = 0 then trim ⟨d.digits / 10, d.exponent + 1⟩ else d
termination_by d.digits
decreasing_by grind

end Decimal

/-- The quotient rounded to the nearest integer, a half going to the even neighbour. -/
def roundHalfEven (num den : Nat) : Nat :=
  let q := num / den
  let r := num % den
  if 2 * r < den then q
  else if den < 2 * r then q + 1
  else q + q % 2

theorem roundHalfEven_mul_left {k : Nat} (hk : 0 < k) (num den : Nat) :
    roundHalfEven (k * num) (k * den) = roundHalfEven num den := by
  simp only [roundHalfEven, Nat.mul_div_mul_left _ _ hk, Nat.mul_mod_mul_left,
    Nat.mul_left_comm 2 k, Nat.mul_lt_mul_left hk]

theorem roundHalfEven_exact {den : Nat} (hd : 0 < den) (q : Nat) :
    roundHalfEven (den * q) den = q := by
  simp only [roundHalfEven, Nat.mul_div_cancel_left _ hd, Nat.mul_mod_right, Nat.mul_zero, hd,
    if_true]

namespace Magnitude

/-- The magnitude nearest to `num / den`.  The quotient is scaled to units of 2^-1074, its leading
binary digits fix how far the 53-digit significand is shifted, and the significand is the quotient
by that scale, rounded once.  A significand that rounds up to 2^53 is the next rank, as it should
be. -/
def ofRatio (num den : Nat) : Magnitude :=
  let scaled := num * unitsPerOne
  let shift := (scaled / den).log2 - 52
  ofRank (shift * binade + roundHalfEven scaled (den * power 2 shift))

/-- The magnitude nearest to a decimal. -/
def ofDecimal (d : Decimal) : Magnitude :=
  match d.exponent with
  | .ofNat e => ofRatio (d.digits * power 10 e) 1
  | .negSucc e => ofRatio d.digits (power 10 (e + 1))

/-! ## Reading exact values -/

theorem ofRatio_mul_left {k : Nat} (hk : 0 < k) (num den : Nat) :
    ofRatio (k * num) (k * den) = ofRatio num den := by
  simp only [ofRatio, Nat.mul_assoc, Nat.mul_div_mul_left _ _ hk, roundHalfEven_mul_left hk]

/-- A double is the nearest to its exact value. -/
theorem ofRatio_units (m : Magnitude) : ofRatio m.units unitsPerOne = m := by
  have hp : 0 < unitsPerOne * power 2 m.shift :=
    Nat.mul_pos unitsPerOne_pos (power_pos Nat.two_pos _)
  have he : m.units * unitsPerOne = unitsPerOne * power 2 m.shift * m.significand := by
    rw [units, Nat.mul_comm, Nat.mul_comm m.significand, Nat.mul_assoc]
  have hr : ofRatio m.units unitsPerOne = ofRank m.rank := by
    simp only [ofRatio]
    rw [Nat.mul_div_cancel _ unitsPerOne_pos, log2_units, he, roundHalfEven_exact hp, rank_eq]
  rw [hr]
  exact Magnitude.ext (Nat.min_eq_left m.rank_le)

theorem ofDecimal_neg (digits places : Nat) :
    ofDecimal ⟨digits, -(places : Int)⟩ = ofRatio digits (power 10 places) := by
  cases places with
  | zero =>
    show ofRatio (digits * power 10 0) 1 = ofRatio digits (power 10 0)
    rw [power_zero, Nat.mul_one]
  | succ n => rfl

/-- A zero behind the digits is a place more. -/
theorem ofDecimal_mul_ten (digits : Nat) (e : Int) :
    ofDecimal ⟨digits * 10, e⟩ = ofDecimal ⟨digits, e + 1⟩ := by
  match e with
  | .ofNat n =>
    show ofRatio (digits * 10 * power 10 n) 1 = ofRatio (digits * power 10 (n + 1)) 1
    rw [power_succ, Nat.mul_assoc]
  | .negSucc 0 =>
    show ofRatio (digits * 10) (power 10 1) = ofRatio (digits * power 10 0) 1
    rw [Nat.mul_comm digits, power_succ, power_zero, Nat.mul_one digits]
    exact ofRatio_mul_left (by decide) digits 1
  | .negSucc (n + 1) =>
    show ofRatio (digits * 10) (power 10 (n + 1 + 1)) = ofRatio digits (power 10 (n + 1))
    rw [Nat.mul_comm digits, power_succ 10 (n + 1)]
    exact ofRatio_mul_left (by decide) _ _

/-- Trailing zeros do not matter. -/
theorem ofDecimal_trim (d : Decimal) : ofDecimal d.trim = ofDecimal d := by
  fun_induction Decimal.trim d with
  | case1 d h ih =>
    rw [ih, ← ofDecimal_mul_ten, Nat.div_mul_cancel (Nat.dvd_of_mod_eq_zero h.2)]
  | case2 d h => rfl

end Magnitude

/-- The double nearest to a decimal with a sign. -/
def Binary64.ofDecimal (negative : Bool) (d : Decimal) : Binary64 :=
  .signed negative (.ofDecimal d)

end TypeGraph
