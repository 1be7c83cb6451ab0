/-
# Doubles

The numbers of 64-bit binary floating point, as exact values.  A double is NaN or a sign with a
magnitude.  The magnitudes, from zero to infinity, are numbered in ascending order by their rank,
so every comparison of doubles is a comparison of integers.  A finite magnitude is a whole number
of units of 2^-1074, the spacing of the smallest doubles; `Magnitude.units` counts them.
-/
import TypeGraph.Number.Power

namespace TypeGraph

/-- The binary places of the smallest positive double. -/
@[irreducible]
def unitPlaces : Nat := 1074

/-- How many units of the smallest positive double make one. -/
def unitsPerOne : Nat := power 2 unitPlaces

theorem unitsPerOne_pos : 0 < unitsPerOne := power_pos Nat.two_pos _

/-- The rank of infinity: 2047 exponents of 2^52 ranks each lie below it. -/
abbrev infinityRank : Nat := 0x7ff0000000000000

/-- How many ranks share a spacing: 2^52. -/
abbrev binade : Nat := 0x10000000000000

/-- A magnitude of a double, named by its place in the ascending list of all of them. -/
@[ext]
structure Magnitude where
  rank : Nat
  rank_le : rank ≤ infinityRank
deriving DecidableEq

namespace Magnitude

/-- The magnitude above all finite ones. -/
def infinity : Magnitude := ⟨infinityRank, Nat.le_refl _⟩

def zero : Magnitude := ⟨0, Nat.zero_le _⟩

/-- The magnitude of a given rank; ranks past the last mean infinity. -/
def ofRank (rank : Nat) : Magnitude := ⟨min rank infinityRank, Nat.min_le_right ..⟩

def isFinite (m : Magnitude) : Bool := m.rank < infinityRank

/-- The power of two by which the significand is scaled up, counted from the smallest spacing. -/
def shift (m : Magnitude) : Nat := m.rank / binade - 1

/-- The significand: at most 53 binary digits, all 53 of them unless the spacing is the smallest. -/
def significand (m : Magnitude) : Nat := m.rank - m.shift * binade

/-- The exact value of a finite magnitude, in units of 2^-1074. -/
def units (m : Magnitude) : Nat := m.significand * power 2 m.shift

/-- Whether a finite magnitude is a whole number. -/
def isWhole (m : Magnitude) : Bool := m.units % unitsPerOne == 0

/-- All 53 digits of the significand are used unless the spacing is the smallest. -/
theorem significand_bounds (m : Magnitude) :
    (m.shift = 0 ∨ binade ≤ m.significand) ∧ m.significand < 2 * binade := by
  unfold significand shift binade
  omega

/-- A rank is a shift and a significand. -/
theorem rank_eq (m : Magnitude) : m.shift * binade + m.significand = m.rank := by
  unfold significand shift binade
  omega

/-- The leading binary digit of the units tells the shift. -/
theorem log2_units (m : Magnitude) : m.units.log2 - 52 = m.shift := by
  obtain ⟨hlow, hlt⟩ := m.significand_bounds
  by_cases h0 : m.significand = 0
  · have hs : m.shift = 0 := by omega
    rw [units, h0, hs, Nat.zero_mul]
    rfl
  have hp : 0 < power 2 m.shift := power_pos Nat.two_pos _
  have hu : m.units ≠ 0 := Nat.mul_ne_zero h0 (Nat.ne_of_gt hp)
  have hup : m.units < power 2 (53 + m.shift) := by
    rw [units, power_add]
    exact Nat.mul_lt_mul_of_pos_right hlt hp
  have h1 := (Nat.log2_lt hu).2 hup
  rcases hlow with hs | hle
  · omega
  · have hdown : power 2 (52 + m.shift) ≤ m.units := by
      rw [units, power_add]
      exact Nat.mul_le_mul_right _ hle
    have h2 := (Nat.le_log2 hu).2 hdown
    omega

end Magnitude

/-- A double. -/
inductive Binary64 where
  | nan
  | signed (negative : Bool) (magnitude : Magnitude)
deriving DecidableEq

namespace Binary64

def zero : Binary64 := .signed false .zero
def infinity : Binary64 := .signed false .infinity
def negInfinity : Binary64 := .signed true .infinity

instance : Inhabited Binary64 := ⟨zero⟩

/-- Where a signed magnitude stands on the number line, counted in doubles from zero.  Both zeros
stand at `0`. -/
def place (negative : Bool) (m : Magnitude) : Int :=
  if negative then -(m.rank : Int) else m.rank

/-- The same number: the zeros agree, and NaN agrees with nothing. -/
def sameNumber : Binary64 → Binary64 → Bool
  | .signed s a, .signed t b => place s a == place t b
  | _, _ => false

/-- Less than or equal as numbers; NaN is not comparable. -/
def atMost : Binary64 → Binary64 → Bool
  | .signed s a, .signed t b => place s a ≤ place t b
  | _, _ => false

def isInfinite : Binary64 → Bool
  | .nan => false
  | .signed _ m => !m.isFinite

/-- A finite number without a fraction. -/
def isWhole : Binary64 → Bool
  | .nan => false
  | .signed _ m => m.isFinite && m.isWhole

/-- The one spelling of a number: both zeros become the positive one.  NaN is no number. -/
def normalize : Binary64 → Option Binary64
  | .nan => none
  | .signed s m => some (if m.rank = 0 then zero else .signed s m)

end Binary64
end TypeGraph
