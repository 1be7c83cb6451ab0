/-
# Powers

Powers of natural numbers, with the few laws that exact number texts need.  They have a name of
their own because `base ^ n` means another function where algebra is imported (`Monoid.npow`), and
what is stated here has to mean the same everywhere.
-/

namespace TypeGraph

/-- The product of `n` copies of `base`. -/
def power (base n : Nat) : Nat := Nat.pow base n

theorem power_zero (base : Nat) : power base 0 = 1 := rfl

theorem power_succ (base n : Nat) : power base (n + 1) = base * power base n :=
  Nat.mul_comm ..

theorem power_add (base m n : Nat) : power base (m + n) = power base m * power base n :=
  Nat.pow_add base m n

theorem mul_power (a b n : Nat) : power (a * b) n = power a n * power b n := Nat.mul_pow a b n

theorem power_pos {base : Nat} (h : 0 < base) (n : Nat) : 0 < power base n := Nat.pow_pos h

end TypeGraph
