/-
# Number types between bounds

A caller that promises good bounds gets a number type or a stop.  For the integers between two
bounds the promise reads: neither is NaN, they are not reversed, and a finite bound is an integer
(`RefusedInts`).  Bounds that meet make a literal, and that case is decided first, on the order of
the bounds alone.  So the test for integers is made for bounds that differ
(`intsBetween_of_apart`) and never for bounds that meet (`intsBetween_of_met`).

`KeepsIntPromise` is the whole promise for one pair of bounds.  It is kept exactly where bounds that
meet are integers or infinite (`intsBetween_keepsPromise_iff`): one half to one half is not refused.
-/
import TypeGraph.Proofs.Ty.Faults

namespace TypeGraph

/-! ## The order of doubles -/

namespace Binary64

theorem ne_nan_of_sameNumber {x y : Binary64} (h : x.sameNumber y = true) : x ≠ .nan ∧ y ≠ .nan := by
  match x, y, h with
  | .signed _ _, .signed _ _, _ => exact ⟨nofun, nofun⟩

theorem not_below_of_sameNumber {x y : Binary64} (h : x.sameNumber y = true) : ¬ y.Below x := by
  match x, y, h with
  | .signed _ _, .signed _ _, h => exact fun hlt => Int.ne_of_lt hlt (beq_iff_eq.mp h).symm

theorem below_or_below {x y : Binary64} (hx : x ≠ .nan) (hy : y ≠ .nan)
    (h : ¬ x.sameNumber y = true) : x.Below y ∨ y.Below x := by
  match x, y, hx, hy with
  | .signed _ _, .signed _ _, _, _ => exact Int.lt_or_gt_of_ne fun he => h (beq_iff_eq.mpr he)

theorem Below.asymm {x y : Binary64} (h : x.Below y) : ¬ y.Below x := by
  match x, y, h with
  | .signed _ _, .signed _ _, h => exact Int.lt_asymm h

end Binary64

namespace NumberType

variable {min max : Binary64}

/-! ## Both paths of the construction -/

/-- Bounds that the integers between them cannot have. -/
def RefusedInts (min max : Binary64) : Prop :=
  min = .nan ∨ max = .nan ∨ max.Below min ∨ ¬ WholeBounds min max

theorem exactly_eq_ok {x : Binary64} (h : x ≠ .nan) : exactly x = .ok (.literal x.unsignedZero) := by
  rw [exactly, ofValue, spelled_eq, if_neg h]
  rfl

/-- Bounds that meet make a literal, whatever number they are. -/
theorem intsBetween_of_met (h : min.sameNumber max = true) :
    intsBetween min max = .ok (.literal min.unsignedZero) := by
  rw [intsBetween, if_pos h, exactly_eq_ok (Binary64.ne_nan_of_sameNumber h).1]

theorem ofIntBounds_eq_ok (h : ProperBounds min max) (hwhole : WholeBounds min max) :
    ofIntBounds min max = .ok (.intInterval min.unsignedZero max.unsignedZero) := by
  rcases strictBounds_cases min max with ⟨-, hok⟩ | ⟨fault, himproper, -⟩
  · rw [ofIntBounds, hok]
    exact if_pos ((wholeBounds_iff h).mpr hwhole)
  · exact absurd himproper h.not_improper

theorem valid_iff_not_refusedInts (h : ¬ min.sameNumber max = true) :
    (NumberPart.intInterval min max).Valid ↔ ¬ RefusedInts min max := by
  constructor
  · rintro ⟨hproper, hwhole⟩ (hmin | hmax | hreversed | hfraction)
    · exact hproper.min_ne_nan hmin
    · exact hproper.max_ne_nan hmax
    · exact hproper.below.asymm hreversed
    · exact hfraction hwhole
  · intro hnot
    simp only [RefusedInts, not_or, Classical.not_not] at hnot
    obtain ⟨hmin, hmax, hreversed, hwhole⟩ := hnot
    have hbelow := (Binary64.below_or_below hmin hmax h).resolve_right hreversed
    exact ⟨⟨hmin, hmax, hbelow⟩, hwhole⟩

theorem intsBetween_of_apart (h : ¬ min.sameNumber max = true) (hnot : ¬ RefusedInts min max) :
    intsBetween min max = .ok (.intInterval min.unsignedZero max.unsignedZero) := by
  obtain ⟨hproper, hwhole⟩ := (valid_iff_not_refusedInts h).mpr hnot
  rw [intsBetween, if_neg h, intsStrictlyBetween, ofIntBounds_eq_ok hproper hwhole]
  rfl

theorem intsBetween_of_refused (h : ¬ min.sameNumber max = true) (hrefused : RefusedInts min max) :
    ∃ b, intsBetween min max = .error b := by
  rw [intsBetween, if_neg h, intsStrictlyBetween]
  cases hresult : ofIntBounds min max with
  | error fault => exact ⟨.bounds fault, rfl⟩
  | ok n =>
      have hvalid := (checks_ofIntBounds min max).exists_ok_iff.mp ⟨n, hresult⟩
      rw [List.forall_mem_singleton] at hvalid
      exact absurd hrefused ((valid_iff_not_refusedInts h).mp hvalid)

/-! ## The promise -/

/-- What is promised of the integers between two bounds. -/
structure KeepsIntPromise (min max : Binary64) : Prop where
  /-- A stop means bad bounds, and bad bounds mean a stop. -/
  stops_iff : (∃ b, intsBetween min max = .error b) ↔ RefusedInts min max
  /-- Good bounds that meet make a literal. -/
  met : ¬ RefusedInts min max → min.sameNumber max = true →
    intsBetween min max = .ok (.literal min.unsignedZero)
  /-- Other good bounds make an interval of integers. -/
  apart : ¬ RefusedInts min max → min.sameNumber max = false →
    intsBetween min max = .ok (.intInterval min.unsignedZero max.unsignedZero)
  /-- Every number of the result is an integer or infinite. -/
  whole : ∀ n, intsBetween min max = .ok n → ∀ x ∈ (Ty.number n).numbers,
    x.IsInteger ∨ x = .infinity ∨ x = .negInfinity

theorem refusedInts_of_met (h : min.sameNumber max = true) :
    RefusedInts min max ↔ ¬ WholeBounds min max := by
  obtain ⟨hmin, hmax⟩ := Binary64.ne_nan_of_sameNumber h
  have hreversed := Binary64.not_below_of_sameNumber h
  simp only [RefusedInts, hmin, hmax, hreversed, false_or]

theorem isInteger_or_infinite_unsignedZero {x : Binary64} (hx : x ≠ .nan)
    (h : x.IsFinite → x.IsInteger) :
    x.unsignedZero.IsInteger ∨ x.unsignedZero = .infinity ∨ x.unsignedZero = .negInfinity := by
  refine Binary64.isInteger_or_infinite ?_
  rw [Binary64.isIntBound_unsignedZero]
  exact (Binary64.isIntBound_iff hx).mpr h

theorem keepsIntPromise_of_apart (h : ¬ min.sameNumber max = true) : KeepsIntPromise min max where
  stops_iff := by
    refine ⟨fun ⟨b, hb⟩ => ?_, intsBetween_of_refused h⟩
    refine Classical.byContradiction fun hnot => ?_
    rw [intsBetween_of_apart h hnot] at hb
    cases hb
  met := fun _ hmet => absurd hmet h
  apart := fun hnot _ => intsBetween_of_apart h hnot
  whole := by
    intro n hn
    by_cases hrefused : RefusedInts min max
    · obtain ⟨b, hb⟩ := intsBetween_of_refused h hrefused
      rw [hb] at hn
      cases hn
    · rw [intsBetween_of_apart h hrefused] at hn
      cases hn
      obtain ⟨hproper, hwhole⟩ := (valid_iff_not_refusedInts h).mpr hrefused
      obtain ⟨hmin, hmax⟩ := List.forall_mem_cons.mp hwhole
      exact forall_mem_pair (isInteger_or_infinite_unsignedZero hproper.min_ne_nan hmin)
        (isInteger_or_infinite_unsignedZero hproper.max_ne_nan (List.forall_mem_singleton.mp hmax))

theorem keepsIntPromise_of_met (h : min.sameNumber max = true) (hwhole : WholeBounds min max) :
    KeepsIntPromise min max where
  stops_iff := by
    rw [refusedInts_of_met h, intsBetween_of_met h]
    exact ⟨nofun, fun hfraction => absurd hwhole hfraction⟩
  met := fun _ => intsBetween_of_met
  apart := by
    intro _ hapart
    rw [h] at hapart
    cases hapart
  whole := by
    intro n hn
    rw [intsBetween_of_met h] at hn
    cases hn
    exact List.forall_mem_singleton.mpr (isInteger_or_infinite_unsignedZero
      (Binary64.ne_nan_of_sameNumber h).1 (hwhole min List.mem_cons_self))

/-- Bounds with a fraction that meet would have to be refused, and are not. -/
theorem KeepsIntPromise.wholeBounds (h : KeepsIntPromise min max) (hmet : min.sameNumber max = true) :
    WholeBounds min max := by
  refine Classical.byContradiction fun hfraction => ?_
  obtain ⟨b, hb⟩ := h.stops_iff.mpr ((refusedInts_of_met hmet).mpr hfraction)
  rw [intsBetween_of_met hmet] at hb
  cases hb

/-- The promise is kept exactly where bounds that meet have no fraction.  Bounds that meet are never
refused: they make a literal with or without a fraction. -/
theorem intsBetween_keepsPromise_iff (min max : Binary64) :
    (KeepsIntPromise min max ↔ (min.sameNumber max = true → WholeBounds min max)) ∧
      (min.sameNumber max = true → intsBetween min max = .ok (.literal min.unsignedZero)) := by
  refine ⟨⟨KeepsIntPromise.wholeBounds, fun hwhole => ?_⟩, intsBetween_of_met⟩
  by_cases hmet : min.sameNumber max = true
  · exact keepsIntPromise_of_met hmet (hwhole hmet)
  · exact keepsIntPromise_of_apart hmet

def halfMagnitude : Magnitude := ⟨0x3fe0000000000000, by decide⟩

/-- From one half to one half the promise is broken: the bounds have a fraction and make a literal. -/
theorem intsBetween_half :
    2 * halfMagnitude.units = unitsPerOne ∧
    intsBetween (.signed false halfMagnitude) (.signed false halfMagnitude)
      = .ok (.literal (.signed false halfMagnitude)) ∧
    ¬ KeepsIntPromise (.signed false halfMagnitude) (.signed false halfMagnitude) := by
  have hunits : 2 * halfMagnitude.units = unitsPerOne := by decide +kernel
  have hfraction : ¬ WholeBounds (.signed false halfMagnitude) (.signed false halfMagnitude) := by
    intro hwhole
    obtain ⟨-, hdvd⟩ := hwhole _ List.mem_cons_self ⟨false, halfMagnitude, rfl, rfl⟩
    have hpos := unitsPerOne_pos
    have hle := Nat.le_of_dvd (by omega) hdvd
    omega
  have hmet : Binary64.sameNumber (.signed false halfMagnitude) (.signed false halfMagnitude) = true :=
    rfl
  exact ⟨hunits, intsBetween_of_met hmet, fun hkeeps => hfraction (hkeeps.wholeBounds hmet)⟩

end NumberType
end TypeGraph
