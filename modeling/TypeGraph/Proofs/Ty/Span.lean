/-
# The numbers between two bounds

A literal or an interval is a stretch of the number line, from its least number to its greatest.
Bounds that a caller promises to be in order are turned into such a stretch, and two things are
asked of the result.  It holds the numbers between the bounds and no others; and it has one form, so
that two pairs of bounds give one type exactly when they are the same numbers, the zeros counting
as one.

Both follow from the end points of the result, which are the bounds in their one spelling whether
they meet or not (`spans_between`).  The numbers of a type are read off its end points, and a valid
type is determined by them (`Spans.eq_of_valid`): end points that agree make a literal, and others
an interval.
-/
import TypeGraph.Proofs.Ty.Between
import TypeGraph.Proofs.Ty.Key

namespace TypeGraph

/-! ## Numbers up to the sign of zero -/

namespace Binary64

theorem sameNumber_unsignedZero {x : Binary64} (h : x ≠ .nan) :
    x.unsignedZero.sameNumber x = true := by
  unfold unsignedZero
  split
  · next hzero =>
      subst hzero
      rfl
  · match x, h with
    | .signed _ _, _ => exact beq_self_eq_true _

theorem sameNumber_symm {x y : Binary64} (h : x.sameNumber y = true) : y.sameNumber x = true := by
  match x, y, h with
  | .signed _ _, .signed _ _, h => exact beq_iff_eq.mpr (beq_iff_eq.mp h).symm

theorem sameNumber_trans {x y z : Binary64} (hxy : x.sameNumber y = true)
    (hyz : y.sameNumber z = true) : x.sameNumber z = true := by
  match x, y, z, hxy, hyz with
  | .signed _ _, .signed _ _, .signed _ _, hxy, hyz =>
      exact beq_iff_eq.mpr ((beq_iff_eq.mp hxy).trans (beq_iff_eq.mp hyz))

theorem atMost_congr_left {x y : Binary64} (h : x.sameNumber y = true) (z : Binary64) :
    x.atMost z = y.atMost z := by
  match x, y, z, h with
  | .signed _ _, .signed _ _, .nan, _ => rfl
  | .signed _ _, .signed _ _, .signed _ _, h => simp only [atMost, beq_iff_eq.mp h]

theorem atMost_congr_right {x y : Binary64} (h : x.sameNumber y = true) (z : Binary64) :
    z.atMost x = z.atMost y := by
  match x, y, z, h with
  | .signed _ _, .signed _ _, .nan, _ => rfl
  | .signed _ _, .signed _ _, .signed _ _, h => simp only [atMost, beq_iff_eq.mp h]

/-- A place on the number line has one number, once the negative zero is set aside. -/
theorem eq_of_place_eq {s t : Bool} {a b : Magnitude} (h : place s a = place t b)
    (ha : signed s a ≠ .signed true .zero) (hb : signed t b ≠ .signed true .zero) :
    signed s a = signed t b := by
  -- numbers of different signs meet at zero only, and there one of them is the negative zero
  have hzero : ∀ {a b : Magnitude}, place false a = place true b →
      signed true b = .signed true .zero := by
    intro a b h
    have hrank : b.rank = 0 := by
      have h : (a.rank : Int) = -(b.rank : Int) := h
      omega
    exact congrArg (signed true) (Magnitude.ext hrank)
  match s, t, h with
  | false, false, h => exact congrArg (signed false) (Magnitude.ext (Int.ofNat.inj h))
  | true, true, h => exact congrArg (signed true) (Magnitude.ext (Int.ofNat.inj (Int.neg_inj.mp h)))
  | false, true, h => exact absurd (hzero h) hb
  | true, false, h => exact absurd (hzero h.symm) ha

theorem unsignedZero_ne (x : Binary64) : x.unsignedZero ≠ .signed true .zero := by
  unfold unsignedZero
  split
  · exact nofun
  · assumption

theorem unsignedZero_eq_iff {x y : Binary64} (hx : x ≠ .nan) (hy : y ≠ .nan) :
    x.unsignedZero = y.unsignedZero ↔ x.sameNumber y = true := by
  have hx' := sameNumber_unsignedZero hx
  have hy' := sameNumber_unsignedZero hy
  constructor
  · intro h
    rw [h] at hx'
    exact sameNumber_trans (sameNumber_symm hx') hy'
  · intro h
    have hsame := sameNumber_trans hx' (sameNumber_trans h (sameNumber_symm hy'))
    have hneX := unsignedZero_ne x
    have hneY := unsignedZero_ne y
    revert hsame hneX hneY
    match x.unsignedZero, y.unsignedZero with
    | .nan, _ => exact nofun
    | .signed _ _, .nan => exact nofun
    | .signed _ _, .signed _ _ =>
        intro hsame hneX hneY
        exact eq_of_place_eq (beq_iff_eq.mp hsame) hneX hneY

theorem Below.ne_nan {x y : Binary64} (h : x.Below y) : x ≠ .nan ∧ y ≠ .nan := by
  match x, y, h with
  | .signed _ _, .signed _ _, _ => exact ⟨nofun, nofun⟩

end Binary64

namespace NumberType

variable {min max : Binary64}

/-! ## The stretch of a number type -/

/-- The least and the greatest number of a literal or an interval. -/
inductive Spans : NumberType → Binary64 → Binary64 → Prop where
  | literal (v : Binary64) : Spans (.literal v) v v
  | interval (lo hi : Binary64) : Spans (.interval lo hi) lo hi

/-- `x` is one of the numbers of a literal or an interval. -/
def Covers (n : NumberType) (x : Binary64) : Prop :=
  ∃ lo hi, n.Spans lo hi ∧ lo.atMost x = true ∧ x.atMost hi = true

theorem Spans.unique {n : NumberType} {lo hi lo' hi' : Binary64} (h : n.Spans lo hi)
    (h' : n.Spans lo' hi') : lo = lo' ∧ hi = hi' := by
  cases h with
  | literal v =>
      cases h'
      exact ⟨rfl, rfl⟩
  | interval lo hi =>
      cases h'
      exact ⟨rfl, rfl⟩

theorem Spans.covers_iff {n : NumberType} {lo hi : Binary64} (h : n.Spans lo hi) (x : Binary64) :
    n.Covers x ↔ lo.atMost x = true ∧ x.atMost hi = true := by
  constructor
  · rintro ⟨lo', hi', h', hx⟩
    obtain ⟨rfl, rfl⟩ := h.unique h'
    exact hx
  · intro hx
    exact ⟨lo, hi, h, hx⟩

theorem Spans.eq_of_valid {n n' : NumberType} {lo hi : Binary64} (h : n.Spans lo hi)
    (h' : n'.Spans lo hi) (hn : n.Valid) (hn' : n'.Valid) : n = n' := by
  cases h with
  | literal v =>
      cases h' with
      | literal => rfl
      | interval => exact absurd hn'.2.2 fun hlt => hlt.asymm hlt
  | interval lo hi =>
      cases h' with
      | literal => exact absurd hn.2.2 fun hlt => hlt.asymm hlt
      | interval => rfl

/-! ## Both paths of the construction -/

/-- Why there are no numbers between two bounds. -/
inductive Refused (min max : Binary64) : BoundsFault → Prop where
  | nan (h : min = .nan ∨ max = .nan) : Refused min max .notANumber
  | reversed (h : max.Below min) : Refused min max (.reversed min.unsignedZero max.unsignedZero)

theorem between_of_met (h : min.sameNumber max = true) :
    between min max = .ok (.literal min.unsignedZero) := by
  rw [between, if_pos h, exactly_eq_ok (Binary64.ne_nan_of_sameNumber h).1]

theorem improperBounds_iff_refused (h : ¬ min.sameNumber max = true) {fault : BoundsFault} :
    ImproperBounds min max fault ↔ Refused min max fault := by
  constructor
  · intro himproper
    cases himproper with
    | nan hnan => exact .nan hnan
    | reversed hmin hmax hnot =>
        exact .reversed ((Binary64.below_or_below hmin hmax h).resolve_left hnot)
  · intro hrefused
    cases hrefused with
    | nan hnan => exact .nan hnan
    | reversed hlt =>
        obtain ⟨hmax, hmin⟩ := hlt.ne_nan
        exact .reversed hmin hmax hlt.asymm

theorem between_of_apart (h : ¬ min.sameNumber max = true) :
    (ProperBounds min max ∧
        between min max = .ok (.interval min.unsignedZero max.unsignedZero)) ∨
      ∃ fault, Refused min max fault ∧ between min max = .error (.bounds fault) := by
  rw [between, if_neg h, strictlyBetween, ofBounds]
  rcases strictBounds_cases min max with ⟨hproper, hok⟩ | ⟨fault, himproper, herror⟩
  · rw [hok]
    exact Or.inl ⟨hproper, rfl⟩
  · rw [herror]
    exact Or.inr ⟨fault, (improperBounds_iff_refused h).mp himproper, rfl⟩

theorem not_refused_of_met (h : min.sameNumber max = true) {fault : BoundsFault} :
    ¬ Refused min max fault := by
  obtain ⟨hmin, hmax⟩ := Binary64.ne_nan_of_sameNumber h
  intro hrefused
  cases hrefused with
  | nan hnan => exact hnan.elim hmin hmax
  | reversed hlt => exact Binary64.not_below_of_sameNumber h hlt

theorem Refused.unique {f f' : BoundsFault} (h : Refused min max f) (h' : Refused min max f') :
    f = f' := by
  by_cases hmet : min.sameNumber max = true
  · exact absurd h (not_refused_of_met hmet)
  · exact ((improperBounds_iff_refused hmet).mpr h).unique
      ((improperBounds_iff_refused hmet).mpr h')

/-- Bounds are refused for a reason, or their one spellings are the end points of the result. -/
theorem spans_between (min max : Binary64) :
    (∃ n, between min max = .ok n ∧ n.Spans min.unsignedZero max.unsignedZero ∧
        (min ≠ .nan ∧ max ≠ .nan) ∧ ∀ fault, ¬ Refused min max fault) ∨
      ∃ fault, Refused min max fault ∧ between min max = .error (.bounds fault) := by
  by_cases hmet : min.sameNumber max = true
  · obtain ⟨hmin, hmax⟩ := Binary64.ne_nan_of_sameNumber hmet
    have hspans : (literal min.unsignedZero).Spans min.unsignedZero max.unsignedZero := by
      rw [← (Binary64.unsignedZero_eq_iff hmin hmax).mpr hmet]
      exact .literal _
    exact Or.inl ⟨_, between_of_met hmet, hspans, ⟨hmin, hmax⟩, fun _ => not_refused_of_met hmet⟩
  · rcases between_of_apart hmet with ⟨hproper, hok⟩ | hrefused
    · refine Or.inl ⟨_, hok, .interval _ _, ⟨hproper.min_ne_nan, hproper.max_ne_nan⟩, ?_⟩
      intro fault hrefused
      exact hproper.not_improper ((improperBounds_iff_refused hmet).mpr hrefused)
    · exact Or.inr hrefused

/-! ## Exact and canonical -/

theorem between_eq_error_iff {b : Breach} :
    between min max = .error b ↔ ∃ fault, b = .bounds fault ∧ Refused min max fault := by
  rcases spans_between min max with ⟨n, hok, -, -, hnot⟩ | ⟨fault, hrefused, herror⟩
  · rw [hok]
    constructor
    · exact nofun
    · rintro ⟨fault, -, hrefused⟩
      exact absurd hrefused (hnot fault)
  · rw [herror]
    constructor
    · rintro ⟨⟩
      exact ⟨fault, rfl, hrefused⟩
    · rintro ⟨fault', rfl, hrefused'⟩
      rw [hrefused.unique hrefused']

theorem spans_of_between {n : NumberType} (h : between min max = .ok n) :
    n.Spans min.unsignedZero max.unsignedZero ∧ min ≠ .nan ∧ max ≠ .nan := by
  rcases spans_between min max with ⟨n', hok, hspans, hnum, -⟩ | ⟨fault, -, herror⟩
  · rw [hok] at h
    cases h
    exact ⟨hspans, hnum⟩
  · rw [herror] at h
    cases h

theorem covers_between_iff {n : NumberType} (h : between min max = .ok n) (x : Binary64) :
    n.Covers x ↔ min.atMost x = true ∧ x.atMost max = true := by
  obtain ⟨hspans, hmin, hmax⟩ := spans_of_between h
  rw [hspans.covers_iff, Binary64.atMost_congr_left (Binary64.sameNumber_unsignedZero hmin),
    Binary64.atMost_congr_right (Binary64.sameNumber_unsignedZero hmax)]

theorem between_eq_iff {min' max' : Binary64} {n n' : NumberType} (h : between min max = .ok n)
    (h' : between min' max' = .ok n') :
    n = n' ↔ min.sameNumber min' = true ∧ max.sameNumber max' = true := by
  obtain ⟨hspans, hmin, hmax⟩ := spans_of_between h
  obtain ⟨hspans', hmin', hmax'⟩ := spans_of_between h'
  rw [← Binary64.unsignedZero_eq_iff hmin hmin', ← Binary64.unsignedZero_eq_iff hmax hmax']
  constructor
  · rintro rfl
    exact hspans.unique hspans'
  · rintro ⟨hlo, hhi⟩
    rw [hlo, hhi] at hspans
    have hvalid : n.Valid := (Constructible.between h).valid
    have hvalid' : n'.Valid := (Constructible.between h').valid
    exact hspans.eq_of_valid hspans' hvalid hvalid'

theorem Valid.key_eq_iff {n n' : NumberType} (hn : n.Valid) (hn' : n'.Valid) :
    n.key = n'.key ↔ n = n' := by
  constructor
  · intro hkey
    exact Ty.number.inj ((Ty.WellFormed.number hn).key_inj (.number hn') hkey)
  · rintro rfl
    rfl

/-- Bounds are refused exactly when one is NaN or they are reversed, and for that reason.  All other
bounds make a type that holds the numbers between them and no others, and two such types are one, by
their keys or by their parts, exactly when the bounds are the same numbers. -/
theorem between_exactAndCanonical (min max : Binary64) :
    (∀ b, between min max = .error b ↔ ∃ fault, b = .bounds fault ∧ Refused min max fault) ∧
    ((∀ fault, ¬ Refused min max fault) →
      ∃ n, between min max = .ok n ∧
        (∀ x, n.Covers x ↔ min.atMost x = true ∧ x.atMost max = true) ∧
        ∀ min' max' n', between min' max' = .ok n' →
          ((Ty.number n).same (.number n') = true ↔
            min.sameNumber min' = true ∧ max.sameNumber max' = true) ∧
          (n = n' ↔ min.sameNumber min' = true ∧ max.sameNumber max' = true)) := by
  refine ⟨fun b => between_eq_error_iff, fun hnot => ?_⟩
  rcases spans_between min max with ⟨n, hok, -⟩ | ⟨fault, hrefused, -⟩
  · refine ⟨n, hok, covers_between_iff hok, fun min' max' n' hok' => ?_⟩
    have hone := between_eq_iff hok hok'
    have hkey := (Constructible.between hok).valid.key_eq_iff (Constructible.between hok').valid
    exact ⟨beq_iff_eq.trans (hkey.trans hone), hone⟩
  · exact absurd hrefused (hnot fault)

/-- From the negative zero to one half: the numbers between, and the type that zero makes. -/
theorem between_exactAndCanonical_zeros :
    (∀ fault, ¬ Refused (.signed true .zero) (.signed false halfMagnitude) fault) ∧
    between .zero (.signed false halfMagnitude)
      = .ok (.interval .zero (.signed false halfMagnitude)) ∧
    ∃ n, between (.signed true .zero) (.signed false halfMagnitude) = .ok n ∧
      (∀ x, n.Covers x ↔ Binary64.atMost (.signed true .zero) x = true ∧
        x.atMost (.signed false halfMagnitude) = true) ∧
      (Ty.number n).same (.number (.interval .zero (.signed false halfMagnitude))) = true := by
  have hnot : ∀ fault, ¬ Refused (.signed true .zero) (.signed false halfMagnitude) fault := by
    intro fault hrefused
    cases hrefused with
    | nan hnan => exact hnan.elim nofun nofun
    | reversed hlt => exact Int.not_lt.mpr (by decide) hlt
  have hzero : between .zero (.signed false halfMagnitude)
      = .ok (.interval .zero (.signed false halfMagnitude)) := rfl
  obtain ⟨-, hmade⟩ := between_exactAndCanonical (.signed true .zero) (.signed false halfMagnitude)
  obtain ⟨n, hn, hcovers, hone⟩ := hmade hnot
  obtain ⟨hsame, -⟩ := hone .zero (.signed false halfMagnitude) _ hzero
  exact ⟨hnot, hzero, n, hn, hcovers, hsame.mpr ⟨rfl, rfl⟩⟩

end NumberType
end TypeGraph
