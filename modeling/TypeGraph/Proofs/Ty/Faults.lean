/-
# Which fault is reported

A description of a type is checked where it holds numbers: at its literals, intervals and integer
intervals.  `numberParts` lists these parts in the order in which they stand, depth first and from
left to right.  Each part is valid or has a fault, whatever stands around it (`NumberPart.Valid`,
`NumberPart.HasFault`).

Building a type goes through nested lists of fields and items and stops at the first fault.
`Checks` says of any such computation that it succeeds when all parts of a list are valid and
fails with the first fault of the list otherwise.  It passes through a sequence of steps
(`Checks.bind`), and so from the parts to the whole description (`checks_build`).
-/
import TypeGraph.Proofs.Json.Record
import TypeGraph.Proofs.Ty.History

namespace TypeGraph

/-! ## Parts of a description -/

namespace Binary64

/-- The number itself, except that the negative zero becomes zero. -/
def unsignedZero (x : Binary64) : Binary64 := if x = .signed true .zero then .zero else x

end Binary64

/-- A part of a description that holds numbers.  Bounds that were left open are infinite. -/
inductive NumberPart where
  | literal (value : Binary64)
  | interval (min max : Binary64)
  | intInterval (min max : Binary64)

namespace Description

mutual

/-- The parts that hold numbers, depth first and from left to right. -/
def numberParts : Description → List NumberPart
  | .numberLiteral v => [.literal v]
  | .interval min max => [.interval (min.getD .negInfinity) (max.getD .infinity)]
  | .intInterval min max => [.intInterval (min.getD .negInfinity) (max.getD .infinity)]
  | .struct _ fields => fieldParts fields
  | .union items => itemParts items
  | .never | .any | .number | .string | .stringLiteral _ => []

def fieldParts : List (Field Description) → List NumberPart
  | [] => []
  | ⟨_, d⟩ :: rest => d.numberParts ++ fieldParts rest

def itemParts : List Description → List NumberPart
  | [] => []
  | d :: rest => d.numberParts ++ itemParts rest

end

end Description

/-! ## Valid parts and faults -/

structure ProperBounds (min max : Binary64) : Prop where
  min_ne_nan : min ≠ .nan
  max_ne_nan : max ≠ .nan
  below : min.Below max

def WholeBounds (min max : Binary64) : Prop := ∀ x ∈ [min, max], x.IsFinite → x.IsInteger

/-- What is wrong with bounds that make no interval.  NaN comes before the order of the bounds. -/
inductive ImproperBounds (min max : Binary64) : BoundsFault → Prop where
  | nan (h : min = .nan ∨ max = .nan) : ImproperBounds min max .notANumber
  | reversed (hmin : min ≠ .nan) (hmax : max ≠ .nan) (h : ¬ min.Below max) :
      ImproperBounds min max (.reversed min.unsignedZero max.unsignedZero)

namespace NumberPart

def Valid : NumberPart → Prop
  | .literal v => v ≠ .nan
  | .interval min max => ProperBounds min max
  | .intInterval min max => ProperBounds min max ∧ WholeBounds min max

/-- What is wrong with a part.  A bound with a fraction counts only where the bounds make an
interval. -/
inductive HasFault : NumberPart → BoundsFault → Prop where
  | literal : HasFault (.literal .nan) .notANumber
  | interval {min max : Binary64} {fault : BoundsFault} (h : ImproperBounds min max fault) :
      HasFault (.interval min max) fault
  | intInterval {min max : Binary64} {fault : BoundsFault} (h : ImproperBounds min max fault) :
      HasFault (.intInterval min max) fault
  | fractional {min max : Binary64} (h : ProperBounds min max) (hwhole : ¬ WholeBounds min max) :
      HasFault (.intInterval min max) (.fractional min.unsignedZero max.unsignedZero)

end NumberPart

/-- The first part that is not valid has this fault. -/
inductive FirstFault : List NumberPart → BoundsFault → Prop where
  | here {p : NumberPart} {rest : List NumberPart} {fault : BoundsFault} (h : p.HasFault fault) :
      FirstFault (p :: rest) fault
  | later {p : NumberPart} {rest : List NumberPart} {fault : BoundsFault} (hp : p.Valid)
      (h : FirstFault rest fault) : FirstFault (p :: rest) fault

/-! ## A part has at most one fault, and none if it is valid -/

theorem ProperBounds.not_improper {min max : Binary64} (h : ProperBounds min max)
    {fault : BoundsFault} : ¬ ImproperBounds min max fault
  | .nan hnan => hnan.elim h.min_ne_nan h.max_ne_nan
  | .reversed _ _ hbelow => hbelow h.below

theorem ImproperBounds.unique {min max : Binary64} {f f' : BoundsFault}
    (h : ImproperBounds min max f) (h' : ImproperBounds min max f') : f = f' := by
  cases h with
  | nan hnan =>
      cases h' with
      | nan => rfl
      | reversed hmin hmax => exact absurd hnan (not_or.mpr ⟨hmin, hmax⟩)
  | reversed hmin hmax =>
      cases h' with
      | nan hnan => exact absurd hnan (not_or.mpr ⟨hmin, hmax⟩)
      | reversed => rfl

namespace NumberPart

theorem Valid.not_hasFault {p : NumberPart} (h : p.Valid) {fault : BoundsFault} :
    ¬ p.HasFault fault
  | .literal => h rfl
  | .interval hbad => h.not_improper hbad
  | .intInterval hbad => h.1.not_improper hbad
  | .fractional _ hwhole => hwhole h.2

theorem HasFault.unique {p : NumberPart} {f f' : BoundsFault} (h : p.HasFault f)
    (h' : p.HasFault f') : f = f' := by
  cases h with
  | literal => cases h'; rfl
  | interval h =>
      cases h' with
      | interval h' => exact h.unique h'
  | intInterval h =>
      cases h' with
      | intInterval h' => exact h.unique h'
      | fractional hproper => exact absurd h hproper.not_improper
  | fractional hproper =>
      cases h' with
      | intInterval h' => exact absurd h' hproper.not_improper
      | fractional => rfl

end NumberPart

namespace FirstFault

theorem not_all_valid {parts : List NumberPart} {fault : BoundsFault} (h : FirstFault parts fault)
    (hvalid : ∀ p ∈ parts, p.Valid) : False := by
  induction h with
  | here h => exact (hvalid _ List.mem_cons_self).not_hasFault h
  | later _ _ ih => exact ih fun p hp => hvalid p (List.mem_cons_of_mem _ hp)

theorem unique {parts : List NumberPart} {f f' : BoundsFault} (h : FirstFault parts f)
    (h' : FirstFault parts f') : f = f' := by
  induction h with
  | here h =>
      cases h' with
      | here h' => exact h.unique h'
      | later hp => exact absurd h hp.not_hasFault
  | later hp _ ih =>
      cases h' with
      | here h' => exact absurd h' hp.not_hasFault
      | later _ h' => exact ih h'

theorem append_right {parts : List NumberPart} {fault : BoundsFault} (h : FirstFault parts fault)
    (more : List NumberPart) : FirstFault (parts ++ more) fault := by
  induction h with
  | here h => exact .here h
  | later hp _ ih => exact .later hp ih

theorem append_left {more : List NumberPart} {fault : BoundsFault} (h : FirstFault more fault) :
    ∀ {parts : List NumberPart}, (∀ p ∈ parts, p.Valid) → FirstFault (parts ++ more) fault
  | [], _ => h
  | _ :: _, hvalid =>
      .later (hvalid _ List.mem_cons_self)
        (h.append_left fun p hp => hvalid p (List.mem_cons_of_mem _ hp))

end FirstFault

/-! ## Computations that check parts -/

/-- The computation succeeds if all parts are valid, and fails with their first fault otherwise. -/
inductive Checks {α : Type} : Except BoundsFault α → List NumberPart → Prop where
  | ok {parts : List NumberPart} (a : α) (h : ∀ p ∈ parts, p.Valid) : Checks (.ok a) parts
  | error {parts : List NumberPart} {fault : BoundsFault} (h : FirstFault parts fault) :
      Checks (.error fault) parts

namespace Checks

variable {α β : Type}

theorem nothing (a : α) : Checks (.ok a) [] := .ok a nofun

/-- One step after another checks one list of parts after another. -/
theorem bind {x : Except BoundsFault α} {f : α → Except BoundsFault β}
    {parts more : List NumberPart} (hx : Checks x parts) (hf : ∀ a, Checks (f a) more) :
    Checks (x >>= f) (parts ++ more) := by
  cases hx with
  | error h => exact .error (h.append_right more)
  | ok a hvalid =>
      show Checks (f a) (parts ++ more)
      generalize f a = y, hf a = hy
      cases hy with
      | ok b hmore => exact .ok b (List.forall_mem_append.mpr ⟨hvalid, hmore⟩)
      | error h => exact .error (h.append_left hvalid)

theorem map {x : Except BoundsFault α} {parts : List NumberPart} (hx : Checks x parts)
    (f : α → β) : Checks (x >>= fun a => pure (f a)) parts := by
  have h := hx.bind fun a => nothing (f a)
  rwa [List.append_nil] at h

theorem exists_ok_iff {x : Except BoundsFault α} {parts : List NumberPart} (h : Checks x parts) :
    (∃ a, x = .ok a) ↔ ∀ p ∈ parts, p.Valid := by
  cases h with
  | ok a hvalid => exact ⟨fun _ => hvalid, fun _ => ⟨a, rfl⟩⟩
  | error h => exact ⟨fun ⟨_, ha⟩ => (nomatch ha), fun hvalid => absurd hvalid h.not_all_valid⟩

theorem eq_error_iff {x : Except BoundsFault α} {parts : List NumberPart} (h : Checks x parts)
    {fault : BoundsFault} : x = .error fault ↔ FirstFault parts fault := by
  cases h with
  | ok a hvalid => exact ⟨fun h => (nomatch h), fun h => absurd hvalid h.not_all_valid⟩
  | error h =>
      constructor
      · rintro ⟨⟩
        exact h
      · intro h'
        rw [h.unique h']

end Checks

/-! ## The constructors of number types -/

namespace Binary64

theorem normalize_eq {x : Binary64} (h : x ≠ .nan) : x.normalize = some x.unsignedZero := by
  match x, h with
  | .nan, h => exact absurd rfl h
  | .signed negative m, _ =>
      show some (if m.rank = 0 then zero else signed negative m) = some (unsignedZero _)
      unfold unsignedZero
      by_cases hzero : m.rank = 0
      · have hm : m = .zero := Magnitude.ext hzero
        subst hm
        cases negative with
        | false => rfl
        | true => rfl
      · have hne : signed negative m ≠ .signed true .zero := by
          intro he
          injection he with _ hm
          rw [hm] at hzero
          exact hzero rfl
        rw [if_neg hzero, if_neg hne]

theorem atMost_unsignedZero (x y : Binary64) :
    x.unsignedZero.atMost y.unsignedZero = x.atMost y := by
  have hleft : ∀ z, x.unsignedZero.atMost z = x.atMost z := by
    intro z
    unfold unsignedZero
    split
    · next h =>
        subst h
        cases z <;> rfl
    · rfl
  rw [hleft]
  unfold unsignedZero
  split
  · next h =>
      subst h
      cases x <;> rfl
  · rfl

theorem not_below_of_atMost {x y : Binary64} (h : y.atMost x = true) : ¬ x.Below y := by
  match x, y, h with
  | .signed s a, .signed t b, h => exact Int.not_lt.mpr (of_decide_eq_true h)

theorem isIntBound_unsignedZero (x : Binary64) :
    NumberType.isIntBound x.unsignedZero = NumberType.isIntBound x := by
  unfold unsignedZero
  split
  · next h => rw [h]; rfl
  · rfl

theorem isIntBound_iff {x : Binary64} (h : x ≠ .nan) :
    NumberType.isIntBound x = true ↔ (x.IsFinite → x.IsInteger) := by
  constructor
  · rintro hx ⟨negative, m, rfl, hfinite⟩
    rcases isInteger_or_infinite hx with hint | hinf | hinf
    · exact hint
    · cases hinf; cases hfinite
    · cases hinf; cases hfinite
  · intro hx
    match x, h with
    | .signed negative m, _ =>
        by_cases hfinite : m.isFinite = true
        · obtain ⟨-, hdvd⟩ := hx ⟨negative, m, rfl, hfinite⟩
          have hwhole : m.isWhole = true := beq_iff_eq.mpr (Nat.mod_eq_zero_of_dvd hdvd)
          simp [NumberType.isIntBound, isWhole, hfinite, hwhole]
        · simp [NumberType.isIntBound, isInfinite, hfinite]

end Binary64

namespace NumberType

theorem spelled_eq (x : Binary64) :
    spelled x = if x = .nan then .error .notANumber else .ok x.unsignedZero := by
  split
  · next h => rw [h]; rfl
  · next h => rw [spelled, Binary64.normalize_eq h]

theorem checks_ofValue (x : Binary64) : Checks (ofValue x) [.literal x] := by
  refine Checks.map ?_ NumberType.literal
  rw [spelled_eq]
  split
  · next h => rw [h]; exact .error (.here .literal)
  · next h => exact .ok _ (List.forall_mem_singleton.mpr h)

theorem strictBounds_cases (min max : Binary64) :
    (ProperBounds min max ∧ strictBounds min max = .ok (min.unsignedZero, max.unsignedZero)) ∨
      ∃ fault, ImproperBounds min max fault ∧ strictBounds min max = .error fault := by
  by_cases hmin : min = .nan
  · exact Or.inr ⟨_, .nan (Or.inl hmin), by rw [hmin]; rfl⟩
  by_cases hmax : max = .nan
  · refine Or.inr ⟨_, .nan (Or.inr hmax), ?_⟩
    rw [strictBounds, spelled_eq min, if_neg hmin, hmax]
    rfl
  have heq : strictBounds min max = if max.atMost min
      then .error (.reversed min.unsignedZero max.unsignedZero)
      else .ok (min.unsignedZero, max.unsignedZero) := by
    rw [strictBounds, spelled_eq min, spelled_eq max, if_neg hmin, if_neg hmax]
    show (if max.unsignedZero.atMost min.unsignedZero = true then _ else _) = _
    rw [Binary64.atMost_unsignedZero]
    rfl
  rw [heq]
  by_cases hle : max.atMost min = true
  · have hbelow := Binary64.not_below_of_atMost hle
    exact Or.inr ⟨_, .reversed hmin hmax hbelow, if_pos hle⟩
  · have hbelow := Binary64.below_of_not_atMost hmin hmax hle
    exact Or.inl ⟨⟨hmin, hmax, hbelow⟩, if_neg hle⟩

theorem checks_ofBounds (min max : Binary64) : Checks (ofBounds min max) [.interval min max] := by
  unfold ofBounds
  rcases strictBounds_cases min max with ⟨hproper, hok⟩ | ⟨fault, himproper, herror⟩
  · rw [hok]
    exact .ok _ (List.forall_mem_singleton.mpr hproper)
  · rw [herror]
    exact .error (.here (.interval himproper))

theorem wholeBounds_iff {min max : Binary64} (h : ProperBounds min max) :
    (isIntBound min.unsignedZero && isIntBound max.unsignedZero) = true ↔ WholeBounds min max := by
  rw [Bool.and_eq_true, Binary64.isIntBound_unsignedZero, Binary64.isIntBound_unsignedZero,
    Binary64.isIntBound_iff h.min_ne_nan, Binary64.isIntBound_iff h.max_ne_nan, WholeBounds,
    List.forall_mem_cons, List.forall_mem_singleton]

theorem checks_ofIntBounds (min max : Binary64) :
    Checks (ofIntBounds min max) [.intInterval min max] := by
  unfold ofIntBounds
  rcases strictBounds_cases min max with ⟨hproper, hok⟩ | ⟨fault, himproper, herror⟩
  · rw [hok]
    show Checks (if (isIntBound min.unsignedZero && isIntBound max.unsignedZero) = true
      then _ else _) _
    split
    · next h =>
        exact .ok _ (List.forall_mem_singleton.mpr ⟨hproper, (wholeBounds_iff hproper).mp h⟩)
    · next h => exact .error (.here (.fractional hproper (mt (wholeBounds_iff hproper).mpr h)))
  · rw [herror]
    exact .error (.here (.intInterval himproper))

end NumberType

/-! ## Whole descriptions -/

namespace Description

mutual

/-- Building a description checks its parts in order: one case per form of description. -/
theorem checks_build : ∀ d : Description, Checks d.build d.numberParts
  | .never => by rw [build, numberParts]; exact .nothing _
  | .any => by rw [build, numberParts]; exact .nothing _
  | .number => by rw [build, numberParts]; exact .nothing _
  | .string => by rw [build, numberParts]; exact .nothing _
  | .stringLiteral _ => by rw [build, numberParts]; exact .nothing _
  | .numberLiteral v => by
      rw [build, numberParts]
      exact (NumberType.checks_ofValue v).map _
  | .interval min max => by
      rw [build, numberParts]
      exact (NumberType.checks_ofBounds _ _).map _
  | .intInterval min max => by
      rw [build, numberParts]
      exact (NumberType.checks_ofIntBounds _ _).map _
  | .struct name fields => by
      rw [build, numberParts]
      exact (checks_buildFields fields).map _
  | .union items => by
      rw [build, numberParts]
      exact (checks_buildItems items).map _

theorem checks_buildFields : ∀ fields : List (Field Description),
    Checks (buildFields fields) (fieldParts fields)
  | [] => by rw [buildFields, fieldParts]; exact .nothing _
  | ⟨name, d⟩ :: rest => by
      rw [buildFields, fieldParts]
      exact (checks_build d).bind fun t => (checks_buildFields rest).map _

theorem checks_buildItems : ∀ items : List Description, Checks (buildItems items) (itemParts items)
  | [] => by rw [buildItems, itemParts]; exact .nothing _
  | d :: rest => by
      rw [buildItems, itemParts]
      exact (checks_build d).bind fun t => (checks_buildItems rest).map _

end

/-- A description describes a type exactly when each of its parts is valid on its own, and otherwise
the fault that is reported is that of the first part that is not. -/
theorem build_reportsFirstFault (d : Description) :
    ((∃ t, d.build = .ok t) ↔ ∀ p ∈ d.numberParts, p.Valid) ∧
      ∀ fault, d.build = .error fault ↔ FirstFault d.numberParts fault :=
  ⟨(checks_build d).exists_ok_iff, fun _ => (checks_build d).eq_error_iff⟩

-- the second item of the union comes before the second field
example : (struct "S" [⟨"a", .union [.any, .interval (some .infinity) none]⟩,
    ⟨"b", .numberLiteral .nan⟩]).build = .error (.reversed .infinity .infinity) := rfl

end Description
end TypeGraph
