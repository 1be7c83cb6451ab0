/-
# Spelling does not matter

One type can be described in many ways: the items of a union in another order, repeated, or grouped
into unions; a zero of either sign; an infinite bound written out or left open.  `Respells` is one
such rewrite, at any depth of a description, and `SpelledAlike` any number of them in either
direction.

What a description builds survives a rewrite because each level absorbs what the levels below it
pass on.  Number types look at numbers in their one spelling only.  The type of a union is settled
by which leaves its items have (`build_union_congr`), and none of the rewrites of items changes
that.  Whether a description builds anything at all is settled by its parts alone, so no rewrite
hides a fault or brings one in.
-/
import Mathlib.Data.List.Basic
import Mathlib.Logic.Relation
import TypeGraph.Proofs.Ty.Union

namespace TypeGraph

namespace Description

/-! ## Rewrites -/

inductive RespellsLower : Option Binary64 → Option Binary64 → Prop where
  | zero : RespellsLower (some .zero) (some (.signed true .zero))
  | infinite : RespellsLower none (some .negInfinity)

inductive RespellsUpper : Option Binary64 → Option Binary64 → Prop where
  | zero : RespellsUpper (some .zero) (some (.signed true .zero))
  | infinite : RespellsUpper none (some .infinity)

/-- One rewrite of a description. -/
inductive Respells : Description → Description → Prop where
  | permute {items items' : List Description} (h : items.Perm items') :
      Respells (.union items) (.union items')
  /-- An item that stands somewhere in the union is put in once more. -/
  | duplicate (before : List Description) (d : Description) (after : List Description)
      (h : d ∈ before ++ after) :
      Respells (.union (before ++ after)) (.union (before ++ d :: after))
  /-- An item that is a union is replaced by its items. -/
  | flatten (before inner after : List Description) :
      Respells (.union (before ++ .union inner :: after)) (.union (before ++ inner ++ after))
  | literal : Respells (.numberLiteral .zero) (.numberLiteral (.signed true .zero))
  | intervalMin {b b' : Option Binary64} (h : RespellsLower b b') (max : Option Binary64) :
      Respells (.interval b max) (.interval b' max)
  | intervalMax (min : Option Binary64) {b b' : Option Binary64} (h : RespellsUpper b b') :
      Respells (.interval min b) (.interval min b')
  | intIntervalMin {b b' : Option Binary64} (h : RespellsLower b b') (max : Option Binary64) :
      Respells (.intInterval b max) (.intInterval b' max)
  | intIntervalMax (min : Option Binary64) {b b' : Option Binary64} (h : RespellsUpper b b') :
      Respells (.intInterval min b) (.intInterval min b')
  /-- A rewrite inside a field of a struct. -/
  | field (name : String) (before : List (Field Description)) (label : String)
      {d d' : Description} (h : Respells d d') (after : List (Field Description)) :
      Respells (.struct name (before ++ ⟨label, d⟩ :: after))
        (.struct name (before ++ ⟨label, d'⟩ :: after))
  /-- A rewrite inside an item of a union. -/
  | item (before : List Description) {d d' : Description} (h : Respells d d')
      (after : List Description) :
      Respells (.union (before ++ d :: after)) (.union (before ++ d' :: after))

/-- Alike up to any number of rewrites in either direction. -/
def SpelledAlike : Description → Description → Prop := Relation.EqvGen Respells

/-! ## What a description builds -/

/-- The two descriptions build the same type, or neither builds one. -/
def BuildAlike (d d' : Description) : Prop := ∀ t, d.build = .ok t ↔ d'.build = .ok t

theorem build_struct_iff {name : String} {fields : List (Field Description)} {t : Ty} :
    (struct name fields).build = .ok t ↔
      ∃ fs, buildFields fields = .ok fs ∧ .struct (.of name fs) = t := by
  rw [build, bind_eq_ok_iff]
  simp only [pure, Except.pure, Except.ok.injEq]

theorem build_union_iff {items : List Description} {t : Ty} :
    (union items).build = .ok t ↔ ∃ ts, buildItems items = .ok ts ∧ .union (.of ts) = t := by
  rw [build, bind_eq_ok_iff]
  simp only [pure, Except.pure, Except.ok.injEq]

/-! ## Numbers -/

theorem RespellsLower.spelled_eq {b b' : Option Binary64} (h : RespellsLower b b') :
    NumberType.spelled (lowerBound b) = NumberType.spelled (lowerBound b') := by
  cases h with
  | zero => rfl
  | infinite => rfl

theorem RespellsUpper.spelled_eq {b b' : Option Binary64} (h : RespellsUpper b b') :
    NumberType.spelled (upperBound b) = NumberType.spelled (upperBound b') := by
  cases h with
  | zero => rfl
  | infinite => rfl

theorem strictBounds_congr {min min' max max' : Binary64}
    (hmin : NumberType.spelled min = NumberType.spelled min')
    (hmax : NumberType.spelled max = NumberType.spelled max') :
    NumberType.strictBounds min max = NumberType.strictBounds min' max' := by
  rw [NumberType.strictBounds, NumberType.strictBounds, hmin, hmax]

section Bounds

variable {min min' max max' : Option Binary64}
  (hmin : NumberType.spelled (lowerBound min) = NumberType.spelled (lowerBound min'))
  (hmax : NumberType.spelled (upperBound max) = NumberType.spelled (upperBound max'))

include hmin hmax

theorem buildAlike_interval : (interval min max).BuildAlike (.interval min' max') := by
  intro t
  rw [build, build, NumberType.ofBounds, NumberType.ofBounds, strictBounds_congr hmin hmax]

theorem buildAlike_intInterval : (intInterval min max).BuildAlike (.intInterval min' max') := by
  intro t
  rw [build, build, NumberType.ofIntBounds, NumberType.ofIntBounds, strictBounds_congr hmin hmax]

end Bounds

/-! ## Fields -/

theorem buildFields_cons_iff {label : String} {d : Description} {rest : List (Field Description)}
    {fs : List (Field Ty)} : buildFields (⟨label, d⟩ :: rest) = .ok fs ↔
      ∃ t, d.build = .ok t ∧ ∃ ts, buildFields rest = .ok ts ∧ ⟨label, t⟩ :: ts = fs := by
  rw [buildFields, bind_eq_ok_iff]
  simp only [bind_eq_ok_iff, pure, Except.pure, Except.ok.injEq]

theorem buildFields_congr {d d' : Description} (h : d.BuildAlike d') (label : String)
    (after : List (Field Description)) : ∀ (before : List (Field Description)) (fs : List (Field Ty)),
    buildFields (before ++ ⟨label, d⟩ :: after) = .ok fs ↔
      buildFields (before ++ ⟨label, d'⟩ :: after) = .ok fs
  | [], fs => by
      rw [List.nil_append, List.nil_append, buildFields_cons_iff, buildFields_cons_iff]
      simp only [h _]
  | ⟨name, e⟩ :: before, fs => by
      rw [List.cons_append, List.cons_append, buildFields_cons_iff, buildFields_cons_iff]
      simp only [buildFields_congr h label after before]

theorem buildAlike_field {d d' : Description} (h : d.BuildAlike d') (name label : String)
    (before after : List (Field Description)) :
    (struct name (before ++ ⟨label, d⟩ :: after)).BuildAlike
      (.struct name (before ++ ⟨label, d'⟩ :: after)) := by
  intro t
  rw [build_struct_iff, build_struct_iff]
  simp only [buildFields_congr h label after before]

/-! ## Items -/

def Builds (d : Description) : Prop := ∃ t, d.build = .ok t

def HasLeaf (d : Description) (m : Ty) : Prop := ∃ t, d.build = .ok t ∧ m ∈ t.leaves

theorem BuildAlike.builds_iff {d d' : Description} (h : d.BuildAlike d') :
    d.Builds ↔ d'.Builds :=
  exists_congr h

theorem BuildAlike.hasLeaf_iff {d d' : Description} (h : d.BuildAlike d') (m : Ty) :
    d.HasLeaf m ↔ d'.HasLeaf m :=
  exists_congr fun t => and_congr_left' (h t)

theorem buildItems_cons_iff {d : Description} {rest : List Description} {ts : List Ty} :
    buildItems (d :: rest) = .ok ts ↔
      ∃ t, d.build = .ok t ∧ ∃ us, buildItems rest = .ok us ∧ t :: us = ts := by
  rw [buildItems, bind_eq_ok_iff]
  simp only [bind_eq_ok_iff, pure, Except.pure, Except.ok.injEq]

theorem exists_buildItems : ∀ {items : List Description}, (∀ d ∈ items, d.Builds) →
    ∃ ts, buildItems items = .ok ts ∧ ∀ t, t ∈ ts ↔ ∃ d ∈ items, d.build = .ok t
  | [], _ => ⟨[], by rw [buildItems]; rfl, by simp⟩
  | d :: rest, h => by
      obtain ⟨⟨t, ht⟩, hrest⟩ := List.forall_mem_cons.mp h
      obtain ⟨ts, hts, hmem⟩ := exists_buildItems hrest
      refine ⟨t :: ts, buildItems_cons_iff.mpr ⟨t, ht, ts, hts, rfl⟩, fun s => ?_⟩
      rw [List.mem_cons, hmem s, List.exists_mem_cons_iff, ht, Except.ok.injEq, eq_comm]

theorem builds_of_buildItems : ∀ {items : List Description} {ts : List Ty},
    buildItems items = .ok ts → ∀ d ∈ items, d.Builds
  | [], _, _ => nofun
  | d :: rest, ts, h => by
      obtain ⟨t, ht, us, hus, -⟩ := buildItems_cons_iff.mp h
      exact List.forall_mem_cons.mpr ⟨⟨t, ht⟩, builds_of_buildItems hus⟩

theorem builds_union_iff {items : List Description} :
    (union items).Builds ↔ ∀ d ∈ items, d.Builds := by
  constructor
  · rintro ⟨t, ht⟩
    obtain ⟨ts, hts, -⟩ := build_union_iff.mp ht
    exact builds_of_buildItems hts
  · intro h
    obtain ⟨ts, hts, -⟩ := exists_buildItems h
    exact ⟨_, build_union_iff.mpr ⟨ts, hts, rfl⟩⟩

theorem exists_union_of_builds {items : List Description} (h : ∀ d ∈ items, d.Builds) :
    ∃ u, (union items).build = .ok (.union u) ∧
      ∀ m, m ∈ u.members ↔ ∃ d ∈ items, d.HasLeaf m := by
  obtain ⟨ts, hts, hmem⟩ := exists_buildItems h
  refine ⟨.of ts, build_union_iff.mpr ⟨ts, hts, rfl⟩, fun m => ?_⟩
  rw [Union.mem_members_of (wellFormed_buildItems items hts), List.mem_flatMap]
  constructor
  · rintro ⟨t, ht, hm⟩
    obtain ⟨d, hd, hbuild⟩ := (hmem t).mp ht
    exact ⟨d, hd, t, hbuild, hm⟩
  · rintro ⟨d, hd, t, hbuild, hm⟩
    exact ⟨t, (hmem t).mpr ⟨d, hd, hbuild⟩, hm⟩

theorem hasLeaf_union_iff {items : List Description} (h : ∀ d ∈ items, d.Builds) (m : Ty) :
    (union items).HasLeaf m ↔ ∃ d ∈ items, d.HasLeaf m := by
  obtain ⟨u, hu, hmem⟩ := exists_union_of_builds h
  rw [← hmem m, HasLeaf, hu]
  constructor
  · rintro ⟨t, ⟨⟩, hm⟩
    exact hm
  · intro hm
    exact ⟨.union u, rfl, hm⟩

/-- Lists of items that build together and have the same leaves make one union. -/
theorem build_union_congr {items items' : List Description}
    (hbuilds : (∀ d ∈ items, d.Builds) ↔ ∀ d ∈ items', d.Builds)
    (hleaf : (∀ d ∈ items, d.Builds) →
      ∀ m, (∃ d ∈ items, d.HasLeaf m) ↔ ∃ d ∈ items', d.HasLeaf m) :
    (union items).BuildAlike (.union items') := by
  intro t
  by_cases h : ∀ d ∈ items, d.Builds
  · obtain ⟨u, hu, hmem⟩ := exists_union_of_builds h
    obtain ⟨u', hu', hmem'⟩ := exists_union_of_builds (hbuilds.mp h)
    have heq : u = u' := by
      refine Union.eq_of_mem_iff (wellFormed_build _ hu) (wellFormed_build _ hu') fun m => ?_
      rw [hmem m, hmem' m, hleaf h m]
    rw [hu, hu', heq]
  · have hno : ¬ (union items).Builds := mt builds_union_iff.mp h
    have hno' : ¬ (union items').Builds := mt builds_union_iff.mp (mt hbuilds.mpr h)
    exact ⟨fun ht => absurd ⟨t, ht⟩ hno, fun ht => absurd ⟨t, ht⟩ hno'⟩

theorem buildAlike_of_mem_iff {items items' : List Description}
    (h : ∀ d, d ∈ items ↔ d ∈ items') : (union items).BuildAlike (.union items') := by
  refine build_union_congr ?_ fun _ m => ?_
  · simp only [h]
  · simp only [h]

theorem buildAlike_item {d d' : Description} (h : d.BuildAlike d')
    (before after : List Description) :
    (union (before ++ d :: after)).BuildAlike (.union (before ++ d' :: after)) := by
  refine build_union_congr ?_ fun _ m => ?_
  · simp only [List.forall_mem_append, List.forall_mem_cons, h.builds_iff]
  · simp only [List.mem_append, List.mem_cons, or_and_right, exists_or, exists_eq_left,
      h.hasLeaf_iff m]

/-- A union among the items passes on the leaves of its own items. -/
theorem buildAlike_flatten (before inner after : List Description) :
    (union (before ++ .union inner :: after)).BuildAlike (.union (before ++ inner ++ after)) := by
  refine build_union_congr ?_ fun h m => ?_
  · simp only [List.forall_mem_append, List.forall_mem_cons, builds_union_iff, and_assoc]
  · have hinner : ∀ d ∈ inner, d.Builds :=
      builds_union_iff.mp (h _ (List.mem_append_right _ List.mem_cons_self))
    simp only [List.mem_append, List.mem_cons, or_and_right, exists_or, exists_eq_left,
      hasLeaf_union_iff hinner m, or_assoc]

/-! ## Any rewrites -/

/-- A rewrite does not change what is built: by induction on the depth of the rewrite. -/
theorem Respells.buildAlike {d d' : Description} (h : d.Respells d') : d.BuildAlike d' := by
  induction h with
  | permute h => exact buildAlike_of_mem_iff fun _ => h.mem_iff
  | duplicate before d after h =>
      refine buildAlike_of_mem_iff fun e => ?_
      rw [List.mem_append, List.mem_append, List.mem_cons]
      rw [List.mem_append] at h
      grind
  | flatten before inner after => exact buildAlike_flatten before inner after
  | literal => exact fun _ => Iff.rfl
  | intervalMin h max => exact buildAlike_interval h.spelled_eq rfl
  | intervalMax min h => exact buildAlike_interval rfl h.spelled_eq
  | intIntervalMin h max => exact buildAlike_intInterval h.spelled_eq rfl
  | intIntervalMax min h => exact buildAlike_intInterval rfl h.spelled_eq
  | field name before label _ after ih => exact buildAlike_field ih name label before after
  | item before _ after ih => exact buildAlike_item ih before after

theorem SpelledAlike.buildAlike {d d' : Description} (h : d.SpelledAlike d') : d.BuildAlike d' := by
  induction h with
  | rel _ _ h => exact h.buildAlike
  | refl _ => exact fun _ => Iff.rfl
  | symm _ _ _ ih => exact fun t => (ih t).symm
  | trans _ _ _ _ _ ih ih' => exact fun t => (ih t).trans (ih' t)

/-- Descriptions that differ in spelling only describe one type, or both describe none. -/
theorem build_of_spelledAlike {d d' : Description} (h : d.SpelledAlike d') :
    (∃ t, d.build = .ok t ∧ d'.build = .ok t) ∨
      ∃ fault fault', d.build = .error fault ∧ d'.build = .error fault' := by
  have halike := h.buildAlike
  cases hd : d.build with
  | ok t => exact Or.inl ⟨t, rfl, (halike t).mp hd⟩
  | error fault =>
      cases hd' : d'.build with
      | ok t => exact absurd ((halike t).mpr hd') (by rw [hd]; exact nofun)
      | error fault' => exact Or.inr ⟨fault, fault', rfl, rfl⟩

/-- A field with a union that is grouped, repeats an item, and leaves a bound open. -/
def groupedSpelling : Description :=
  .struct "S" [⟨"x", .union [.union [.interval none (some .zero), .any], .numberLiteral .zero, .any]⟩]

/-- The same field with each item once and every number written out. -/
def flatSpelling : Description :=
  .struct "S" [⟨"x", .union [.numberLiteral (.signed true .zero),
    .interval (some .negInfinity) (some (.signed true .zero)), .any]⟩]

theorem build_of_spelledAlike_grouped : groupedSpelling.SpelledAlike flatSpelling ∧
    ((∃ t, groupedSpelling.build = .ok t ∧ flatSpelling.build = .ok t) ∨
      ∃ fault fault', groupedSpelling.build = .error fault ∧ flatSpelling.build = .error fault') := by
  have heqv := Relation.EqvGen.is_equivalence Respells
  -- a rewrite of the union is a rewrite of the struct around it
  have lift : ∀ {d d' : Description}, d.Respells d' →
      Relation.EqvGen Respells (.struct "S" [⟨"x", d⟩]) (.struct "S" [⟨"x", d'⟩]) :=
    fun h => .rel _ _ (.field "S" [] "x" h [])
  have hflatten := lift
    (.flatten [] [.interval none (some .zero), .any] [.numberLiteral .zero, .any])
  have hmin := lift (.item [] (.intervalMin .infinite (some .zero))
    [.any, .numberLiteral .zero, .any])
  have hmax := lift (.item [] (.intervalMax (some .negInfinity) .zero)
    [.any, .numberLiteral .zero, .any])
  have hliteral := lift (.item [.interval (some .negInfinity) (some (.signed true .zero)), .any]
    .literal [.any])
  have hduplicate := lift
    (.duplicate [.interval (some .negInfinity) (some (.signed true .zero))] .any
      [.numberLiteral (.signed true .zero), .any] (by simp))
  have hpermute := lift (.permute (List.Perm.swap (numberLiteral (.signed true .zero))
    (.interval (some .negInfinity) (some (.signed true .zero))) [.any]))
  have h : groupedSpelling.SpelledAlike flatSpelling :=
    heqv.trans hflatten (heqv.trans hmin (heqv.trans hmax (heqv.trans hliteral
      (heqv.trans (heqv.symm hduplicate) hpermute))))
  exact ⟨h, build_of_spelledAlike h⟩

end Description
end TypeGraph
