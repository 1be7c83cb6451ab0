/-
# Shapes and keys of structs

Two structs can be compared in two ways.  `Struct.sameShape` looks at names and field names and does
not compare the types of fields.  Sameness of types looks at keys, texts into which names, field
names and the keys of field types are pasted together.  The second way is the finer one: a key can be
taken apart in one way only, so structs of one key have one name and one shape, and a fault in shape
always reports two different keys.

`ShapeVerdict` says which answer is due to which pair, and `sameShape_verdict` that it is given.  All
else is read off the verdicts, of which a pair has one only (`ShapeVerdict.unique`).
-/
import Mathlib.Data.Set.Defs
import TypeGraph.Proofs.Ty.Identity
import TypeGraph.Ty.Shape

namespace TypeGraph

/-- The fault of the same two structs, compared the other way round. -/
def ShapeFault.swap (f : ShapeFault) : ShapeFault := { f with left := f.right, right := f.left }

namespace Struct

/-! ## One verdict for each pair -/

/-- The answer that is due when two structs are compared. -/
inductive ShapeVerdict (a b : Struct Ty) : Except ShapeFault Bool → Prop where
  | otherName (hname : a.name ≠ b.name) : ShapeVerdict a b (.ok false)
  | oneShape (hname : a.name = b.name) (hshape : a.fieldNames = b.fieldNames) :
      ShapeVerdict a b (.ok true)
  | fieldCount (hname : a.name = b.name) (hcount : a.fields.length ≠ b.fields.length) :
      ShapeVerdict a b (.error ⟨.fieldCount, a.name, a.key, b.key⟩)
  | fieldNames (hname : a.name = b.name) (hcount : a.fields.length = b.fields.length)
      (hshape : a.fieldNames ≠ b.fieldNames) :
      ShapeVerdict a b (.error ⟨.fieldNames, a.name, a.key, b.key⟩)

variable {a b : Struct Ty} {r s : Except ShapeFault Bool}

theorem sameShape_verdict (a b : Struct Ty) : ShapeVerdict a b (a.sameShape b) := by
  unfold sameShape
  split
  · next hname => exact .otherName hname
  · next hname =>
      have hname : a.name = b.name := Decidable.not_not.mp hname
      split
      · next hcount => exact .fieldCount hname hcount
      · next hcount =>
          have hcount : a.fields.length = b.fields.length := Decidable.not_not.mp hcount
          have hshape := sameNames_iff hcount
          cases hnames : a.sameNames b with
          | false =>
              rw [hnames] at hshape
              exact .fieldNames hname hcount fun h => nomatch hshape.mpr h
          | true => exact .oneShape hname (hshape.mp hnames)

theorem length_eq_of_fieldNames (h : a.fieldNames = b.fieldNames) :
    a.fields.length = b.fields.length := by
  have hlength := congrArg List.length h
  rwa [Struct.fieldNames, Struct.fieldNames, List.length_map, List.length_map] at hlength

namespace ShapeVerdict

theorem unique (hr : ShapeVerdict a b r) (hs : ShapeVerdict a b s) : r = s := by
  cases hr with
  | otherName hname =>
      cases hs with
      | otherName => rfl
      | oneShape h | fieldCount h | fieldNames h => exact absurd h hname
  | oneShape hname hshape =>
      cases hs with
      | otherName h => exact absurd hname h
      | oneShape => rfl
      | fieldCount _ hcount => exact absurd (length_eq_of_fieldNames hshape) hcount
      | fieldNames _ _ h => exact absurd hshape h
  | fieldCount hname hcount =>
      cases hs with
      | otherName h => exact absurd hname h
      | oneShape _ hshape => exact absurd (length_eq_of_fieldNames hshape) hcount
      | fieldCount => rfl
      | fieldNames _ h => exact absurd h hcount
  | fieldNames hname hcount hshape =>
      cases hs with
      | otherName h => exact absurd hname h
      | oneShape _ h => exact absurd h hshape
      | fieldCount _ h => exact absurd hcount h
      | fieldNames => rfl

/-- The other way round the verdict is the same, with the two structs of a fault exchanged. -/
theorem swap (h : ShapeVerdict a b r) : ShapeVerdict b a (r.mapError ShapeFault.swap) := by
  cases h with
  | otherName hname => exact .otherName (Ne.symm hname)
  | oneShape hname hshape => exact .oneShape hname.symm hshape.symm
  | fieldCount hname hcount =>
      have hswap := ShapeVerdict.fieldCount hname.symm (Ne.symm hcount)
      rwa [← hname] at hswap
  | fieldNames hname hcount hshape =>
      have hswap := ShapeVerdict.fieldNames hname.symm hcount.symm (Ne.symm hshape)
      rwa [← hname] at hswap

end ShapeVerdict

theorem sameShape_eq_iff : a.sameShape b = r ↔ ShapeVerdict a b r := by
  constructor
  · rintro rfl
    exact sameShape_verdict a b
  · exact (sameShape_verdict a b).unique

theorem sameShape_eq_true_iff :
    a.sameShape b = .ok true ↔ a.name = b.name ∧ a.fieldNames = b.fieldNames := by
  rw [sameShape_eq_iff]
  constructor
  · rintro ⟨⟩
    exact ⟨‹_›, ‹_›⟩
  · rintro ⟨hname, hshape⟩
    exact .oneShape hname hshape

theorem sameShape_refl (a : Struct Ty) : a.sameShape a = .ok true :=
  sameShape_eq_true_iff.mpr ⟨rfl, rfl⟩

theorem sameShape_reports {f : ShapeFault} (h : a.sameShape b = .error f) :
    f.name = a.name ∧ f.left = a.key ∧ f.right = b.key := by
  cases sameShape_eq_iff.mp h with
  | fieldCount => exact ⟨rfl, rfl, rfl⟩
  | fieldNames => exact ⟨rfl, rfl, rfl⟩

/-! ## Shapes against keys -/

theorem eq_of_key_eq (ha : (Ty.struct a).WellFormed) (hb : (Ty.struct b).WellFormed)
    (h : a.key = b.key) : a = b :=
  Ty.struct.inj (ha.key_inj hb h)

/-- What the comparison of two structs by shape says, and how it goes with their keys. -/
structure ComparesShapes (a b : Struct Ty) : Prop where
  otherName_iff : a.sameShape b = .ok false ↔ a.name ≠ b.name
  oneShape_iff : a.sameShape b = .ok true ↔ a.name = b.name ∧ a.fieldNames = b.fieldNames
  fieldCount_iff : (∃ f, a.sameShape b = .error f ∧ f.mismatch = .fieldCount) ↔
    a.name = b.name ∧ a.fields.length ≠ b.fields.length
  fieldNames_iff : (∃ f, a.sameShape b = .error f ∧ f.mismatch = .fieldNames) ↔
    a.name = b.name ∧ a.fields.length = b.fields.length ∧ a.fieldNames ≠ b.fieldNames
  reports : ∀ f, a.sameShape b = .error f → f.name = a.name ∧ f.left = a.key ∧ f.right = b.key
  /-- The other way round the answer is the same, with the keys of a fault exchanged. -/
  swapped : b.sameShape a = (a.sameShape b).mapError ShapeFault.swap
  /-- One type, one shape. -/
  of_same : (Ty.struct a).same (.struct b) = true → a.sameShape b = .ok true
  /-- A fault never reports one key twice. -/
  apart : ∀ f, a.sameShape b = .error f → f.left ≠ f.right

theorem comparesShapes (ha : (Ty.struct a).WellFormed) (hb : (Ty.struct b).WellFormed) :
    a.ComparesShapes b where
  otherName_iff := by
    rw [sameShape_eq_iff]
    constructor
    · rintro ⟨⟩
      assumption
    · exact .otherName
  oneShape_iff := sameShape_eq_true_iff
  fieldCount_iff := by
    constructor
    · rintro ⟨f, hf, hkind⟩
      cases sameShape_eq_iff.mp hf with
      | fieldCount hname hcount => exact ⟨hname, hcount⟩
      | fieldNames => cases hkind
    · rintro ⟨hname, hcount⟩
      exact ⟨_, sameShape_eq_iff.mpr (.fieldCount hname hcount), rfl⟩
  fieldNames_iff := by
    constructor
    · rintro ⟨f, hf, hkind⟩
      cases sameShape_eq_iff.mp hf with
      | fieldCount => cases hkind
      | fieldNames hname hcount hshape => exact ⟨hname, hcount, hshape⟩
    · rintro ⟨hname, hcount, hshape⟩
      exact ⟨_, sameShape_eq_iff.mpr (.fieldNames hname hcount hshape), rfl⟩
  reports := fun _ => sameShape_reports
  swapped := sameShape_eq_iff.mpr (sameShape_verdict a b).swap
  of_same := by
    intro hsame
    rw [eq_of_key_eq ha hb (Ty.same_iff.mp hsame)]
    exact sameShape_refl b
  apart := by
    intro f hf hkeys
    obtain ⟨-, hleft, hright⟩ := sameShape_reports hf
    rw [hleft, hright] at hkeys
    rw [eq_of_key_eq ha hb hkeys, sameShape_refl] at hf
    cases hf

/-! ## Families with one shape per name -/

/-- Structs of one name have one sequence of field names. -/
def OneShapePerName (family : Set (Struct Ty)) : Prop :=
  ∀ a ∈ family, ∀ b ∈ family, a.name = b.name → a.fieldNames = b.fieldNames

theorem OneShapePerName.sameStruct_eq {family : Set (Struct Ty)} (h : OneShapePerName family)
    (ha : a ∈ family) (hb : b ∈ family) : a.sameStruct b = .ok (decide (a.name = b.name)) := by
  unfold sameStruct
  by_cases hname : a.name = b.name
  · rw [sameShape_eq_true_iff.mpr ⟨hname, h a ha b hb hname⟩, decide_eq_true hname]
  · rw [sameShape_eq_iff.mpr (.otherName hname), decide_eq_false hname]

/-- The comparison of structs by shape: what it answers, that structs of one type have one shape and
structs of different shapes different keys, that sharing name and shape is an equivalence, and that
names suffice where each has one shape. -/
theorem sameShape_agreesWithKeys :
    (∀ a b : Struct Ty, (Ty.struct a).Constructible → (Ty.struct b).Constructible →
      a.ComparesShapes b) ∧
    Equivalence (fun a b : Struct Ty => a.sameShape b = .ok true) ∧
    ∀ family : Set (Struct Ty), OneShapePerName family →
      ∀ a ∈ family, ∀ b ∈ family, a.sameStruct b = .ok (decide (a.name = b.name)) := by
  refine ⟨fun a b ha hb => comparesShapes ha.wellFormed hb.wellFormed, ⟨sameShape_refl, ?_, ?_⟩,
    fun family h a ha b hb => h.sameStruct_eq ha hb⟩
  · intro a b h
    obtain ⟨hname, hshape⟩ := sameShape_eq_true_iff.mp h
    exact sameShape_eq_true_iff.mpr ⟨hname.symm, hshape.symm⟩
  · intro a b c hab hbc
    obtain ⟨hname, hshape⟩ := sameShape_eq_true_iff.mp hab
    obtain ⟨hname', hshape'⟩ := sameShape_eq_true_iff.mp hbc
    exact sameShape_eq_true_iff.mpr ⟨hname.trans hname', hshape.trans hshape'⟩

def planePoint : Struct Ty := .of "Point" [⟨"x", .any⟩, ⟨"y", .any⟩]

/-- A point with one field, whose name reads like the two fields. -/
def lookalikePoint : Struct Ty := .of "Point" [⟨"x: any, y", .any⟩]

/-- A point with the same two field names and other types. -/
def namedPoint : Struct Ty := .of "Point" [⟨"x", .string .all⟩, ⟨"y", .string .all⟩]

theorem sameShape_agreesWithKeys_points :
    ((Ty.struct planePoint).Constructible ∧ (Ty.struct lookalikePoint).Constructible) ∧
    planePoint.ComparesShapes lookalikePoint ∧
    OneShapePerName {planePoint, namedPoint} ∧ planePoint.sameStruct namedPoint = .ok true := by
  have hplane : (Ty.struct planePoint).Constructible := .struct _ (by simp [Ty.Constructible.any])
  have hlookalike : (Ty.struct lookalikePoint).Constructible :=
    .struct _ (by simp [Ty.Constructible.any])
  have hfamily : OneShapePerName {planePoint, namedPoint} := by
    rintro a (rfl | rfl) b (rfl | rfl) -
    all_goals rfl
  exact ⟨⟨hplane, hlookalike⟩, sameShape_agreesWithKeys.1 _ _ hplane hlookalike, hfamily,
    sameShape_agreesWithKeys.2.2 _ hfamily _ (Or.inl rfl) _ (Or.inr rfl)⟩

end Struct
end TypeGraph
