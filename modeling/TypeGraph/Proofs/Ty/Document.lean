/-
# Types survive their documents

A type is written through its description and read back through it.  Reading undoes writing for any
description, checked or not (`Description.ofJson_toJson`).  Building undoes describing for
well-formed types only (`build_describe`): the constructors check, sort and flatten once more, and
change nothing because bounds are in order, numbers in their one spelling, and unions flat and
ascending.

An infinite bound is left open on either side and an infinite literal becomes a word.  That this
takes care of all infinities is again due to the order of bounds: a lower bound is not infinity, and
an upper one not negative infinity (`finite_toJson`).
-/
import TypeGraph.Proofs.Json.Record
import TypeGraph.Proofs.Ty.WellFormed

namespace TypeGraph

/-! ## Reading what was written -/

namespace Description

theorem literalNumber_literalDocument (x : Binary64) :
    literalNumber (literalDocument x) = .ok x := by
  unfold literalDocument
  split
  · next h => rw [h]; rfl
  · split
    · next h => rw [h]; rfl
    · rfl

theorem optionalNumber_boundDocument (b : Option Binary64) :
    (boundDocument b).optionalNumber = .ok b := by
  cases b with
  | none => rfl
  | some x => rfl

theorem readBounds_eq {members : List (String × Json)} {min max : Option Binary64}
    (hmin : members.lookup "min" = some (boundDocument min))
    (hmax : members.lookup "max" = some (boundDocument max)) :
    readBounds (.keyed (Json.memberParts members)) = .ok (min, max) :=
  bind_eq_ok (Record.read?_keyed hmin (optionalNumber_boundDocument min) 0)
    (bind_eq_ok (Record.read?_keyed hmax (optionalNumber_boundDocument max) 1) rfl)

mutual

theorem ofJson_toJson : ∀ d : Description, ofJson d.toJson = .ok d
  | .never => by rw [toJson, ofJson]; rfl
  | .any => by rw [toJson, ofJson]; rfl
  | .number => by rw [toJson, ofJson]; rfl
  | .string => by rw [toJson, ofJson]; rfl
  | .numberLiteral v => by
      rw [toJson, ofJson]
      refine bind_eq_ok rfl ?_
      exact bind_eq_ok (Record.read?_keyed (f := literalNumber) rfl
        (literalNumber_literalDocument v) 0) rfl
  | .stringLiteral s => by
      rw [toJson, ofJson]
      refine bind_eq_ok rfl ?_
      exact bind_eq_ok (Record.read?_text rfl 0) rfl
  | .interval min max => by
      rw [toJson, ofJson]
      refine bind_eq_ok rfl ?_
      exact bind_eq_ok (readBounds_eq rfl rfl) rfl
  | .intInterval min max => by
      rw [toJson, ofJson]
      refine bind_eq_ok rfl ?_
      exact bind_eq_ok (readBounds_eq rfl rfl) rfl
  | .struct name fields => by
      have hfields := fieldsOfJson_toJson fields
      rw [toJson, ofJson]
      refine bind_eq_ok rfl ?_
      refine bind_eq_ok (Record.read?_text rfl 0) ?_
      exact bind_eq_ok (Record.read?_elements rfl hfields 1) rfl
  | .union items => by
      have hitems := itemsOfJson_toJson items
      rw [toJson, ofJson]
      refine bind_eq_ok rfl ?_
      exact bind_eq_ok (Record.read?_elements rfl hitems 0) rfl

theorem fieldsOfJson_toJson : ∀ fields : List (Field Description),
    (fieldsToJson fields).mapM fieldOfJson = .ok fields
  | [] => by rw [fieldsToJson]; rfl
  | ⟨name, d⟩ :: rest => by
      have hfield : fieldOfJson (.obj [("name", .str name), ("type", d.toJson)])
          = .ok ⟨name, d⟩ := by
        rw [fieldOfJson]
        refine bind_eq_ok rfl ?_
        refine bind_eq_ok (Record.read?_text rfl 0) ?_
        exact bind_eq_ok (Record.read?_keyed rfl (ofJson_toJson d) 1) rfl
      rw [fieldsToJson, List.mapM_cons]
      exact bind_eq_ok hfield (bind_eq_ok (fieldsOfJson_toJson rest) rfl)

theorem itemsOfJson_toJson : ∀ items : List Description,
    (itemsToJson items).mapM ofJson = .ok items
  | [] => by rw [itemsToJson]; rfl
  | d :: rest => by
      rw [itemsToJson, List.mapM_cons]
      exact bind_eq_ok (ofJson_toJson d) (bind_eq_ok (itemsOfJson_toJson rest) rfl)

end

end Description

/-! ## Building what was described -/

namespace NumberType

theorem spelled_eq_ok {x : Binary64} (h : x.Spelled) : spelled x = .ok x := by
  match x, h with
  | .nan, h => exact absurd rfl h.1
  | .signed negative m, h =>
      have hsame : (if m.rank = 0 then Binary64.zero else .signed negative m)
          = .signed negative m := by
        split
        · next hzero =>
            have hm : m = .zero := Magnitude.ext hzero
            subst hm
            cases negative with
            | false => rfl
            | true => exact absurd rfl h.2
        · rfl
      exact congrArg Except.ok hsame

theorem strictBounds_eq_ok {min max : Binary64} (hmin : min.Spelled) (hmax : max.Spelled)
    (h : min.Below max) : strictBounds min max = .ok (min, max) := by
  refine bind_eq_ok (spelled_eq_ok hmin) (bind_eq_ok (spelled_eq_ok hmax) ?_)
  rw [if_neg]
  · rfl
  · match min, max, h with
    | .signed s a, .signed t b, h =>
        intro hle
        exact Int.not_le.mpr h (of_decide_eq_true hle)

end NumberType

namespace Ty

theorem lowerBound_openLower (x : Binary64) : Description.lowerBound (openLower x) = x := by
  unfold openLower
  split
  · next h => rw [h]; rfl
  · rfl

theorem upperBound_openUpper (x : Binary64) : Description.upperBound (openUpper x) = x := by
  unfold openUpper
  split
  · next h => rw [h]; rfl
  · rfl

theorem build_describe_number : ∀ {n : NumberType}, n.Valid →
    (Ty.number n).describe.build = .ok (.number n)
  | .all, _ => by rw [describe, Description.build]; rfl
  | .literal v, h => by
      rw [describe, Description.build]
      exact bind_eq_ok (bind_eq_ok (NumberType.spelled_eq_ok h) rfl) rfl
  | .interval min max, h => by
      rw [describe, Description.build, lowerBound_openLower, upperBound_openUpper]
      exact bind_eq_ok (bind_eq_ok (NumberType.strictBounds_eq_ok h.1 h.2.1 h.2.2) rfl) rfl
  | .intInterval min max, h => by
      obtain ⟨⟨hmin, hmax, hbelow⟩, hints⟩ := h
      rw [describe, Description.build, lowerBound_openLower, upperBound_openUpper]
      refine bind_eq_ok (bind_eq_ok (NumberType.strictBounds_eq_ok hmin hmax hbelow) ?_) rfl
      exact if_pos (Bool.and_eq_true_iff.mpr hints)

end Ty

namespace Union

theorem firstsAfter_of_ascending {key : String} {l : List Keyed}
    (h : (key :: l.map (·.1)).Pairwise (· < ·)) : firstsAfter key l = l := by
  induction l generalizing key with
  | nil => rfl
  | cons t rest ih =>
      have hrest := List.pairwise_cons.mp h
      have hne : t.1 ≠ key := fun he =>
        String.lt_irrefl key (he ▸ hrest.1 t.1 List.mem_cons_self)
      rw [firstsAfter, if_neg hne, ih hrest.2]

theorem firsts_of_ascending {l : List Keyed} (h : (l.map (·.1)).Pairwise (· < ·)) :
    firsts l = l := by
  cases l with
  | nil => rfl
  | cons t rest => rw [firsts, firstsAfter_of_ascending h]

theorem canonical_of_ascending {ts : List Ty} (h : (ts.map Ty.key).Pairwise (· < ·)) :
    canonical ts = ts.map fun t => (t.key, t) := by
  have hkeys : ((ts.map fun t => (t.key, t)).map (·.1)).Pairwise (· < ·) := by
    rwa [List.map_map]
  have hsorted : (ts.map fun t => (t.key, t)).Pairwise fun a b => decide (a.1 ≤ b.1) = true :=
    (List.pairwise_map.mp hkeys).imp fun hlt => decide_eq_true (Std.le_of_lt hlt)
  rw [canonical, List.mergeSort_of_pairwise hsorted, firsts_of_ascending hkeys]

theorem flatMap_leaves_of_flat {ts : List Ty} (h : ∀ t ∈ ts, t.family ≠ .union) :
    ts.flatMap Ty.leaves = ts := by
  induction ts with
  | nil => rfl
  | cons t rest ih =>
      have ht : t.leaves = [t] := by
        cases t with
        | union u => exact absurd rfl (h _ List.mem_cons_self)
        | _ => rfl
      rw [List.flatMap_cons, ht, ih fun s hs => h s (List.mem_cons_of_mem _ hs)]
      rfl

theorem of_eq {members : List Ty} (hflat : ∀ t ∈ members, t.family ≠ .union)
    (hascending : (members.map Ty.key).Pairwise (· < ·)) :
    Union.of members = ⟨members, keyText (members.map Ty.key)⟩ := by
  simp only [Union.of, flatMap_leaves_of_flat hflat, canonical_of_ascending hascending,
    List.map_map]
  exact congrArg (Union.mk · _) (List.map_id members)

end Union

namespace Ty

theorem buildFields_describeFields : ∀ {fields : List (Field Ty)},
    (∀ f ∈ fields, f.value.describe.build = .ok f.value) →
    Description.buildFields (describeFields fields) = .ok fields
  | [], _ => by rw [describeFields, Description.buildFields]; rfl
  | ⟨name, t⟩ :: rest, h => by
      have hrest := buildFields_describeFields fun f hf => h f (List.mem_cons_of_mem _ hf)
      rw [describeFields, Description.buildFields]
      exact bind_eq_ok (h _ List.mem_cons_self) (bind_eq_ok hrest rfl)

theorem buildItems_describeMembers : ∀ {members : List Ty},
    (∀ t ∈ members, t.describe.build = .ok t) →
    Description.buildItems (describeMembers members) = .ok members
  | [], _ => by rw [describeMembers, Description.buildItems]; rfl
  | t :: rest, h => by
      have hrest := buildItems_describeMembers fun s hs => h s (List.mem_cons_of_mem _ hs)
      rw [describeMembers, Description.buildItems]
      exact bind_eq_ok (h t List.mem_cons_self) (bind_eq_ok hrest rfl)

/-- A well-formed type is built from its description: by induction on its form. -/
theorem WellFormed.build_describe {t : Ty} (h : t.WellFormed) : t.describe.build = .ok t := by
  induction h with
  | never => rw [describe, Description.build]; rfl
  | any => rw [describe, Description.build]; rfl
  | number h => exact build_describe_number h
  | string s =>
      cases s with
      | all => rw [describe, Description.build]; rfl
      | literal value => rw [describe, Description.build]; rfl
  | struct name h ih =>
      rw [Struct.of, describe, Description.build]
      exact bind_eq_ok (buildFields_describeFields ih) rfl
  | union h hflat hascending ih =>
      rw [describe, Description.build]
      refine bind_eq_ok (buildItems_describeMembers ih) ?_
      -- the union is made anew from its own members
      rw [Union.of_eq hflat hascending]
      rfl

end Ty

/-! ## Documents of types hold no infinity -/

namespace Binary64

theorem isFinite_of_ne {x : Binary64} (hnan : x ≠ .nan) (hinf : x ≠ .infinity)
    (hneg : x ≠ .negInfinity) : x.IsFinite := by
  match x with
  | .nan => exact absurd rfl hnan
  | .signed negative m =>
      by_cases h : m.isFinite = true
      · exact ⟨negative, m, rfl, h⟩
      · rcases eq_infinity_or_negInfinity h with h | h
        · exact absurd h hinf
        · exact absurd h hneg

theorem place_bounds (negative : Bool) (m : Magnitude) :
    -(infinityRank : Int) ≤ place negative m ∧ place negative m ≤ infinityRank := by
  have hle := m.rank_le
  unfold place
  split
  · omega
  · omega

theorem Below.ne_infinity {x y : Binary64} (h : x.Below y) : x ≠ .infinity := by
  rintro rfl
  match y, h with
  | .signed negative m, h => exact absurd (place_bounds negative m).2 (Int.not_le.mpr h)

theorem Below.ne_negInfinity {x y : Binary64} (h : x.Below y) : y ≠ .negInfinity := by
  rintro rfl
  match x, h with
  | .signed negative m, h => exact absurd (place_bounds negative m).1 (Int.not_le.mpr h)

end Binary64

namespace Ty

theorem finite_literalDocument {x : Binary64} (h : x ≠ .nan) :
    (Description.literalDocument x).Finite := by
  unfold Description.literalDocument
  split
  · exact .str _
  · next hinf =>
      split
      · exact .str _
      · next hneg => exact .num (Binary64.isFinite_of_ne h hinf hneg)

theorem finite_lowerDocument {x : Binary64} (hnan : x ≠ .nan) (hinf : x ≠ .infinity) :
    (Description.boundDocument (openLower x)).Finite := by
  unfold openLower
  split
  · exact .null
  · next hneg => exact .num (Binary64.isFinite_of_ne hnan hinf hneg)

theorem finite_upperDocument {x : Binary64} (hnan : x ≠ .nan) (hneg : x ≠ .negInfinity) :
    (Description.boundDocument (openUpper x)).Finite := by
  unfold openUpper
  split
  · exact .null
  · next hinf => exact .num (Binary64.isFinite_of_ne hnan hinf hneg)

/-- Each side of an interval leaves open the one infinity that it can be. -/
theorem finite_bounds (tag : String) {min max : Binary64} (hmin : min.Spelled) (hmax : max.Spelled)
    (h : min.Below max) :
    (Json.obj [("type", .str tag), ("min", Description.boundDocument (openLower min)),
      ("max", Description.boundDocument (openUpper max))]).Finite := by
  have hlower := finite_lowerDocument hmin.ne_nan h.ne_infinity
  have hupper := finite_upperDocument hmax.ne_nan h.ne_negInfinity
  exact Json.finite_tagged tag (by simp [hlower, hupper])

theorem finite_number : ∀ {n : NumberType}, n.Valid → (Ty.number n).describe.toJson.Finite
  | .all, _ => by
      rw [describe, Description.toJson]
      exact Json.finite_tagged _ nofun
  | .literal v, h => by
      rw [describe, Description.toJson]
      exact Json.finite_tagged _ (List.forall_mem_singleton.mpr (finite_literalDocument h.ne_nan))
  | .interval min max, h => by
      rw [describe, Description.toJson]
      exact finite_bounds _ h.1 h.2.1 h.2.2
  | .intInterval min max, h => by
      rw [describe, Description.toJson]
      exact finite_bounds _ h.1.1 h.1.2.1 h.1.2.2

theorem finite_fieldsToJson {fields : List (Field Ty)}
    (h : ∀ f ∈ fields, f.value.describe.toJson.Finite) :
    ∀ j ∈ Description.fieldsToJson (describeFields fields), j.Finite := by
  induction fields with
  | nil => rw [describeFields, Description.fieldsToJson]; exact nofun
  | cons f rest ih =>
      obtain ⟨hf, hrest⟩ := List.forall_mem_cons.mp h
      rw [describeFields, Description.fieldsToJson]
      refine List.forall_mem_cons.mpr ⟨.obj ?_, ih hrest⟩
      simp [hf, Json.Finite.str]

theorem finite_itemsToJson {members : List Ty} (h : ∀ t ∈ members, t.describe.toJson.Finite) :
    ∀ j ∈ Description.itemsToJson (describeMembers members), j.Finite := by
  induction members with
  | nil => rw [describeMembers, Description.itemsToJson]; exact nofun
  | cons t rest ih =>
      obtain ⟨ht, hrest⟩ := List.forall_mem_cons.mp h
      rw [describeMembers, Description.itemsToJson]
      exact List.forall_mem_cons.mpr ⟨ht, ih hrest⟩

theorem WellFormed.finite_toJson {t : Ty} (h : t.WellFormed) : t.toJson.Finite := by
  unfold toJson
  induction h with
  | never => rw [describe, Description.toJson]; exact Json.finite_tagged _ nofun
  | any => rw [describe, Description.toJson]; exact Json.finite_tagged _ nofun
  | number h => exact finite_number h
  | string s =>
      cases s with
      | all => rw [describe, Description.toJson]; exact Json.finite_tagged _ nofun
      | literal value =>
          rw [describe, Description.toJson]
          exact Json.finite_tagged _ (List.forall_mem_singleton.mpr (.str value))
  | struct name h ih =>
      rw [Struct.of, describe, Description.toJson]
      have hfields := Json.Finite.arr (finite_fieldsToJson ih)
      exact Json.finite_tagged _ (by simp [hfields, Json.Finite.str])
  | union h hflat hascending ih =>
      rw [describe, Description.toJson]
      exact Json.finite_tagged _ (List.forall_mem_singleton.mpr (.arr (finite_itemsToJson ih)))

/-! ## Types come back -/

theorem WellFormed.ofJson_toJson {t : Ty} (h : t.WellFormed) : ofJson t.toJson = .ok t := by
  refine bind_eq_ok (Description.ofJson_toJson t.describe) ?_
  rw [h.build_describe]
  rfl

/-- Every type that was constructed has a document that JSON can hold, the document reads back as
the description of the type, the description builds the type, and so the type is read back from its
document: the same type, part by part and with the same key. -/
theorem document_readsBack {t : Ty} (h : t.Constructible) :
    t.toJson.Finite ∧ Description.ofJson t.toJson = .ok t.describe ∧
      t.describe.build = .ok t ∧ ofJson t.toJson = .ok t := by
  have hwf : t.WellFormed := h.wellFormed
  exact ⟨hwf.finite_toJson, Description.ofJson_toJson t.describe, hwf.build_describe,
    hwf.ofJson_toJson⟩

example : toJson (.number (.interval .negInfinity .zero))
    = .obj [("type", .str "interval"), ("min", .null), ("max", .num .zero)] := rfl

/-- Infinities in the places that can hold one. -/
def openStruct : Ty :=
  .struct (.of "open" [⟨"below", .number (.interval .negInfinity .zero)⟩,
    ⟨"ints", .number (.intInterval .negInfinity .infinity)⟩,
    ⟨"ends", .union (.of [.number (.literal .infinity), .number (.literal .negInfinity)])⟩])

theorem document_readsBack_open : openStruct.Constructible ∧
    openStruct.toJson.Finite ∧ Description.ofJson openStruct.toJson = .ok openStruct.describe ∧
      openStruct.describe.build = .ok openStruct ∧ ofJson openStruct.toJson = .ok openStruct := by
  have hbelow : NumberType.ofBounds .negInfinity .zero = .ok (.interval .negInfinity .zero) := rfl
  have hints : NumberType.ofIntBounds .negInfinity .infinity
      = .ok (.intInterval .negInfinity .infinity) := rfl
  have hupper : NumberType.ofValue .infinity = .ok (.literal .infinity) := rfl
  have hlower : NumberType.ofValue .negInfinity = .ok (.literal .negInfinity) := rfl
  have hends : (Ty.union (.of [.number (.literal .infinity),
      .number (.literal .negInfinity)])).Constructible :=
    .union (by simp [Constructible.number (.ofValue hupper), Constructible.number (.ofValue hlower)])
  have h : openStruct.Constructible :=
    .struct _ (by simp [Constructible.number (.ofBounds hbelow),
      Constructible.number (.ofIntBounds hints), hends])
  exact ⟨h, document_readsBack h⟩

end Ty
end TypeGraph
