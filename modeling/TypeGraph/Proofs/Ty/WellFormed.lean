/-
# Well-formed types

Keys are worth something only for types that keep their promises: numbers in their one spelling,
bounds in order, unions flat and sorted, and a stored key that is the key of the parts.
`Ty.WellFormed` says all of this of a type and of everything inside it.

`Ty.Constructible` lists the ways to get hold of a type: every constructor, the types that
descriptions and documents describe, and the parts of types.  Whatever is got in one of these ways,
in any combination, is well formed (`Constructible.wellFormed`).
-/
import TypeGraph.Proofs.Except
import TypeGraph.Ty.Description.Document
import TypeGraph.Ty.Kind

namespace TypeGraph

/-! ## Numbers -/

namespace Binary64

/-- In its one spelling: not NaN, and not the negative zero. -/
def Spelled (x : Binary64) : Prop := x ≠ .nan ∧ x ≠ .signed true .zero

def Below : Binary64 → Binary64 → Prop
  | .signed s a, .signed t b => place s a < place t b
  | _, _ => False

theorem Spelled.ne_nan {x : Binary64} (h : x.Spelled) : x ≠ .nan := h.1

theorem below_of_not_atMost {x y : Binary64} (hx : x ≠ .nan) (hy : y ≠ .nan)
    (h : ¬ y.atMost x = true) : x.Below y := by
  match x, y, hx, hy with
  | .signed s a, .signed t b, _, _ =>
      simp only [atMost, decide_eq_true_eq] at h
      exact Int.not_le.mp h

theorem eq_infinity_or_negInfinity {negative : Bool} {m : Magnitude} (h : ¬ m.isFinite = true) :
    signed negative m = .infinity ∨ signed negative m = .negInfinity := by
  have hrank : m.rank = infinityRank :=
    Nat.le_antisymm m.rank_le (Nat.le_of_not_lt fun hlt => h (decide_eq_true hlt))
  have hm : m = .infinity := Magnitude.ext hrank
  subst hm
  cases negative with
  | false => exact Or.inl rfl
  | true => exact Or.inr rfl

end Binary64

namespace NumberType

/-- What the constructors of number types promise. -/
def Valid : NumberType → Prop
  | .all => True
  | .literal v => v.Spelled
  | .interval min max => min.Spelled ∧ max.Spelled ∧ min.Below max
  | .intInterval min max => (min.Spelled ∧ max.Spelled ∧ min.Below max) ∧
      isIntBound min = true ∧ isIntBound max = true

theorem spelled_of_eq_ok {x y : Binary64} (h : spelled x = .ok y) : y.Spelled := by
  match x with
  | .nan => cases h
  | .signed s m =>
      simp only [spelled, Binary64.normalize, Except.ok.injEq] at h
      subst h
      split
      · exact ⟨by decide, by decide⟩
      · next hne =>
          refine ⟨nofun, fun hz => hne ?_⟩
          injection hz with _ hm
          rw [hm]
          rfl

theorem strictBounds_spec {min max : Binary64} {bounds : Binary64 × Binary64}
    (h : strictBounds min max = .ok bounds) :
    bounds.1.Spelled ∧ bounds.2.Spelled ∧ bounds.1.Below bounds.2 := by
  obtain ⟨lo, hlo, h⟩ := bind_eq_ok_iff.mp h
  obtain ⟨hi, hhi, h⟩ := bind_eq_ok_iff.mp h
  have hslo := spelled_of_eq_ok hlo
  have hshi := spelled_of_eq_ok hhi
  split at h
  · cases h
  · next hle =>
      cases h
      exact ⟨hslo, hshi, Binary64.below_of_not_atMost hslo.ne_nan hshi.ne_nan hle⟩

theorem valid_ofValue {x : Binary64} {n : NumberType} (h : ofValue x = .ok n) : n.Valid := by
  obtain ⟨y, hy, h⟩ := bind_eq_ok_iff.mp h
  cases h
  exact spelled_of_eq_ok hy

theorem valid_ofBounds {min max : Binary64} {n : NumberType} (h : ofBounds min max = .ok n) :
    n.Valid := by
  obtain ⟨bounds, hbounds, h⟩ := bind_eq_ok_iff.mp h
  cases h
  exact strictBounds_spec hbounds

theorem valid_ofIntBounds {min max : Binary64} {n : NumberType}
    (h : ofIntBounds min max = .ok n) : n.Valid := by
  obtain ⟨⟨lo, hi⟩, hbounds, h⟩ := bind_eq_ok_iff.mp h
  simp only at h
  split at h
  · next hint =>
      cases h
      exact ⟨strictBounds_spec hbounds, Bool.and_eq_true_iff.mp hint⟩
  · cases h

theorem promised_eq_ok {r : Except BoundsFault NumberType} {n : NumberType} :
    promised r = .ok n ↔ r = .ok n := by
  cases r with
  | error fault => simp [promised]
  | ok m => simp [promised]

/-- What the constructors of number types make. -/
inductive Constructible : NumberType → Prop where
  | all : Constructible .all
  | ofValue {x : Binary64} {n : NumberType} (h : ofValue x = .ok n) : Constructible n
  | ofBounds {min max : Binary64} {n : NumberType} (h : ofBounds min max = .ok n) :
      Constructible n
  | ofIntBounds {min max : Binary64} {n : NumberType} (h : ofIntBounds min max = .ok n) :
      Constructible n
  | exactly {x : Binary64} {n : NumberType} (h : exactly x = .ok n) : Constructible n
  | strictlyBetween {min max : Binary64} {n : NumberType} (h : strictlyBetween min max = .ok n) :
      Constructible n
  | intsStrictlyBetween {min max : Binary64} {n : NumberType}
      (h : intsStrictlyBetween min max = .ok n) : Constructible n
  | between {min max : Binary64} {n : NumberType} (h : between min max = .ok n) : Constructible n
  | intsBetween {min max : Binary64} {n : NumberType} (h : intsBetween min max = .ok n) :
      Constructible n

theorem Constructible.valid {n : NumberType} (h : n.Constructible) : n.Valid := by
  cases h with
  | all => trivial
  | ofValue h => exact valid_ofValue h
  | ofBounds h => exact valid_ofBounds h
  | ofIntBounds h => exact valid_ofIntBounds h
  | exactly h => exact valid_ofValue (promised_eq_ok.mp h)
  | strictlyBetween h => exact valid_ofBounds (promised_eq_ok.mp h)
  | intsStrictlyBetween h => exact valid_ofIntBounds (promised_eq_ok.mp h)
  | between h =>
      unfold NumberType.between at h
      split at h
      · exact valid_ofValue (promised_eq_ok.mp h)
      · exact valid_ofBounds (promised_eq_ok.mp h)
  | intsBetween h =>
      unfold NumberType.intsBetween at h
      split at h
      · exact valid_ofValue (promised_eq_ok.mp h)
      · exact valid_ofIntBounds (promised_eq_ok.mp h)

end NumberType

/-! ## Canonical lists -/

namespace Union

theorem firstsAfter_sublist (key : String) (l : List Keyed) :
    (firstsAfter key l).Sublist l := by
  fun_induction firstsAfter key l with
  | case1 => exact .slnil
  | case2 t rest ih => exact ih.cons t
  | case3 key t rest h ih => exact ih.cons_cons t

/-- In a sorted list the firsts ascend strictly, starting above the given key. -/
theorem firstsAfter_ascending {key : String} {l : List Keyed}
    (hsorted : l.Pairwise fun a b => a.1 ≤ b.1) (habove : ∀ t ∈ l, key ≤ t.1) :
    (key :: (firstsAfter key l).map (·.1)).Pairwise (· < ·) := by
  fun_induction firstsAfter key l with
  | case1 => exact List.pairwise_singleton _ _
  | case2 t rest ih =>
      exact ih hsorted.of_cons fun s hs => habove s (List.mem_cons_of_mem _ hs)
  | case3 key t rest h ih =>
      have hrest := List.pairwise_cons.mp hsorted
      have ih := ih hrest.2 hrest.1
      have hlt : key < t.1 := Std.lt_of_le_of_ne (habove t List.mem_cons_self) (Ne.symm h)
      refine List.pairwise_cons.mpr ⟨fun k hk => ?_, ih⟩
      rcases List.mem_cons.mp hk with rfl | hk
      · exact hlt
      · exact String.lt_trans hlt ((List.pairwise_cons.mp ih).1 k hk)

theorem firsts_ascending {l : List Keyed} (hsorted : l.Pairwise fun a b => a.1 ≤ b.1) :
    ((firsts l).map (·.1)).Pairwise (· < ·) := by
  cases l with
  | nil => exact List.Pairwise.nil
  | cons t rest =>
      have h := List.pairwise_cons.mp hsorted
      exact firstsAfter_ascending h.2 h.1

theorem firsts_sublist (l : List Keyed) : (firsts l).Sublist l := by
  cases l with
  | nil => exact .slnil
  | cons t rest => exact (firstsAfter_sublist t.1 rest).cons_cons t

theorem of_mem_canonical {ts : List Ty} {p : Keyed} (h : p ∈ canonical ts) :
    p.2 ∈ ts ∧ p.1 = p.2.key := by
  have hmem := List.mem_mergeSort.mp ((firsts_sublist _).subset h)
  obtain ⟨t, ht, rfl⟩ := List.mem_map.mp hmem
  exact ⟨ht, rfl⟩

theorem canonical_ascending (ts : List Ty) : ((canonical ts).map (·.1)).Pairwise (· < ·) := by
  have htrans : ∀ a b c : Keyed, decide (a.1 ≤ b.1) = true → decide (b.1 ≤ c.1) = true →
      decide (a.1 ≤ c.1) = true := by
    intro a b c hab hbc
    exact decide_eq_true (String.le_trans (of_decide_eq_true hab) (of_decide_eq_true hbc))
  have htotal : ∀ a b : Keyed, (decide (a.1 ≤ b.1) || decide (b.1 ≤ a.1)) = true := by
    intro a b
    rw [Bool.or_eq_true, decide_eq_true_eq, decide_eq_true_eq]
    exact String.le_total a.1 b.1
  exact firsts_ascending
    ((List.pairwise_mergeSort htrans htotal _).imp fun h => of_decide_eq_true h)

end Union

/-! ## Types -/

namespace Ty

/-- What the constructors of types promise, of a type and of everything inside it. -/
inductive WellFormed : Ty → Prop where
  | never : WellFormed .never
  | any : WellFormed .any
  | number {n : NumberType} (h : n.Valid) : WellFormed (.number n)
  | string (s : StringType) : WellFormed (.string s)
  | struct (name : String) {fields : List (Field Ty)} (h : ∀ f ∈ fields, WellFormed f.value) :
      WellFormed (.struct (.of name fields))
  /-- A union is flat and its members ascend by key. -/
  | union {members : List Ty} (h : ∀ t ∈ members, WellFormed t)
      (hflat : ∀ t ∈ members, t.family ≠ .union)
      (hascending : (members.map key).Pairwise (· < ·)) :
      WellFormed (.union ⟨members, Union.keyText (members.map key)⟩)

theorem WellFormed.leaves {t : Ty} (h : t.WellFormed) :
    ∀ l ∈ t.leaves, l.WellFormed ∧ l.family ≠ .union := by
  have hself : ∀ {s : Ty}, s.WellFormed → s.family ≠ .union → ∀ l ∈ [s],
      l.WellFormed ∧ l.family ≠ .union := by
    intro s hs hfamily l hl
    rw [List.mem_singleton.mp hl]
    exact ⟨hs, hfamily⟩
  cases h with
  | never => exact hself .never nofun
  | any => exact hself .any nofun
  | number h => exact hself (.number h) nofun
  | string s => exact hself (.string s) nofun
  | struct name h => exact hself (.struct name h) nofun
  | union h hflat hascending => exact fun l hl => ⟨h l hl, hflat l hl⟩

/-- The union of well-formed types is flat, sorted and rightly labelled. -/
theorem wellFormed_union {ts : List Ty} (h : ∀ t ∈ ts, t.WellFormed) :
    (Ty.union (.of ts)).WellFormed := by
  have hleaf : ∀ p ∈ Union.canonical (ts.flatMap leaves),
      (p.2.WellFormed ∧ p.2.family ≠ .union) ∧ p.1 = p.2.key := by
    intro p hp
    obtain ⟨hmem, hkey⟩ := Union.of_mem_canonical hp
    obtain ⟨t, ht, hl⟩ := List.mem_flatMap.mp hmem
    exact ⟨(h t ht).leaves p.2 hl, hkey⟩
  have hkeys : (Union.canonical (ts.flatMap leaves)).map (·.1)
      = ((Union.canonical (ts.flatMap leaves)).map (·.2)).map key := by
    rw [List.map_map]
    exact List.map_congr_left fun p hp => (hleaf p hp).2
  show (Ty.union ⟨(Union.canonical (ts.flatMap leaves)).map (·.2),
    Union.keyText ((Union.canonical (ts.flatMap leaves)).map (·.1))⟩).WellFormed
  rw [hkeys]
  refine .union ?_ ?_ (hkeys ▸ Union.canonical_ascending _)
  · intro t ht
    obtain ⟨p, hp, rfl⟩ := List.mem_map.mp ht
    exact (hleaf p hp).1.1
  · intro t ht
    obtain ⟨p, hp, rfl⟩ := List.mem_map.mp ht
    exact (hleaf p hp).1.2

end Ty

/-! ## Described types -/

namespace Description

mutual

theorem wellFormed_build : ∀ (d : Description) {t : Ty}, d.build = .ok t → t.WellFormed
  | .never, _, h => by cases h; exact .never
  | .any, _, h => by cases h; exact .any
  | .number, _, h => by cases h; exact .number trivial
  | .string, _, h => by cases h; exact .string _
  | .numberLiteral v, _, h => by
      obtain ⟨n, hn, h⟩ := bind_eq_ok_iff.mp h
      cases h
      exact .number (NumberType.valid_ofValue hn)
  | .stringLiteral s, _, h => by cases h; exact .string _
  | .interval min max, _, h => by
      obtain ⟨n, hn, h⟩ := bind_eq_ok_iff.mp h
      cases h
      exact .number (NumberType.valid_ofBounds hn)
  | .intInterval min max, _, h => by
      obtain ⟨n, hn, h⟩ := bind_eq_ok_iff.mp h
      cases h
      exact .number (NumberType.valid_ofIntBounds hn)
  | .struct name fields, _, h => by
      obtain ⟨fs, hfs, h⟩ := bind_eq_ok_iff.mp h
      cases h
      exact .struct name (wellFormed_buildFields fields hfs)
  | .union items, _, h => by
      obtain ⟨ts, hts, h⟩ := bind_eq_ok_iff.mp h
      cases h
      exact Ty.wellFormed_union (wellFormed_buildItems items hts)

theorem wellFormed_buildFields : ∀ (fields : List (Field Description)) {fs : List (Field Ty)},
    buildFields fields = .ok fs → ∀ f ∈ fs, f.value.WellFormed
  | [], _, h, f, hf => by cases h; cases hf
  | ⟨name, d⟩ :: rest, _, h, f, hf => by
      obtain ⟨t, ht, h⟩ := bind_eq_ok_iff.mp h
      obtain ⟨fs, hfs, h⟩ := bind_eq_ok_iff.mp h
      cases h
      rcases List.mem_cons.mp hf with rfl | hf
      · exact wellFormed_build d ht
      · exact wellFormed_buildFields rest hfs f hf

theorem wellFormed_buildItems : ∀ (items : List Description) {ts : List Ty},
    buildItems items = .ok ts → ∀ t ∈ ts, t.WellFormed
  | [], _, h, t, ht => by cases h; cases ht
  | d :: rest, _, h, t, ht => by
      obtain ⟨s, hs, h⟩ := bind_eq_ok_iff.mp h
      obtain ⟨ts, hts, h⟩ := bind_eq_ok_iff.mp h
      cases h
      rcases List.mem_cons.mp ht with rfl | ht
      · exact wellFormed_build d hs
      · exact wellFormed_buildItems rest hts t ht

end

end Description

/-! ## All ways to get a type -/

namespace Ty

/-- The types that can be got hold of. -/
inductive Constructible : Ty → Prop where
  | never : Constructible .never
  | any : Constructible .any
  | number {n : NumberType} (h : n.Constructible) : Constructible (.number n)
  | string (s : StringType) : Constructible (.string s)
  | struct (name : String) {fields : List (Field Ty)} (h : ∀ f ∈ fields, Constructible f.value) :
      Constructible (.struct (.of name fields))
  | union {ts : List Ty} (h : ∀ t ∈ ts, Constructible t) : Constructible (.union (.of ts))
  | described {d : Description} {t : Ty} (h : d.build = .ok t) : Constructible t
  | document {j : Json} {t : Ty} (h : ofJson j = .ok t) : Constructible t
  /-- A field taken out of a struct. -/
  | field {s : Struct Ty} {f : Field Ty} (hs : Constructible (.struct s)) (hf : f ∈ s.fields) :
      Constructible f.value
  /-- A member taken out of a union. -/
  | member {u : Union Ty} {t : Ty} (hu : Constructible (.union u)) (ht : t ∈ u.members) :
      Constructible t

/-- However a type was got, it is well formed: by induction on the way it was got. -/
theorem Constructible.wellFormed {t : Ty} (h : t.Constructible) : t.WellFormed := by
  induction h with
  | never => exact .never
  | any => exact .any
  | number h => exact .number h.valid
  | string s => exact .string s
  | struct name h ih => exact .struct name ih
  | union h ih => exact wellFormed_union ih
  | described h => exact Description.wellFormed_build _ h
  | document h =>
      obtain ⟨d, -, h⟩ := bind_eq_ok_iff.mp h
      split at h
      · next t ht =>
          cases h
          exact Description.wellFormed_build d ht
      · cases h
  | field hs hf ih =>
      cases ih with
      | struct name h => exact h _ hf
  | member hu ht ih =>
      cases ih with
      | union h hflat hascending => exact h _ ht

end Ty
end TypeGraph
