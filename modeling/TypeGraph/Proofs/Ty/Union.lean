/-
# Unions are sets

A union is made from a list: unions in the list are replaced by their members, the rest is sorted by
key, and of neighbours with one key only the first is kept.  Nothing of the list shows in the result
but which leaves it has.  One lemma carries this: the members of the union of well-formed types are
the leaves of the list (`mem_members_of`).  Sorting and dropping cannot lose a leaf, because a
dropped element has the key of a kept one, and well-formed types with one key are one type.

Members ascend by key, so a union is determined by which members it has (`eq_of_mem_iff`).  Order,
repetition and grouping of the list change no leaf, at whatever depth types are grouped
(`mem_leaves_toTy`), so they do not change the union.
-/
import TypeGraph.Proofs.Ty.Key

namespace TypeGraph

/-! ## No key is lost -/

namespace Union

theorem exists_mem_firstsAfter {key : String} {l : List Keyed} {t : Keyed} (ht : t ∈ l) :
    t.1 = key ∨ ∃ p ∈ firstsAfter key l, p.1 = t.1 := by
  fun_induction firstsAfter key l with
  | case1 => cases ht
  | case2 s rest ih =>
      rcases List.mem_cons.mp ht with rfl | ht
      · exact Or.inl rfl
      · exact ih ht
  | case3 key s rest hne ih =>
      rcases List.mem_cons.mp ht with rfl | ht
      · exact Or.inr ⟨t, List.mem_cons_self, rfl⟩
      · rcases ih ht with hkey | ⟨p, hp, hkey⟩
        -- the element was dropped behind `s`, which has its key
        · exact Or.inr ⟨s, List.mem_cons_self, hkey.symm⟩
        · exact Or.inr ⟨p, List.mem_cons_of_mem _ hp, hkey⟩

theorem exists_mem_firsts {l : List Keyed} {t : Keyed} (ht : t ∈ l) :
    ∃ p ∈ firsts l, p.1 = t.1 := by
  cases l with
  | nil => cases ht
  | cons s rest =>
      rcases List.mem_cons.mp ht with rfl | ht
      · exact ⟨t, List.mem_cons_self, rfl⟩
      · rcases exists_mem_firstsAfter ht with hkey | ⟨p, hp, hkey⟩
        · exact ⟨s, List.mem_cons_self, hkey.symm⟩
        · exact ⟨p, List.mem_cons_of_mem _ hp, hkey⟩

theorem exists_mem_canonical {ts : List Ty} {t : Ty} (ht : t ∈ ts) :
    ∃ p ∈ canonical ts, p.2.key = t.key := by
  have hkeyed : (t.key, t) ∈ (ts.map fun t => (t.key, t)).mergeSort
      fun a b => decide (a.1 ≤ b.1) :=
    List.mem_mergeSort.mpr (List.mem_map.mpr ⟨t, ht, rfl⟩)
  obtain ⟨p, hp, hkey⟩ := exists_mem_firsts hkeyed
  exact ⟨p, hp, (of_mem_canonical hp).2.symm.trans hkey⟩

/-! ## The members of a union -/

theorem wellFormed_of_mem_flatMap {ts : List Ty} (h : ∀ t ∈ ts, t.WellFormed) {l : Ty}
    (hl : l ∈ ts.flatMap Ty.leaves) : l.WellFormed := by
  obtain ⟨t, ht, hl⟩ := List.mem_flatMap.mp hl
  exact ((h t ht).leaves l hl).1

theorem mem_members_of {ts : List Ty} (h : ∀ t ∈ ts, t.WellFormed) {m : Ty} :
    m ∈ (Union.of ts).members ↔ m ∈ ts.flatMap Ty.leaves := by
  constructor
  · intro hm
    obtain ⟨p, hp, rfl⟩ := List.mem_map.mp hm
    exact (of_mem_canonical hp).1
  · intro hm
    obtain ⟨p, hp, hkey⟩ := exists_mem_canonical hm
    have hleaf : p.2.WellFormed := wellFormed_of_mem_flatMap h (of_mem_canonical hp).1
    have heq : p.2 = m := hleaf.key_inj (wellFormed_of_mem_flatMap h hm) hkey
    exact List.mem_map.mpr ⟨p, hp, heq⟩

theorem ascending_of_wellFormed {u : Union Ty} (h : (Ty.union u).WellFormed) :
    (u.members.map Ty.key).Pairwise (· < ·) := by
  cases h with
  | union _ _ hascending => exact hascending

theorem nodup_keys {u : Union Ty} (h : (Ty.union u).WellFormed) : (u.members.map Ty.key).Nodup := by
  refine (ascending_of_wellFormed h).imp fun {k k'} hlt heq => ?_
  subst heq
  exact String.lt_irrefl k hlt

theorem nodup_members {u : Union Ty} (h : (Ty.union u).WellFormed) : u.members.Nodup :=
  List.Pairwise.of_map Ty.key (fun _ _ hne heq => hne (congrArg Ty.key heq)) (nodup_keys h)

theorem eq_of_mem_iff {u v : Union Ty} (hu : (Ty.union u).WellFormed)
    (hv : (Ty.union v).WellFormed) (hmem : ∀ m, m ∈ u.members ↔ m ∈ v.members) : u = v := by
  have hperm : u.members.Perm v.members :=
    (List.perm_ext_iff_of_nodup (nodup_members hu) (nodup_members hv)).mpr hmem
  have hmembers : u.members = v.members := by
    refine List.Perm.eq_of_pairwise ?_ (List.pairwise_map.mp (ascending_of_wellFormed hu))
      (List.pairwise_map.mp (ascending_of_wellFormed hv)) hperm
    intro a b _ _ hab hba
    exact absurd (String.lt_trans hab hba) (String.lt_irrefl _)
  cases hu with
  | union _ _ _ =>
      cases hv with
      | union _ _ _ =>
          cases hmembers
          rfl

theorem of_eq_of_iff {xs ys : List Ty} (hxs : ∀ t ∈ xs, t.WellFormed)
    (hys : ∀ t ∈ ys, t.WellFormed) :
    Union.of xs = Union.of ys ↔ ∀ m, m ∈ xs.flatMap Ty.leaves ↔ m ∈ ys.flatMap Ty.leaves := by
  constructor
  · intro h m
    rw [← mem_members_of hxs, ← mem_members_of hys, h]
  · intro h
    refine eq_of_mem_iff (Ty.wellFormed_union hxs) (Ty.wellFormed_union hys) fun m => ?_
    rw [mem_members_of hxs, mem_members_of hys, h m]

end Union

namespace Ty

/-! ## Leaves -/

/-- A leaf of a list of types: an element that is no union, or a member of an element that is
one. -/
inductive LeafOf (ts : List Ty) : Ty → Prop where
  | element {t : Ty} (ht : t ∈ ts) (hno : ∀ u, t ≠ .union u) : LeafOf ts t
  | member {u : Union Ty} (hu : .union u ∈ ts) {t : Ty} (ht : t ∈ u.members) : LeafOf ts t

theorem leafOf_iff {ts : List Ty} {l : Ty} : LeafOf ts l ↔ l ∈ ts.flatMap leaves := by
  constructor
  · intro h
    cases h with
    | element ht hno =>
        refine List.mem_flatMap.mpr ⟨l, ht, ?_⟩
        cases l with
        | union u => exact absurd rfl (hno u)
        | _ => exact List.mem_singleton_self _
    | member hu ht => exact List.mem_flatMap.mpr ⟨_, hu, ht⟩
  · intro h
    obtain ⟨t, ht, hl⟩ := List.mem_flatMap.mp h
    cases t with
    | union u => exact .member ht hl
    | _ =>
        cases List.mem_singleton.mp hl
        exact .element ht nofun

/-- The leaves of the two lists are one set, where types count as one if they are the same. -/
def SameLeaves (xs ys : List Ty) : Prop :=
  (∀ a, LeafOf xs a → ∃ b, LeafOf ys b ∧ a.same b = true) ∧
    ∀ b, LeafOf ys b → ∃ a, LeafOf xs a ∧ a.same b = true

theorem WellFormed.same_iff_eq {a b : Ty} (ha : a.WellFormed) (hb : b.WellFormed) :
    a.same b = true ↔ a = b := by
  constructor
  · intro h
    exact ha.key_inj hb (beq_iff_eq.mp h)
  · rintro rfl
    exact beq_self_eq_true a.key

theorem sameLeaves_iff {xs ys : List Ty} (hxs : ∀ t ∈ xs, t.WellFormed)
    (hys : ∀ t ∈ ys, t.WellFormed) :
    SameLeaves xs ys ↔ ∀ m, m ∈ xs.flatMap leaves ↔ m ∈ ys.flatMap leaves := by
  have hsame : ∀ a b, LeafOf xs a → LeafOf ys b → (a.same b = true ↔ a = b) := by
    intro a b ha hb
    exact (Union.wellFormed_of_mem_flatMap hxs (leafOf_iff.mp ha)).same_iff_eq
      (Union.wellFormed_of_mem_flatMap hys (leafOf_iff.mp hb))
  constructor
  · rintro ⟨hleft, hright⟩ m
    rw [← leafOf_iff, ← leafOf_iff]
    constructor
    · intro hm
      obtain ⟨b, hb, hmb⟩ := hleft m hm
      rwa [(hsame m b hm hb).mp hmb]
    · intro hm
      obtain ⟨a, ha, ham⟩ := hright m hm
      rwa [← (hsame a m ha hm).mp ham]
  · intro h
    refine ⟨fun a ha => ?_, fun b hb => ?_⟩
    · have hb : LeafOf ys a := leafOf_iff.mpr ((h a).mp (leafOf_iff.mp ha))
      exact ⟨a, hb, (hsame a a ha hb).mpr rfl⟩
    · have ha : LeafOf xs b := leafOf_iff.mpr ((h b).mpr (leafOf_iff.mp hb))
      exact ⟨b, ha, (hsame b b ha hb).mpr rfl⟩

theorem countP_same_members {ts : List Ty} (h : ∀ t ∈ ts, t.WellFormed) {l : Ty}
    (hl : LeafOf ts l) : (Union.of ts).members.countP (fun m => m.same l) = 1 := by
  have hmem : l.key ∈ (Union.of ts).members.map key :=
    List.mem_map_of_mem ((Union.mem_members_of h).mpr (leafOf_iff.mp hl))
  have hcount : ((Union.of ts).members.map key).count l.key = 1 := by
    rw [(Union.nodup_keys (wellFormed_union h)).count, if_pos hmem]
  rwa [List.count, List.countP_map] at hcount

/-! ## Groups -/

/-- Types put into groups, and groups into groups, at any depth. -/
inductive Grouping where
  | single (t : Ty)
  | group (parts : List Grouping)

namespace Grouping

mutual

/-- The type of a grouping: every group is made into a union. -/
def toTy : Grouping → Ty
  | .single t => t
  | .group parts => .union (.of (toTys parts))

def toTys : List Grouping → List Ty
  | [] => []
  | g :: rest => g.toTy :: toTys rest

end

mutual

def elements : Grouping → List Ty
  | .single t => [t]
  | .group parts => allElements parts

def allElements : List Grouping → List Ty
  | [] => []
  | g :: rest => g.elements ++ allElements rest

end

end Grouping

open Grouping

mutual

theorem wellFormed_toTy : ∀ g : Grouping, (∀ t ∈ g.elements, t.WellFormed) → g.toTy.WellFormed
  | .single t, h => by
      rw [toTy]
      rw [elements] at h
      exact h t (List.mem_singleton_self t)
  | .group parts, h => by
      rw [toTy]
      rw [elements] at h
      exact wellFormed_union (wellFormed_toTys parts h)

theorem wellFormed_toTys : ∀ gs : List Grouping, (∀ t ∈ allElements gs, t.WellFormed) →
    ∀ t ∈ toTys gs, t.WellFormed
  | [], _ => by
      rw [toTys]
      exact nofun
  | g :: rest, h => by
      rw [allElements] at h
      obtain ⟨hg, hrest⟩ := List.forall_mem_append.mp h
      rw [toTys]
      exact List.forall_mem_cons.mpr ⟨wellFormed_toTy g hg, wellFormed_toTys rest hrest⟩

end

mutual

/-- Grouping changes no leaf: by induction on the grouping, a group passing on the leaves of its
parts. -/
theorem mem_leaves_toTy : ∀ g : Grouping, (∀ t ∈ g.elements, t.WellFormed) →
    ∀ m, m ∈ g.toTy.leaves ↔ m ∈ g.elements.flatMap leaves
  | .single t, _, m => by
      rw [toTy, elements, List.flatMap_singleton]
  | .group parts, h, m => by
      rw [elements] at h
      rw [toTy, elements]
      exact (Union.mem_members_of (wellFormed_toTys parts h)).trans (mem_leaves_toTys parts h m)

theorem mem_leaves_toTys : ∀ gs : List Grouping, (∀ t ∈ allElements gs, t.WellFormed) →
    ∀ m, m ∈ (toTys gs).flatMap leaves ↔ m ∈ (allElements gs).flatMap leaves
  | [], _, m => by rw [toTys, allElements]
  | g :: rest, h, m => by
      rw [allElements] at h
      obtain ⟨hg, hrest⟩ := List.forall_mem_append.mp h
      rw [toTys, allElements, List.flatMap_cons, List.flatMap_append, List.mem_append,
        List.mem_append, mem_leaves_toTy g hg m, mem_leaves_toTys rest hrest m]

end

/-- However the elements of a list are ordered, repeated and grouped, their union is one. -/
theorem of_toTys_eq {xs : List Ty} (hxs : ∀ t ∈ xs, t.WellFormed) {gs : List Grouping}
    (h : ∀ t, t ∈ allElements gs ↔ t ∈ xs) : Union.of (toTys gs) = Union.of xs := by
  have hgs : ∀ t ∈ allElements gs, t.WellFormed := fun t ht => hxs t ((h t).mp ht)
  refine (Union.of_eq_of_iff (wellFormed_toTys gs hgs) hxs).mpr fun m => ?_
  rw [mem_leaves_toTys gs hgs m, List.mem_flatMap, List.mem_flatMap]
  simp only [h]

/-! ## Unions as sets -/

/-- Unions of constructed types are sets.  Two lists make the same type exactly when their leaves
are one set; the members of a union are the leaves of its list, each once; and ordering, repeating
and grouping the elements of a list in any way makes no difference. -/
theorem union_isSet {xs ys : List Ty} (hxs : ∀ t ∈ xs, t.Constructible)
    (hys : ∀ t ∈ ys, t.Constructible) :
    ((Ty.union (.of xs)).key = (Ty.union (.of ys)).key ↔ SameLeaves xs ys) ∧
      ((∀ m ∈ (Union.of xs).members, LeafOf xs m) ∧
        ∀ l, LeafOf xs l → (Union.of xs).members.countP (fun m => m.same l) = 1) ∧
      ∀ gs : List Grouping, (∀ t, t ∈ allElements gs ↔ t ∈ xs) →
        Union.of (toTys gs) = Union.of xs := by
  have hwfx : ∀ t ∈ xs, t.WellFormed := fun t ht => (hxs t ht).wellFormed
  have hwfy : ∀ t ∈ ys, t.WellFormed := fun t ht => (hys t ht).wellFormed
  refine ⟨?_, ⟨?_, ?_⟩, ?_⟩
  · rw [sameLeaves_iff hwfx hwfy, ← Union.of_eq_of_iff hwfx hwfy]
    constructor
    · intro hkey
      exact Ty.union.inj ((wellFormed_union hwfx).key_inj (wellFormed_union hwfy) hkey)
    · intro heq
      rw [heq]
  · intro m hm
    exact leafOf_iff.mpr ((Union.mem_members_of hwfx).mp hm)
  · intro l hl
    exact countP_same_members hwfx hl
  · intro gs hgs
    exact of_toTys_eq hwfx hgs

/-- A list of types with a repetition, and a union that overlaps with it. -/
def overlappingList : List Ty :=
  [.string .all, .union (.of [.any, .string .all]), .string .all, .struct (.of "S" [])]

def overlappingLeaves : List Ty := [.struct (.of "S" []), .string .all, .any]

/-- The elements of the list in other groups: a group in a group, and an empty one. -/
def overlappingGroups : List Grouping :=
  [.group [.single (.struct (.of "S" [])),
      .group [.single (.union (.of [.any, .string .all])), .group []]],
    .single (.string .all)]

theorem union_isSet_overlapping :
    ((∀ t ∈ overlappingList, t.Constructible) ∧ (∀ t ∈ overlappingLeaves, t.Constructible) ∧
      ∀ t, t ∈ allElements overlappingGroups ↔ t ∈ overlappingList) ∧
    ((Ty.union (.of overlappingList)).key = (Ty.union (.of overlappingLeaves)).key ↔
      SameLeaves overlappingList overlappingLeaves) ∧
    ((∀ m ∈ (Union.of overlappingList).members, LeafOf overlappingList m) ∧
      ∀ l, LeafOf overlappingList l →
        (Union.of overlappingList).members.countP (fun m => m.same l) = 1) ∧
    Union.of (toTys overlappingGroups) = Union.of overlappingList := by
  have hinner : (Ty.union (.of [.any, .string .all])).Constructible :=
    .union (by simp [Constructible.any, Constructible.string])
  have hstruct : (Ty.struct (.of "S" [])).Constructible := .struct "S" nofun
  have hlist : ∀ t ∈ overlappingList, t.Constructible := by
    simp [overlappingList, hinner, hstruct, Constructible.string]
  have hleaves : ∀ t ∈ overlappingLeaves, t.Constructible := by
    simp [overlappingLeaves, hstruct, Constructible.any, Constructible.string]
  have helements : ∀ t, t ∈ allElements overlappingGroups ↔ t ∈ overlappingList := by
    intro t
    simp only [overlappingGroups, overlappingList, allElements, elements, List.mem_append,
      List.mem_cons, List.not_mem_nil, or_false]
    grind
  obtain ⟨hkey, hmembers, hregroup⟩ := union_isSet hlist hleaves
  exact ⟨⟨hlist, hleaves, helements⟩, hkey, hmembers, hregroup overlappingGroups helements⟩

end Ty
end TypeGraph
