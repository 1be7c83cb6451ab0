/-
# Sorting types by family

Sorting a list of types into families keeps everything: the group of a family is what the list has
of it, in the order of the list (`bucket_ofList`), and the groups together are as long as the list
(`size_ofList`).  So the groups, put one after the other in whatever order, have the members of the
list, and their union is the union of the list (`of_flatMap_bucket`).

The members of a union are flat and differ from each other.  Among them there is no union, and at
most one type each of the two families that have one type only (`length_bucket_le_one`).
-/
import TypeGraph.Proofs.Ty.Union
import TypeGraph.Ty.Groups

namespace TypeGraph

theorem Family.mem_all (f : Family) : f ∈ Family.all := by
  cases f <;> decide

namespace TypeGroups

/-! ## What the groups hold -/

theorem size_cons (t : Ty) (g : TypeGroups) : (cons t g).size = g.size + 1 := by
  cases t <;> simp only [cons, size, List.length_cons] <;> omega

theorem bucket_ofList (ts : List Ty) (f : Family) :
    (ofList ts).bucket f = ts.filter fun t => t.family = f := by
  induction ts with
  | nil => cases f <;> rfl
  | cons t rest ih =>
      show (cons t (ofList rest)).bucket f = _
      rw [bucket_cons, ih, List.filter_cons]
      simp only [decide_eq_true_eq]

theorem size_ofList (ts : List Ty) : (ofList ts).size = ts.length := by
  induction ts with
  | nil => rfl
  | cons t rest ih =>
      show (cons t (ofList rest)).size = _
      rw [size_cons, ih, List.length_cons]

/-! ## The union of the groups -/

theorem mem_bucket_ofList {ts : List Ty} {f : Family} {t : Ty} :
    t ∈ (ofList ts).bucket f ↔ t ∈ ts ∧ t.family = f := by
  rw [bucket_ofList, List.mem_filter, decide_eq_true_eq]

theorem mem_flatMap_bucket {ts : List Ty} {order : List Family} (horder : ∀ f, f ∈ order) {t : Ty} :
    t ∈ order.flatMap (ofList ts).bucket ↔ t ∈ ts := by
  rw [List.mem_flatMap]
  constructor
  · rintro ⟨f, -, ht⟩
    exact (mem_bucket_ofList.mp ht).1
  · intro ht
    exact ⟨t.family, horder t.family, mem_bucket_ofList.mpr ⟨ht, rfl⟩⟩

/-- The groups one after the other, in whatever order, have the union of the list. -/
theorem of_flatMap_bucket {ts : List Ty} (h : ∀ t ∈ ts, t.WellFormed) {order : List Family}
    (horder : ∀ f, f ∈ order) : Union.of (order.flatMap (ofList ts).bucket) = Union.of ts := by
  have hgroups : ∀ t ∈ order.flatMap (ofList ts).bucket, t.WellFormed := by
    intro t ht
    exact h t ((mem_flatMap_bucket horder).mp ht)
  refine (Union.of_eq_of_iff hgroups h).mpr fun m => ?_
  simp only [List.mem_flatMap (f := Ty.leaves), mem_flatMap_bucket horder]

/-! ## The members of a union -/

section Members

variable {u : Union Ty} (h : (Ty.union u).WellFormed)

include h

theorem bucket_union_eq_nil : (ofList u.members).bucket .union = [] := by
  rw [bucket_ofList, List.filter_eq_nil_iff]
  cases h with
  | union _ hflat _ =>
      intro t ht hfamily
      exact hflat t ht (of_decide_eq_true hfamily)

theorem length_bucket_le_one {f : Family} {only : Ty} (honly : ∀ t : Ty, t.family = f → t = only) :
    ((ofList u.members).bucket f).length ≤ 1 := by
  have hnodup : ((ofList u.members).bucket f).Nodup := by
    rw [bucket_ofList]
    exact (Union.nodup_members h).filter _
  have heq : ∀ t ∈ (ofList u.members).bucket f, t = only := by
    intro t ht
    exact honly t (mem_bucket_ofList.mp ht).2
  match (ofList u.members).bucket f, hnodup, heq with
  | [], _, _ => exact Nat.zero_le 1
  | [_], _, _ => exact Nat.le_refl 1
  | a :: b :: rest, hnodup, heq =>
      have hab : a = b := (heq a (by simp)).trans (heq b (by simp)).symm
      exact absurd (hab ▸ List.mem_cons_self) (List.nodup_cons.mp hnodup).1

end Members

theorem eq_never_of_family : ∀ t : Ty, t.family = .never → t = .never
  | .never, _ => rfl

theorem eq_any_of_family : ∀ t : Ty, t.family = .any → t = .any
  | .any, _ => rfl

/-! ## Nothing lost, nothing added, nothing moved -/

/-- Sorting constructed types by family keeps each type, once for each time that it stands in the
list, and the order within a family.  The union of the groups, in any order, is the union of the
list.  Of the members of a union there is no union, and never and any are there at most once. -/
theorem ofList_losesNothing {ts : List Ty} (h : ∀ t ∈ ts, t.Constructible) :
    ((∀ f, (ofList ts).bucket f = ts.filter fun t => t.family = f) ∧
      (ofList ts).size = ts.length) ∧
    (∀ order : List Family, order.Perm Family.all →
      Union.of (order.flatMap (ofList ts).bucket) = Union.of ts) ∧
    ∀ u : Union Ty, (Ty.union u).Constructible →
      (ofList u.members).union = [] ∧ (ofList u.members).never.length ≤ 1 ∧
        (ofList u.members).any.length ≤ 1 := by
  refine ⟨⟨bucket_ofList ts, size_ofList ts⟩, ?_, ?_⟩
  · intro order horder
    have hall : ∀ f, f ∈ order := fun f => horder.mem_iff.mpr (Family.mem_all f)
    exact of_flatMap_bucket (fun t ht => (h t ht).wellFormed) hall
  · intro u hu
    have hwf := hu.wellFormed
    exact ⟨List.map_eq_nil_iff.mp (bucket_union_eq_nil hwf),
      length_bucket_le_one hwf eq_never_of_family, length_bucket_le_one hwf eq_any_of_family⟩

/-- A union with types of both families that have one type only. -/
def mixedUnion : Union Ty := .of [.any, .never, .string .all]

/-- Types of several families, some of them twice and some inside a union. -/
def mixedList : List Ty :=
  [.string .all, .union mixedUnion, .never, .number .all, .string .all, .never]

theorem ofList_losesNothing_mixed :
    ((∀ t ∈ mixedList, t.Constructible) ∧ Family.all.reverse.Perm Family.all ∧
      (Ty.union mixedUnion).Constructible) ∧
    ((∀ f, (ofList mixedList).bucket f = mixedList.filter fun t => t.family = f) ∧
      (ofList mixedList).size = mixedList.length) ∧
    Union.of (Family.all.reverse.flatMap (ofList mixedList).bucket) = Union.of mixedList ∧
    ((ofList mixedUnion.members).union = [] ∧ (ofList mixedUnion.members).never.length ≤ 1 ∧
      (ofList mixedUnion.members).any.length ≤ 1) := by
  have hunion : (Ty.union mixedUnion).Constructible :=
    .union (by simp [Ty.Constructible.any, Ty.Constructible.never, Ty.Constructible.string])
  have hnumber : (Ty.number .all).Constructible := .number .all
  have hlist : ∀ t ∈ mixedList, t.Constructible := by
    simp [mixedList, hunion, hnumber, Ty.Constructible.never, Ty.Constructible.string]
  obtain ⟨hgroups, hrebuilt, hmembers⟩ := ofList_losesNothing hlist
  exact ⟨⟨hlist, List.reverse_perm _, hunion⟩, hgroups, hrebuilt _ (List.reverse_perm _),
    hmembers mixedUnion hunion⟩

end TypeGroups
end TypeGraph
