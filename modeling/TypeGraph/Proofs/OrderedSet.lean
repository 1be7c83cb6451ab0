/-
# Lists as sets in order of insertion

A set made from a list holds the elements of the list in order of first occurrence, each once
(`toList_ofList`, `pairwise_ofList`).  Making a set commutes with what is done to lists: with adding
one list after another (`merge_ofList`), with leaving elements out and with renaming them
(`filter_toList_ofList`, `filterMap_toList_ofList`).
-/
import Mathlib.Data.Finset.Card
import TypeGraph.OrderedSet

namespace TypeGraph
namespace OrderedSet

variable {α : Type} [DecidableEq α] [Hashable α]

/-! ## The elements of a list -/

theorem mem_toList_insertAll (s : OrderedSet α) (l : List α) (a : α) :
    a ∈ (s.insertAll l).toList ↔ a ∈ s.toList ∨ a ∈ l := by
  induction l generalizing s with
  | nil => simp [insertAll]
  | cons b rest ih =>
      show a ∈ ((s.insert b).insertAll rest).toList ↔ _
      rw [ih, mem_toList_insert, List.mem_cons, or_assoc]

theorem mem_toList_ofList (l : List α) (a : α) : a ∈ (ofList l).toList ↔ a ∈ l := by
  have h : a ∉ (empty : OrderedSet α).toList := List.not_mem_nil
  rw [ofList, mem_toList_insertAll]
  exact ⟨fun hm => hm.resolve_left h, Or.inr⟩

theorem size_ofList (l : List α) : (ofList l).size = l.toFinset.card := by
  rw [size_eq, ← List.toFinset_card_of_nodup (ofList l).nodup_toList]
  congr 1
  ext a
  rw [List.mem_toFinset, List.mem_toFinset, mem_toList_ofList]

/-! ## First occurrences -/

theorem insertAll_append (s : OrderedSet α) (l m : List α) :
    s.insertAll (l ++ m) = (s.insertAll l).insertAll m := List.foldl_append

theorem insertAll_concat (s : OrderedSet α) (l : List α) (a : α) :
    s.insertAll (l ++ [a]) = (s.insertAll l).insert a := insertAll_append s l [a]

theorem ofList_concat (l : List α) (a : α) : ofList (l ++ [a]) = (ofList l).insert a :=
  insertAll_concat empty l a

/-- The elements of a list are kept in order of first occurrence: by induction on the list from its
end, where elements are added. -/
theorem toList_ofList (l : List α) : (ofList l).toList = l.eraseDups := by
  induction l using List.reverseRecOn with
  | nil => rfl
  | append_singleton l a ih =>
      rw [ofList_concat, toList_insert, List.eraseDups_append, ← ih]
      split
      · next h => simp [List.removeAll, (mem_toList_ofList l a).mp h]
      · next h =>
          have hnot : a ∉ l := fun hmem => h ((mem_toList_ofList l a).mpr hmem)
          simp [List.removeAll, hnot, List.eraseDups_cons]

theorem pairwise_ofList (l : List α) :
    (ofList l).toList.Pairwise fun a b => l.idxOf a < l.idxOf b := by
  induction l using List.reverseRecOn with
  | nil => exact .nil
  | append_singleton l a ih =>
      -- what was there keeps its first place, and a new element has the last place for its own
      have hold : ∀ b ∈ (ofList l).toList, (l ++ [a]).idxOf b = l.idxOf b :=
        fun b hb => List.idxOf_append_of_mem ((mem_toList_ofList l b).mp hb)
      have hkept : (ofList l).toList.Pairwise fun b c =>
          (l ++ [a]).idxOf b < (l ++ [a]).idxOf c := by
        refine ih.imp_of_mem ?_
        intro b c hb hc hlt
        rw [hold b hb, hold c hc]
        exact hlt
      rw [ofList_concat, toList_insert]
      split
      · exact hkept
      · next hnew =>
          refine List.pairwise_append.mpr ⟨hkept, List.pairwise_singleton _ _, ?_⟩
          intro b hb c hc
          have hmem := (mem_toList_ofList l b).mp hb
          have hnot : a ∉ l := fun ha => hnew ((mem_toList_ofList l a).mpr ha)
          rw [List.mem_singleton.mp hc, hold b hb, List.idxOf_append_of_notMem hnot]
          exact Nat.lt_add_right _ (List.idxOf_lt_length_of_mem hmem)

/-! ## Adding lists -/

theorem insert_of_mem {s : OrderedSet α} {a : α} (h : a ∈ s.toList) : s.insert a = s := by
  have hplace := (s.contains_iff a).mpr h
  rw [contains, Std.HashMap.contains_eq_isSome_getElem?] at hplace
  unfold insert
  split
  · rfl
  · next hnone => simp [hnone] at hplace

/-- Adding a list is adding its elements in order of first occurrence. -/
theorem insertAll_ofList (s : OrderedSet α) (l : List α) :
    s.insertAll (ofList l).toList = s.insertAll l := by
  induction l using List.reverseRecOn with
  | nil => rfl
  | append_singleton l a ih =>
      rw [ofList_concat, toList_insert, insertAll_concat]
      split
      -- the collected list does not show the repetition, and adding it again has no effect either
      · next h =>
          have hmem : a ∈ (s.insertAll l).toList :=
            (mem_toList_insertAll s l a).mpr (Or.inr ((mem_toList_ofList l a).mp h))
          rw [ih, insert_of_mem hmem]
      · rw [insertAll_concat, ih]

theorem merge_ofList (l m : List α) :
    (ofList l).insertAll (ofList m).toList = ofList (l ++ m) := by
  rw [insertAll_ofList, ofList, ofList, insertAll_append]

/-! ## Leaving elements out -/

/-- Renaming elements, and leaving some out, commutes with collecting in order of first occurrence,
as long as no two elements get one name: by induction on the list from its end. -/
theorem filterMap_toList_ofList {β : Type} [DecidableEq β] [Hashable β] {f : α → Option β}
    (hinj : ∀ a a' b, f a = some b → f a' = some b → a = a') (l : List α) :
    (ofList l).toList.filterMap f = (ofList (l.filterMap f)).toList := by
  induction l using List.reverseRecOn with
  | nil => rfl
  | append_singleton l a ih =>
      rw [ofList_concat, toList_insert, List.filterMap_append]
      cases hf : f a with
      | none =>
          have hdropped : [a].filterMap f = [] := List.filterMap_cons_none hf
          rw [hdropped, List.append_nil, ← ih]
          split
          · rfl
          · rw [List.filterMap_append, hdropped, List.append_nil]
      | some b =>
          have hkept : [a].filterMap f = [b] := List.filterMap_cons_some hf
          have hmem : b ∈ (ofList (l.filterMap f)).toList ↔ a ∈ (ofList l).toList := by
            rw [mem_toList_ofList, mem_toList_ofList, List.mem_filterMap]
            constructor
            · rintro ⟨a', ha', hb⟩
              rwa [hinj a a' b hf hb]
            · intro ha
              exact ⟨a, ha, hf⟩
          rw [hkept, ofList_concat, toList_insert]
          simp only [hmem]
          split
          · exact ih
          · rw [List.filterMap_append, hkept, ih]

theorem filter_toList_ofList (p : α → Bool) (l : List α) :
    (ofList l).toList.filter p = (ofList (l.filter p)).toList := by
  have hinj : ∀ a a' b, Option.guard p a = some b → Option.guard p a' = some b → a = a' := by
    intro a a' b ha ha'
    exact (Option.guard_eq_some_iff.mp ha).1.trans (Option.guard_eq_some_iff.mp ha').1.symm
  rw [← List.filterMap_eq_filter]
  exact filterMap_toList_ofList hinj l

/-! ## One more element -/

theorem notMem_of_concat {s t : OrderedSet α} {a : α} (h : t.toList = s.toList ++ [a]) :
    a ∉ s.toList := by
  have hnodup := t.nodup_toList
  rw [h] at hnodup
  exact fun hmem => (List.nodup_append.mp hnodup).2.2 a hmem a List.mem_cons_self rfl

theorem indexOf?_concat {s t : OrderedSet α} {a : α} (h : t.toList = s.toList ++ [a]) (b : α) :
    t.indexOf? b = if b = a then some s.size else s.indexOf? b := by
  have hnew := notMem_of_concat h
  ext i
  rw [indexOf?_eq_some_iff, h, size_eq]
  split
  · next heq =>
      subst heq
      rw [Option.some.injEq]
      grind
  · next hne =>
      rw [indexOf?_eq_some_iff]
      grind

end OrderedSet
end TypeGraph
