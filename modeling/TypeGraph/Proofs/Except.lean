/-
# Steps that may fail

General facts about `Except`, `Option` and lists that several theories need: when one step after the
other succeeds (`bind_eq_ok_iff`), and what a list of steps gives where none of them fails
(`exists_mapM_eq_ok`, `filterM_eq_ok`, `findM?_eq_ok`).
-/

namespace TypeGraph

variable {ε α β : Type}

theorem forall_mem_pair {P : α → Prop} {a b : α} (ha : P a) (hb : P b) : ∀ x ∈ [a, b], P x :=
  List.forall_mem_cons.mpr ⟨ha, List.forall_mem_singleton.mpr hb⟩

/-! ## One step after the other -/

theorem bind_eq_ok {x : Except ε α} {f : α → Except ε β} {a : α} {b : β} (hx : x = .ok a)
    (hf : f a = .ok b) : x >>= f = .ok b := by
  rw [hx]
  exact hf

theorem bind_eq_ok_iff {x : Except ε α} {f : α → Except ε β} {b : β} :
    x >>= f = .ok b ↔ ∃ a, x = .ok a ∧ f a = .ok b := by
  constructor
  · intro h
    cases x with
    | error e => cases h
    | ok a => exact ⟨a, rfl, h⟩
  · rintro ⟨a, hx, hf⟩
    exact bind_eq_ok hx hf

theorem eq_ok_of_toOption {x : Except ε α} {a : α} (h : x.toOption = some a) : x = .ok a := by
  cases x with
  | error e => cases h
  | ok b => cases h; rfl

/-! ## A step for each element -/

theorem exists_mapM_eq_ok {f : α → Except ε β} : ∀ {l : List α},
    (∀ a ∈ l, ∃ b, f a = .ok b) → ∃ bs, l.mapM f = .ok bs ∧ ∀ b, b ∈ bs ↔ ∃ a ∈ l, f a = .ok b
  | [], _ => ⟨[], rfl, by simp⟩
  | a :: l, h => by
      obtain ⟨⟨b, hb⟩, hl⟩ := List.forall_mem_cons.mp h
      obtain ⟨bs, hbs, hmem⟩ := exists_mapM_eq_ok hl
      refine ⟨b :: bs, ?_, fun c => ?_⟩
      · simp only [List.mapM_cons, hb, hbs, bind, Except.bind, pure, Except.pure]
      · rw [List.mem_cons, hmem c]
        constructor
        · rintro (rfl | ⟨a', ha', hc⟩)
          · exact ⟨a, List.mem_cons_self, hb⟩
          · exact ⟨a', List.mem_cons_of_mem _ ha', hc⟩
        · rintro ⟨a', ha', hc⟩
          rcases List.mem_cons.mp ha' with rfl | ha'
          · exact Or.inl (Except.ok.inj (hc.symm.trans hb))
          · exact Or.inr ⟨a', ha', hc⟩

theorem exists_of_mem_mapM {f : α → Option β} : ∀ {l : List α} {r : List β},
    l.mapM f = some r → ∀ b ∈ r, ∃ a ∈ l, f a = some b
  | [], _, h, b, hb => by cases h; cases hb
  | a :: l, r, h, b, hb => by
      rw [List.mapM_cons] at h
      obtain ⟨b', hb', h⟩ := Option.bind_eq_some_iff.mp h
      obtain ⟨r', hr', h⟩ := Option.bind_eq_some_iff.mp h
      cases h
      rcases List.mem_cons.mp hb with rfl | hb
      · exact ⟨a, List.mem_cons_self, hb'⟩
      · obtain ⟨a', ha', h'⟩ := exists_of_mem_mapM hr' b hb
        exact ⟨a', List.mem_cons_of_mem _ ha', h'⟩

/-! ## A check for each element

Filtering and searching with a check that may fail is filtering and searching with a plain one
where it does not. -/

section Checks

variable {check : α → Except ε Bool} {p : α → Bool}

theorem filterAuxM_eq_ok : ∀ (l acc : List α), (∀ a ∈ l, check a = .ok (p a)) →
    List.filterAuxM check l acc = .ok ((l.filter p).reverse ++ acc)
  | [], _, _ => rfl
  | a :: l, acc, h => by
      have ih := filterAuxM_eq_ok l (cond (p a) (a :: acc) acc)
        fun b hb => h b (List.mem_cons_of_mem _ hb)
      simp only [List.filterAuxM, h a List.mem_cons_self, bind, Except.bind, ih]
      cases hp : p a with
      | false => simp [hp]
      | true => simp [hp]

theorem filterM_eq_ok {l : List α} (h : ∀ a ∈ l, check a = .ok (p a)) :
    l.filterM check = .ok (l.filter p) := by
  simp only [List.filterM, filterAuxM_eq_ok l [] h, bind, Except.bind, pure, Except.pure,
    List.append_nil, List.reverse_reverse]

theorem findM?_eq_ok : ∀ {l : List α}, (∀ a ∈ l, check a = .ok (p a)) →
    l.findM? check = .ok (l.find? p)
  | [], _ => rfl
  | a :: l, h => by
      have ih := findM?_eq_ok (l := l) fun b hb => h b (List.mem_cons_of_mem _ hb)
      simp only [List.findM?, h a List.mem_cons_self, bind, Except.bind]
      cases hp : p a with
      | false => simp only [ih, List.find?_cons, hp]
      | true => simp only [List.find?_cons, hp, pure, Except.pure]

end Checks
end TypeGraph
