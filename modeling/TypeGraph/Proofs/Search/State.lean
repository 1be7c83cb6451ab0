/-
# What the operations of the search change

The search keeps its marks in an array.  The proofs read them through four views: whether a
definition has been met, its number, its low number and its stack flag.  For each operation this
module says what it does to the views and to the rest of the state, so that nothing later opens
the array again.

Definitions without a mark read as number zero, low number zero and not flagged.
-/
import TypeGraph.Graph.Search

namespace TypeGraph
namespace Search

/-! ## The views -/

def Met (s : Search) (v : DefId) : Prop := (s.mark? v).isSome

/-- The place of a definition in the order of meeting. -/
def number (s : Search) (v : DefId) : Nat := ((s.mark? v).map Mark.index).getD 0

/-- The least number that a definition is known to reach. -/
def low (s : Search) (v : DefId) : Nat := ((s.mark? v).map Mark.low).getD 0

def flagged (s : Search) (v : DefId) : Bool := ((s.mark? v).map Mark.onStack).getD false

section Views

variable {s : Search} {v : DefId} {m : Mark}

theorem met_iff : s.Met v ↔ ∃ m, s.mark? v = some m := Option.isSome_iff_exists

theorem met_of_mark (h : s.mark? v = some m) : s.Met v := met_iff.mpr ⟨m, h⟩

theorem number_of_mark (h : s.mark? v = some m) : s.number v = m.index := by simp [number, h]

theorem low_of_mark (h : s.mark? v = some m) : s.low v = m.low := by simp [low, h]

theorem flagged_of_mark (h : s.mark? v = some m) : s.flagged v = m.onStack := by
  simp [flagged, h]

theorem met_of_flagged (h : s.flagged v = true) : s.Met v := by
  cases hm : s.mark? v with
  | none => simp [flagged, hm] at h
  | some m => exact met_of_mark hm

theorem mark?_of_getElem? {o : Option Mark} (h : s.marks[v.index]? = some o) :
    s.mark? v = o := by
  simp [mark?, h]

theorem lt_size_of_met (h : s.Met v) : v.index < s.marks.size := by
  obtain ⟨m, hm⟩ := met_iff.mp h
  exact (Array.getElem?_eq_some_iff.mp (Option.join_eq_some_iff.mp hm)).1

theorem getElem?_of_not_met (hv : v.index < s.marks.size) (h : ¬ s.Met v) :
    s.marks[v.index]? = some none := by
  cases hm : s.marks[v.index]? with
  | none => exact absurd (Array.getElem?_eq_none_iff.mp hm) (Nat.not_le.mpr hv)
  | some o =>
      cases o with
      | none => rfl
      | some m => exact absurd (met_of_mark (mark?_of_getElem? hm)) h

theorem not_met_of_getElem? (h : s.marks[v.index]? = some none) : ¬ s.Met v := by
  rw [Met, mark?_of_getElem? h]
  exact Bool.false_ne_true

theorem getElem?_of_mark (h : s.mark? v = some m) : s.marks[v.index]? = some (some m) :=
  Option.join_eq_some_iff.mp h

end Views

/-! ## Setting a mark -/

section SetMark

variable {s : Search} {v : DefId} (hv : v.index < s.marks.size) (m : Mark) (u : DefId)

theorem size_setMark (s : Search) (v : DefId) (m : Mark) :
    (s.setMark v m).marks.size = s.marks.size := Array.size_setIfInBounds

include hv

theorem mark?_setMark : (s.setMark v m).mark? u = if u = v then some m else s.mark? u := by
  unfold mark? setMark
  rw [Array.getElem?_setIfInBounds]
  by_cases h : u = v
  · subst h
    simp [hv]
  · have hne : v.index ≠ u.index := fun he => h (DefId.index_injective he.symm)
    simp [h, hne]

theorem met_setMark : (s.setMark v m).Met u ↔ u = v ∨ s.Met u := by
  unfold Met
  rw [mark?_setMark hv]
  by_cases h : u = v <;> simp [h]

/-- Any part of the marks, `absent` where there is none. -/
theorem part_setMark {α : Type} (part : Mark → α) (absent : α) :
    (((s.setMark v m).mark? u).map part).getD absent
      = if u = v then part m else ((s.mark? u).map part).getD absent := by
  rw [mark?_setMark hv]
  split <;> rfl

theorem number_setMark :
    (s.setMark v m).number u = if u = v then m.index else s.number u :=
  part_setMark hv m u Mark.index 0

theorem low_setMark : (s.setMark v m).low u = if u = v then m.low else s.low u :=
  part_setMark hv m u Mark.low 0

theorem flagged_setMark :
    (s.setMark v m).flagged u = if u = v then m.onStack else s.flagged u :=
  part_setMark hv m u Mark.onStack false

end SetMark

/-! ## Meeting a definition -/

/-- The state after `v`, with dependencies `deps`, has been met and stands above the path
`frames`. -/
def meet (s : Search) (v : DefId) (deps : List DefId) (frames : List Frame) : Search :=
  { s.setMark v ⟨s.counter, s.counter, true⟩ with
    counter := s.counter + 1
    stack := v :: s.stack
    frames := ⟨v, deps⟩ :: frames }

theorem visit_eq {g : DependencyGraph} {v : DefId} {deps : List DefId}
    (h : g.dependencies v = .ok deps) (s : Search) : s.visit g v = .ok (s.meet v deps s.frames) := by
  simp only [visit, h, bind, Except.bind, pure, Except.pure]
  rfl

section Meet

variable {s : Search} {v : DefId} (hv : v.index < s.marks.size) (deps : List DefId)
  (frames : List Frame) (u : DefId)

include hv

theorem met_meet : (s.meet v deps frames).Met u ↔ u = v ∨ s.Met u := met_setMark hv _ u

theorem number_meet_self : (s.meet v deps frames).number v = s.counter :=
  (number_setMark hv _ v).trans (if_pos rfl)

theorem low_meet_self : (s.meet v deps frames).low v = s.counter :=
  (low_setMark hv _ v).trans (if_pos rfl)

theorem flagged_meet_self : (s.meet v deps frames).flagged v = true :=
  (flagged_setMark hv _ v).trans (if_pos rfl)

variable {u} (hne : u ≠ v)

include hne

theorem number_meet_of_ne : (s.meet v deps frames).number u = s.number u :=
  (number_setMark hv _ u).trans (if_neg hne)

theorem low_meet_of_ne : (s.meet v deps frames).low u = s.low u :=
  (low_setMark hv _ u).trans (if_neg hne)

theorem flagged_meet_of_ne : (s.meet v deps frames).flagged u = s.flagged u :=
  (flagged_setMark hv _ u).trans (if_neg hne)

end Meet

/-! ## Amending marks

Lowering and settling both change one mark and leave a definition without a mark alone. -/

/-- Changes the mark of a definition that has one. -/
def amend (s : Search) (v : DefId) (change : Mark → Mark) : Search :=
  match s.mark? v with
  | some m => s.setMark v (change m)
  | none => s

theorem lower_eq (s : Search) (v : DefId) (k : Nat) :
    s.lower v k = s.amend v fun m => { m with low := min m.low k } := rfl

theorem settle_eq (s : Search) (v : DefId) :
    s.settle v = s.amend v fun m => { m with onStack := false } := rfl

section Amend

variable (s : Search) (v u : DefId) (change : Mark → Mark)

theorem amend_eq : s.amend v change = { s with marks := (s.amend v change).marks } := by
  unfold amend
  split <;> rfl

theorem size_amend : (s.amend v change).marks.size = s.marks.size := by
  unfold amend
  split
  · exact size_setMark _ _ _
  · rfl

theorem mark?_amend : (s.amend v change).mark? u =
    if u = v then (s.mark? u).map change else s.mark? u := by
  unfold amend
  cases hm : s.mark? v with
  | none =>
      by_cases h : u = v
      · simp [h, hm]
      · simp [h]
  | some m =>
      show (s.setMark v (change m)).mark? u = _
      rw [mark?_setMark (lt_size_of_met (met_of_mark hm))]
      by_cases h : u = v
      · simp [h, hm]
      · simp [h]

variable {s u change} {t : Search} {p : Prop} [Decidable p]
  (h : t.mark? u = if p then (s.mark? u).map change else s.mark? u)

include h

theorem met_of_amended : t.Met u ↔ s.Met u := by
  unfold Met
  rw [h]
  split <;> simp

theorem part_of_amended {α : Type} {part : Mark → α} (hpart : ∀ m, part (change m) = part m)
    (absent : α) : ((t.mark? u).map part).getD absent = ((s.mark? u).map part).getD absent := by
  rw [h]
  split
  · cases s.mark? u with
    | none => rfl
    | some m => exact hpart m
  · rfl

end Amend

/-! ## Lowering a low number -/

section Lower

variable (s : Search) (v : DefId) (k : Nat) (u : DefId)

@[simp]
theorem stack_lower : (s.lower v k).stack = s.stack := by rw [lower_eq, amend_eq]

@[simp]
theorem counter_lower : (s.lower v k).counter = s.counter := by rw [lower_eq, amend_eq]

@[simp]
theorem components_lower : (s.lower v k).components = s.components := by rw [lower_eq, amend_eq]

@[simp]
theorem size_lower : (s.lower v k).marks.size = s.marks.size := size_amend s v _

theorem mark?_lower : (s.lower v k).mark? u =
    if u = v then (s.mark? u).map (fun m => { m with low := min m.low k }) else s.mark? u :=
  mark?_amend s v u _

@[simp]
theorem met_lower : (s.lower v k).Met u ↔ s.Met u := met_of_amended (mark?_lower s v k u)

@[simp]
theorem number_lower : (s.lower v k).number u = s.number u :=
  part_of_amended (mark?_lower s v k u) (fun _ => rfl) 0

@[simp]
theorem flagged_lower : (s.lower v k).flagged u = s.flagged u :=
  part_of_amended (mark?_lower s v k u) (fun _ => rfl) false

theorem low_lower : (s.lower v k).low u = if u = v then min (s.low v) k else s.low u := by
  unfold low
  rw [mark?_lower]
  by_cases h : u = v
  · subst h
    cases s.mark? u <;> simp
  · simp [h]

theorem low_lower_le : (s.lower v k).low u ≤ s.low u := by
  rw [low_lower]
  split
  · next h => exact h ▸ Nat.min_le_left _ _
  · exact Nat.le_refl _

theorem low_lower_self_le : (s.lower v k).low v ≤ k := by
  rw [low_lower, if_pos rfl]
  exact Nat.min_le_right _ _

end Lower

/-! ## Settling a component -/

section Settle

variable (s : Search) (u : DefId)

/-- Settling a list of definitions takes away their flags and changes nothing else. -/
theorem mark?_foldl_settle (l : List DefId) : (l.foldl settle s).mark? u =
    if u ∈ l then (s.mark? u).map (fun m => { m with onStack := false }) else s.mark? u := by
  induction l generalizing s with
  | nil => simp
  | cons v rest ih =>
      rw [List.foldl_cons, ih, settle_eq, mark?_amend]
      by_cases h : u = v
      · subst h
        cases s.mark? u <;> simp
      · simp [h]

theorem foldl_settle_eq (l : List DefId) :
    l.foldl settle s = { s with marks := (l.foldl settle s).marks } := by
  induction l generalizing s with
  | nil => rfl
  | cons v rest ih => rw [List.foldl_cons, ih, settle_eq, amend_eq]

theorem size_foldl_settle (l : List DefId) :
    (l.foldl settle s).marks.size = s.marks.size := by
  induction l generalizing s with
  | nil => rfl
  | cons v rest ih => rw [List.foldl_cons, ih, settle_eq, size_amend]

end Settle

section Emit

variable (s : Search) (root u : DefId)

@[simp]
theorem counter_emit : (s.emit root).counter = s.counter := by
  show (List.foldl settle s _).counter = _
  rw [foldl_settle_eq]

@[simp]
theorem size_emit : (s.emit root).marks.size = s.marks.size := size_foldl_settle s _

@[simp]
theorem met_emit : (s.emit root).Met u ↔ s.Met u := met_of_amended (mark?_foldl_settle s u _)

@[simp]
theorem number_emit : (s.emit root).number u = s.number u :=
  part_of_amended (mark?_foldl_settle s u _) (fun _ => rfl) 0

@[simp]
theorem low_emit : (s.emit root).low u = s.low u :=
  part_of_amended (mark?_foldl_settle s u _) (fun _ => rfl) 0

variable {s root} {above below : List DefId}

/-- The definitions from the top of the stack down to the root make up the component. -/
theorem emit_eq (h : s.stack = above ++ root :: below) (hroot : root ∉ above) :
    s.emit root = { (above ++ [root]).foldl settle s with
      stack := below
      components := s.components.push ((above ++ [root]).mergeSort DefId.atMost) } := by
  have habove : ∀ a ∈ above, decide (a ≠ root) = true := by
    intro a ha
    exact decide_eq_true fun he => hroot (he ▸ ha)
  have htake : s.stack.takeWhile (· ≠ root) = above := by
    rw [h, List.takeWhile_append_of_pos habove]
    simp
  have hdrop : s.stack.dropWhile (· ≠ root) = root :: below := by
    rw [h, List.dropWhile_append_of_pos habove]
    simp
  have hcomponents : ((above ++ [root]).foldl settle s).components = s.components := by
    rw [foldl_settle_eq]
  unfold emit
  simp only [htake, hdrop, List.take_succ_cons, List.take_zero, List.drop_succ_cons,
    List.drop_zero, hcomponents]

variable (hstack : s.stack = above ++ root :: below) (hroot : root ∉ above)

include hstack hroot

theorem stack_emit : (s.emit root).stack = below := by rw [emit_eq hstack hroot]

theorem components_emit : (s.emit root).components.toList =
    s.components.toList ++ [(above ++ [root]).mergeSort DefId.atMost] := by
  rw [emit_eq hstack hroot]
  exact Array.toList_push

theorem flagged_emit :
    (s.emit root).flagged u = true ↔ u ∉ above ++ [root] ∧ s.flagged u = true := by
  rw [emit_eq hstack hroot]
  show (((List.foldl settle s _).mark? u).map Mark.onStack).getD false = true ↔ _
  rw [mark?_foldl_settle]
  split
  · next h => cases s.mark? u <;> simp [h]
  · next h => simp only [h, not_false_eq_true, true_and, flagged]

end Emit

end Search
end TypeGraph
