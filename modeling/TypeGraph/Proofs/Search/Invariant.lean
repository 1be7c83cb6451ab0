/-
# The invariant of the search

The invariant has two halves.

`Ledger` speaks of marks, stack and settled components and does not mention the path: numbers are
given out in order, the stack holds the met definitions that are not settled, latest first, the
low number of a definition on the stack is the number of one on the stack that it reaches, and
the settled components are a condensation closed under dependencies.

`Segments` ties the path to the stack.  The stack is cut into one segment per frame, the frame's
definition at its bottom:

    stack   x₁ x₂ v   y₁ w   z₁ z₂ z₃ u        (latest first)
    path          v      w            u

The definitions above the bottom of a segment are finished: all their dependencies have been
followed, and each reaches something met before it.  A dependency of the segment that leads to
something on the stack has been noted in the low number of the frame.  When a frame is left
without completing a component, its segment joins the one below; when it completes one, its
segment is the component.
-/
import TypeGraph.Proofs.Graph.Condensation
import TypeGraph.Proofs.Search.State

namespace TypeGraph
namespace Search

/-! ## The two halves -/

def settled (s : Search) : List DefId := s.components.toList.flatten

/-- Marks, stack and settled components agree. -/
structure Ledger (g : DependencyGraph) (s : Search) : Prop where
  marks_size : s.marks.size = g.size
  number_lt : ∀ v, s.Met v → s.number v < s.counter
  number_inj : ∀ u v, s.Met u → s.Met v → s.number u = s.number v → u = v
  number_surj : ∀ i, i < s.counter → ∃ v, s.Met v ∧ s.number v = i
  flagged_iff : ∀ v, s.flagged v = true ↔ v ∈ s.stack
  descending : s.stack.Pairwise fun a b => s.number b < s.number a
  low_le : ∀ v ∈ s.stack, s.low v ≤ s.number v
  low_reached : ∀ v ∈ s.stack, ∃ w ∈ s.stack, s.number w = s.low v ∧ g.Reaches v w
  settled_iff : ∀ v, v ∈ s.settled ↔ s.Met v ∧ v ∉ s.stack
  closed : g.Closed s.settled
  condensation : g.Condensation s.components.toList

/-- The dependency on `w` has been followed, and the low number of `v` accounts for it. -/
def Noted (s : Search) (v w : DefId) : Prop := s.Met w ∧ (w ∈ s.stack → s.low v ≤ s.number w)

/-- All dependencies of `x` have been followed from the segment of `v`, and its component is
not complete. -/
structure Finished (g : DependencyGraph) (s : Search) (v x : DefId) : Prop where
  reached : g.Reaches v x
  low_lt : s.low x < s.number x
  noted : ∀ w, g.Depends x w → s.Noted v w

/-- The stack as one segment per frame of the path. -/
inductive Segments (g : DependencyGraph) (s : Search) : List Frame → List DefId → Prop
  | nil : Segments g s [] []
  | cons {f : Frame} {path : List Frame} {above below : List DefId} :
      (∀ w, g.Depends f.id w → w ∈ f.rest ∨ s.Noted f.id w) →
      (∀ x ∈ above, Finished g s f.id x) →
      Segments g s path below →
      Segments g s (f :: path) (above ++ f.id :: below)

structure Inv (g : DependencyGraph) (s : Search) : Prop extends Ledger g s where
  segments : Segments g s s.frames s.stack
  path : s.frames.IsChain fun f below => g.Depends below.id f.id
  rest_depends : ∀ f ∈ s.frames, ∀ w ∈ f.rest, g.Depends f.id w

/-! ## Reading the ledger -/

namespace Ledger

variable {g : DependencyGraph} {s : Search}

theorem met_of_mem (h : s.Ledger g) {v : DefId} (hv : v ∈ s.stack) : s.Met v :=
  met_of_flagged ((h.flagged_iff v).mpr hv)

theorem nodup_stack (h : s.Ledger g) : s.stack.Nodup :=
  h.descending.imp fun hlt he => absurd (congrArg s.number he) (Nat.ne_of_gt hlt)

theorem withFrames (h : s.Ledger g) (frames : List Frame) :
    Ledger g { s with frames := frames } :=
  ⟨h.marks_size, h.number_lt, h.number_inj, h.number_surj, h.flagged_iff, h.descending, h.low_le,
    h.low_reached, h.settled_iff, h.closed, h.condensation⟩

theorem mem_or_settled (h : s.Ledger g) {v : DefId} (hv : s.Met v) :
    v ∈ s.stack ∨ v ∈ s.settled := by
  by_cases hs : v ∈ s.stack
  · exact Or.inl hs
  · exact Or.inr ((h.settled_iff v).mpr ⟨hv, hs⟩)

end Ledger

theorem ledger_start (g : DependencyGraph) : Ledger g (start g.size) := by
  have hmark : ∀ v, (start g.size).mark? v = none := by
    intro v
    simp only [start, mark?, Array.getElem?_replicate]
    split <;> rfl
  have hmet : ∀ v, ¬ (start g.size).Met v := by
    intro v hv
    simp [Met, hmark] at hv
  refine ⟨Array.size_replicate, fun v hv => absurd hv (hmet v), fun u _ hu => absurd hu (hmet u),
    fun i hi => absurd hi (Nat.not_lt_zero i), ?_, List.Pairwise.nil,
    fun _ hv => absurd hv List.not_mem_nil, fun _ hv => absurd hv List.not_mem_nil, ?_,
    fun _ hu => absurd hu List.not_mem_nil, DependencyGraph.Condensation.nil g⟩
  · intro v
    rw [flagged, hmark]
    simp [start]
  · intro v
    exact ⟨fun hv => absurd hv List.not_mem_nil, fun hv => absurd hv.1 (hmet v)⟩

/-! ## Meeting a definition -/

theorem Ledger.meet {g : DependencyGraph} {s : Search} (h : s.Ledger g) {v : DefId}
    (hv : v.index < g.size) (hnew : ¬ s.Met v) (deps : List DefId) (frames : List Frame) :
    (s.meet v deps frames).Ledger g := by
  have hlt : v.index < s.marks.size := by rwa [h.marks_size]
  -- whatever was met before is not `v`, and keeps its number, low number and flag
  have hne : ∀ {u}, s.Met u → u ≠ v := fun hu he => hnew (he ▸ hu)
  have hstack : ∀ {u}, u ∈ s.stack → u ≠ v := fun hu => hne (h.met_of_mem hu)
  refine ⟨?_, ?_, ?_, ?_, ?_, ?_, ?_, ?_, ?_, h.closed, h.condensation⟩
  · exact (size_setMark s v _).trans h.marks_size
  · intro u hu
    rcases (met_meet hlt deps frames u).mp hu with rfl | hu
    · rw [number_meet_self hlt]
      exact Nat.lt_succ_self _
    · rw [number_meet_of_ne hlt _ _ (hne hu)]
      exact Nat.lt_succ_of_lt (h.number_lt u hu)
  · intro a b ha hb hab
    rcases (met_meet hlt deps frames a).mp ha with rfl | hma <;>
      rcases (met_meet hlt deps frames b).mp hb with rfl | hmb
    · rfl
    · rw [number_meet_self hlt, number_meet_of_ne hlt _ _ (hne hmb)] at hab
      exact absurd hab (Nat.ne_of_gt (h.number_lt b hmb))
    · rw [number_meet_self hlt, number_meet_of_ne hlt _ _ (hne hma)] at hab
      exact absurd hab (Nat.ne_of_lt (h.number_lt a hma))
    · rw [number_meet_of_ne hlt _ _ (hne hma), number_meet_of_ne hlt _ _ (hne hmb)] at hab
      exact h.number_inj a b hma hmb hab
  · intro i hi
    rcases Nat.lt_succ_iff_lt_or_eq.mp hi with hi | rfl
    · obtain ⟨u, hu, hui⟩ := h.number_surj i hi
      refine ⟨u, (met_meet hlt _ _ u).mpr (Or.inr hu), ?_⟩
      rw [number_meet_of_ne hlt _ _ (hne hu), hui]
    · exact ⟨v, (met_meet hlt _ _ v).mpr (Or.inl rfl), number_meet_self hlt _ _⟩
  · intro u
    show _ ↔ u ∈ v :: s.stack
    by_cases hu : u = v
    · subst hu
      simp [flagged_meet_self hlt]
    · rw [flagged_meet_of_ne hlt _ _ hu, h.flagged_iff, List.mem_cons]
      exact ⟨Or.inr, fun hm => hm.resolve_left hu⟩
  · refine List.pairwise_cons.mpr ⟨?_, ?_⟩
    · intro u hu
      rw [number_meet_self hlt, number_meet_of_ne hlt _ _ (hstack hu)]
      exact h.number_lt u (h.met_of_mem hu)
    · refine h.descending.imp_of_mem fun ha hb hab => ?_
      rwa [number_meet_of_ne hlt _ _ (hstack ha), number_meet_of_ne hlt _ _ (hstack hb)]
  · intro u hu
    rcases List.mem_cons.mp hu with rfl | hu
    · rw [low_meet_self hlt, number_meet_self hlt]
    · rw [low_meet_of_ne hlt _ _ (hstack hu), number_meet_of_ne hlt _ _ (hstack hu)]
      exact h.low_le u hu
  · intro u hu
    rcases List.mem_cons.mp hu with rfl | hu
    · refine ⟨u, List.mem_cons_self, ?_, .refl⟩
      rw [low_meet_self hlt, number_meet_self hlt]
    · obtain ⟨w, hw, hnum, hr⟩ := h.low_reached u hu
      refine ⟨w, List.mem_cons_of_mem _ hw, ?_, hr⟩
      rw [low_meet_of_ne hlt _ _ (hstack hu), number_meet_of_ne hlt _ _ (hstack hw), hnum]
  · intro u
    show u ∈ s.settled ↔ _ ∧ u ∉ v :: s.stack
    rw [h.settled_iff, met_meet hlt, List.mem_cons]
    constructor
    · rintro ⟨hm, hs⟩
      exact ⟨Or.inr hm, fun hc => hc.elim (hne hm) hs⟩
    · rintro ⟨hm, hs⟩
      exact ⟨hm.resolve_left fun he => hs (Or.inl he), fun hc => hs (Or.inr hc)⟩

/-! ## Lowering a low number -/

/-- A low number may be lowered to the number of something on the stack that is reached. -/
theorem Ledger.lower {g : DependencyGraph} {s : Search} (h : s.Ledger g) {v w : DefId}
    (hw : w ∈ s.stack) (hr : g.Reaches v w) : (s.lower v (s.number w)).Ledger g := by
  refine ⟨?_, ?_, ?_, ?_, ?_, ?_, ?_, ?_, ?_, ?_, ?_⟩
  · rw [size_lower]
    exact h.marks_size
  · simpa only [met_lower, number_lower, counter_lower] using h.number_lt
  · simpa only [met_lower, number_lower] using h.number_inj
  · simpa only [met_lower, number_lower, counter_lower] using h.number_surj
  · simpa only [flagged_lower, stack_lower] using h.flagged_iff
  · simpa only [number_lower, stack_lower] using h.descending
  · intro u hu
    rw [stack_lower] at hu
    rw [number_lower]
    exact Nat.le_trans (low_lower_le s v _ u) (h.low_le u hu)
  · intro u hu
    rw [stack_lower] at hu
    simp only [stack_lower, number_lower, low_lower]
    obtain ⟨x, hx, hnum, hux⟩ := h.low_reached u hu
    by_cases huv : u = v
    · subst huv
      rw [if_pos rfl]
      rcases Nat.le_total (s.low u) (s.number w) with hle | hle
      · exact ⟨x, hx, by rw [Nat.min_eq_left hle, hnum], hux⟩
      · exact ⟨w, hw, (Nat.min_eq_right hle).symm, hr⟩
    · rw [if_neg huv]
      exact ⟨x, hx, hnum, hux⟩
  · simpa only [settled, components_lower, met_lower, stack_lower] using h.settled_iff
  · simpa only [settled, components_lower] using h.closed
  · simpa only [components_lower] using h.condensation

/-! ## Settling a component

`Complete` collects what the invariant says of a segment whose root is left with its low number
unchanged.  The segment is then a whole component: a dependency that leaves it leads to a settled
definition, and its low numbers lead every member down to the root. -/

/-- The segment of `root` takes no dependency below itself on the stack. -/
structure Complete (g : DependencyGraph) (s : Search) (root : DefId) (above below : List DefId) :
    Prop where
  stack_eq : s.stack = above ++ root :: below
  reached : ∀ x ∈ above, g.Reaches root x
  low_lt : ∀ x ∈ above, s.low x < s.number x
  out : ∀ x ∈ above ++ [root], ∀ w, g.Depends x w →
    s.Met w ∧ (w ∈ s.stack → s.number root ≤ s.number w)

namespace Complete

variable {g : DependencyGraph} {s : Search} {root : DefId} {above below : List DefId}
  (h : s.Ledger g) (hc : s.Complete g root above below)

include hc in
theorem mem_stack_iff {w : DefId} : w ∈ s.stack ↔ w ∈ above ++ [root] ∨ w ∈ below := by
  rw [hc.stack_eq, List.append_cons, List.mem_append]

include h hc

theorem root_notMem : root ∉ above := by
  have hn := h.nodup_stack
  rw [hc.stack_eq] at hn
  intro hr
  exact (List.nodup_append.mp hn).2.2 root hr root List.mem_cons_self rfl

theorem number_lt_of_mem_below {w : DefId} (hw : w ∈ below) : s.number w < s.number root := by
  have hd := h.descending
  rw [hc.stack_eq] at hd
  exact (List.pairwise_cons.mp (List.pairwise_append.mp hd).2.1).1 w hw

theorem number_le_of_mem {x : DefId} (hx : x ∈ above ++ [root]) : s.number root ≤ s.number x := by
  have hd := h.descending
  rw [hc.stack_eq] at hd
  rcases List.mem_append.mp hx with hx | hx
  · exact Nat.le_of_lt ((List.pairwise_append.mp hd).2.2 x hx root List.mem_cons_self)
  · rw [List.mem_singleton.mp hx]

theorem notMem_below {x : DefId} (hx : x ∈ above ++ [root]) : x ∉ below := fun hb =>
  absurd (number_lt_of_mem_below h hc hb) (Nat.not_lt.mpr (number_le_of_mem h hc hx))

/-- A dependency of the segment stays in the segment or leads to a settled definition. -/
theorem depends {x w : DefId} (hx : x ∈ above ++ [root]) (hw : g.Depends x w) :
    w ∈ above ++ [root] ∨ w ∈ s.settled := by
  obtain ⟨hmet, hle⟩ := hc.out x hx w hw
  rcases h.mem_or_settled hmet with hs | hs
  · rcases hc.mem_stack_iff.mp hs with hm | hb
    · exact Or.inl hm
    · exact absurd (number_lt_of_mem_below h hc hb) (Nat.not_lt.mpr (hle hs))
  · exact Or.inr hs

theorem reaches {x w : DefId} (hx : x ∈ above ++ [root]) (hw : g.Reaches x w) :
    w ∈ above ++ [root] ∨ w ∈ s.settled := by
  induction hw with
  | refl => exact Or.inl hx
  | tail _ hd ih =>
      rcases ih with hm | hs
      · exact depends h hc hm hd
      · exact Or.inr (h.closed _ hs _ hd)

/-- Low numbers lead down to the root: by induction on the number of the member. -/
theorem reaches_root {x : DefId} (hx : x ∈ above ++ [root]) : g.Reaches x root := by
  generalize hn : s.number x = n
  induction n using Nat.strongRecOn generalizing x with
  | ind n ih =>
      rcases List.mem_append.mp hx with hxa | hxr
      · have hstack : x ∈ s.stack := hc.mem_stack_iff.mpr (Or.inl hx)
        obtain ⟨y, hy, hnum, hr⟩ := h.low_reached x hstack
        have hlt : s.number y < n := by
          rw [hnum, ← hn]
          exact hc.low_lt x hxa
        rcases reaches h hc hx hr with hm | hs
        · exact hr.trans (ih _ hlt hm rfl)
        · exact absurd hy ((h.settled_iff y).mp hs).2
      · rw [List.mem_singleton.mp hxr]
        exact .refl

theorem connected {u v : DefId} (hu : u ∈ above ++ [root]) (hv : v ∈ above ++ [root]) :
    g.Reaches u v := by
  refine (reaches_root h hc hu).trans ?_
  rcases List.mem_append.mp hv with hv | hv
  · exact hc.reached v hv
  · rw [List.mem_singleton.mp hv]

end Complete

theorem ascending_mergeSort {l : List DefId} (h : l.Nodup) :
    (l.mergeSort DefId.atMost).Pairwise fun a b => a.index < b.index := by
  have hsorted : (l.mergeSort DefId.atMost).Pairwise fun a b => a.atMost b = true := by
    refine List.pairwise_mergeSort ?_ ?_ l
    · intro a b c hab hbc
      simp only [DefId.atMost, decide_eq_true_eq] at *
      exact Nat.le_trans hab hbc
    · intro a b
      simp only [DefId.atMost, Bool.or_eq_true, decide_eq_true_eq]
      exact Nat.le_total _ _
  have hnodup : (l.mergeSort DefId.atMost).Nodup := (List.mergeSort_perm l _).nodup_iff.mpr h
  refine (hsorted.and hnodup).imp ?_
  rintro a b ⟨hle, hne⟩
  have hle : a.index ≤ b.index := of_decide_eq_true hle
  exact Nat.lt_of_le_of_ne hle fun he => hne (DefId.index_injective he)

theorem Ledger.emit {g : DependencyGraph} {s : Search} (h : s.Ledger g) {root : DefId}
    {above below : List DefId} (hc : s.Complete g root above below) :
    (s.emit root).Ledger g := by
  have hst := hc.stack_eq
  have hroot := hc.root_notMem h
  have hmem : ∀ u, u ∈ (above ++ [root]).mergeSort DefId.atMost ↔ u ∈ above ++ [root] :=
    fun u => (List.mergeSort_perm _ _).mem_iff
  have hsettled : ∀ u, u ∈ (s.emit root).settled ↔ u ∈ s.settled ∨ u ∈ above ++ [root] := by
    intro u
    rw [settled, components_emit hst hroot, List.flatten_append, List.mem_append]
    rw [List.flatten_singleton, hmem]
    rfl
  have hbelow : ∀ {u}, u ∈ below → u ∈ s.stack := fun hu => hc.mem_stack_iff.mpr (Or.inr hu)
  refine ⟨?_, ?_, ?_, ?_, ?_, ?_, ?_, ?_, ?_, ?_, ?_⟩
  · rw [size_emit]
    exact h.marks_size
  · simpa only [met_emit, number_emit, counter_emit] using h.number_lt
  · simpa only [met_emit, number_emit] using h.number_inj
  · simpa only [met_emit, number_emit, counter_emit] using h.number_surj
  · intro u
    rw [flagged_emit u hst hroot, stack_emit hst hroot, h.flagged_iff, hc.mem_stack_iff]
    exact ⟨fun hu => hu.2.resolve_left hu.1,
      fun hu => ⟨fun hm => hc.notMem_below h hm hu, Or.inr hu⟩⟩
  · rw [stack_emit hst hroot]
    simp only [number_emit]
    have hd := h.descending
    rw [hst] at hd
    exact (List.pairwise_cons.mp (List.pairwise_append.mp hd).2.1).2
  · intro u hu
    rw [stack_emit hst hroot] at hu
    rw [low_emit, number_emit]
    exact h.low_le u (hbelow hu)
  · -- the witness of a low number below the segment lies below the segment
    intro u hu
    rw [stack_emit hst hroot] at hu
    simp only [stack_emit hst hroot, low_emit, number_emit]
    obtain ⟨w, hw, hnum, hr⟩ := h.low_reached u (hbelow hu)
    refine ⟨w, (hc.mem_stack_iff.mp hw).resolve_left fun hm => ?_, hnum, hr⟩
    have h1 := hc.number_le_of_mem h hm
    have h2 := hc.number_lt_of_mem_below h hu
    have h3 := h.low_le u (hbelow hu)
    omega
  · intro u
    rw [hsettled, h.settled_iff, met_emit, stack_emit hst hroot, hc.mem_stack_iff]
    constructor
    · rintro (⟨hm, hs⟩ | hm)
      · exact ⟨hm, fun hb => hs (Or.inr hb)⟩
      · exact ⟨h.met_of_mem (hc.mem_stack_iff.mpr (Or.inl hm)), hc.notMem_below h hm⟩
    · rintro ⟨hm, hb⟩
      by_cases hmem : u ∈ above ++ [root]
      · exact Or.inr hmem
      · exact Or.inl ⟨hm, fun hs => hs.elim hmem hb⟩
  · intro u hu v hv
    rw [hsettled] at hu ⊢
    rcases hu with hu | hu
    · exact Or.inl (h.closed u hu v hv)
    · exact (hc.depends h hu hv).symm
  · rw [components_emit hst hroot]
    have hnodup : (above ++ [root]).Nodup := by
      have hn := h.nodup_stack
      rw [hst, List.append_cons] at hn
      exact (List.nodup_append.mp hn).1
    refine h.condensation.concat h.closed ?_ (ascending_mergeSort hnodup) ?_ ?_
    · exact List.ne_nil_of_mem ((hmem root).mpr (List.mem_append_right _ List.mem_cons_self))
    · intro u hu v hv
      exact hc.connected h ((hmem u).mp hu) ((hmem v).mp hv)
    · intro v hv hs
      exact ((h.settled_iff v).mp hs).2 (hc.mem_stack_iff.mpr (Or.inl ((hmem v).mp hv)))

end Search
end TypeGraph
