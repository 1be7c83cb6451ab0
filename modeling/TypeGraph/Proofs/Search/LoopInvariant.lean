/-
# The loop invariant of the search

The search for components is a loop inside a loop.  The outer one goes over all ids and starts the
inner one from each id that has not been met; the inner one turns until its path is empty.
`Awaits g roots s` says that the outer loop comes to the state `s` with the ids `roots` still before
it, and `AtHead g s` that some start of the inner loop comes to `s` at the head of a turn, the last
head, with an empty path, included.  Both follow the operations of the search itself, and the outer
loop ends in the state from which the components are read (`exists_awaits_nil`).

The invariant that was kept turn by turn holds at every head (`AtHead.inv`).  `LoopInvariant` is
what it says there of marks, stack, path and settled components.
-/
import TypeGraph.Proofs.Graph.Components

namespace TypeGraph
namespace Search

/-! ## The states of the search -/

/-- The search for components comes to this state, with these ids still to be started from. -/
inductive Awaits (g : DependencyGraph) : List DefId → Search → Prop where
  | start : Awaits g g.ids (start g.size)
  | connect {root : DefId} {roots : List DefId} {s t : Search} (h : Awaits g (root :: roots) s)
      (ht : s.connect g root = .ok t) : Awaits g roots t

/-- Some start of the search comes to this state at the head of a turn. -/
inductive AtHead (g : DependencyGraph) : Search → Prop where
  /-- The search starts from an id that has not been met. -/
  | enter {root : DefId} {roots : List DefId} {s t : Search} (h : Awaits g (root :: roots) s)
      (hroot : s.marks[root.index]? = some none) (ht : s.visit g root = .ok t) : AtHead g t
  /-- One turn with the innermost frame leads from head to head. -/
  | turn {s t : Search} {f : Frame} {path : List Frame} (h : AtHead g s)
      (hf : s.frames = f :: path) (ht : step g { s with frames := path } f = .ok t) : AtHead g t

section Reached

variable {g : DependencyGraph} (hg : g.WellFormed)

include hg

/-- Between two starts the invariant holds, the path is empty and the ids to come are in the graph:
by induction on the starts so far. -/
theorem Awaits.inv {roots : List DefId} {s : Search} (h : Awaits g roots s) :
    s.Inv g ∧ s.frames = [] ∧ ∀ v ∈ roots, v.index < g.size := by
  induction h with
  | start => exact ⟨inv_start g, rfl, fun v hv => hg.mem_ids.mp hv⟩
  | connect _ ht ih =>
      obtain ⟨hs, hf, hroots⟩ := ih
      obtain ⟨t, ht', hinv, htf, -⟩ := hs.connect hg hf (hroots _ List.mem_cons_self)
      rw [ht] at ht'
      cases ht'
      exact ⟨hinv, htf, fun v hv => hroots v (List.mem_cons_of_mem _ hv)⟩

/-- The invariant holds at every head: by induction on the turns so far. -/
theorem AtHead.inv {s : Search} (h : AtHead g s) : s.Inv g := by
  induction h with
  | enter h hroot ht =>
      obtain ⟨hs, hf, hroots⟩ := h.inv hg
      have hlt := hroots _ List.mem_cons_self
      obtain ⟨deps, hdeps⟩ := hg.dependencies_ok hlt
      rw [visit_eq hdeps, hf] at ht
      cases ht
      exact hs.meet_root hf hlt (not_met_of_getElem? hroot) hdeps
  | turn _ hf ht ih =>
      obtain ⟨t, ht', hinv, -⟩ := ih.step hg hf
      rw [ht] at ht'
      cases ht'
      exact hinv

theorem AtHead.run {s t : Search} (h : AtHead g s) (ht : s.run g = .ok t) : AtHead g t := by
  induction s using Search.run.induct g with
  | case1 s hf =>
      rw [run_nil hf] at ht
      cases ht
      exact h
  | case2 s f path hf b hb =>
      obtain ⟨t', ht', -⟩ := (h.inv hg).step hg hf
      rw [hb] at ht'
      cases ht'
  | case3 s f path hf r hr ih =>
      rw [run_cons hf hr] at ht
      exact ih (h.turn hf hr) ht

/-- A start succeeds and comes back with an empty stack; from an id that has not been met, it comes
back from the last head. -/
theorem Awaits.exists_connect {root : DefId} {roots : List DefId} {s : Search}
    (h : Awaits g (root :: roots) s) :
    ∃ t, s.connect g root = .ok t ∧ t.stack = [] ∧ (¬ s.Met root → AtHead g t) := by
  obtain ⟨hs, hf, hroots⟩ := h.inv hg
  have hlt := hroots root List.mem_cons_self
  obtain ⟨t, ht, hinv, htf, -⟩ := hs.connect hg hf hlt
  refine ⟨t, ht, hinv.stack_eq_nil htf, fun hnew => ?_⟩
  have hroot := getElem?_of_not_met (hs.marks_size ▸ hlt) hnew
  obtain ⟨deps, hdeps⟩ := hg.dependencies_ok hlt
  simp only [Search.connect, hroot, visit_eq hdeps, bind, Except.bind] at ht
  exact (AtHead.enter h hroot (visit_eq hdeps s)).run hg ht

theorem Awaits.exists_foldlM : ∀ {roots : List DefId} {s : Search}, Awaits g roots s →
    ∃ t, roots.foldlM (Search.connect g) s = .ok t ∧ Awaits g [] t
  | [], s, h => ⟨s, rfl, h⟩
  | root :: roots, s, h => by
      obtain ⟨t, ht, -⟩ := h.exists_connect hg
      obtain ⟨r, hr, hend⟩ := Awaits.exists_foldlM (h.connect ht)
      refine ⟨r, ?_, hend⟩
      simp only [List.foldlM_cons, ht, bind, Except.bind]
      exact hr

theorem exists_awaits_nil : ∃ t, Awaits g [] t ∧ g.components = .ok t.components.toList := by
  obtain ⟨t, ht, hend⟩ := Awaits.exists_foldlM hg Awaits.start
  refine ⟨t, hend, ?_⟩
  simp only [DependencyGraph.components, ht, bind, Except.bind, pure, Except.pure]

end Reached

/-! ## The numbers that were given out -/

def numbers (s : Search) : List Nat := s.marks.toList.filterMap fun mark => mark.map Mark.index

section Numbers

variable {g : DependencyGraph} {s : Search}

theorem marks_eq (hg : g.WellFormed) (hsize : s.marks.size = g.size) :
    s.marks.toList = g.ids.map s.mark? := by
  refine List.ext_getElem (by simp [DependencyGraph.ids, hsize]) fun i hi _ => ?_
  have hlt : i < s.marks.size := by simpa using hi
  have hindex : (DefId.ofIndex i).index = i :=
    DefId.index_ofIndex (Nat.lt_of_lt_of_le (hsize ▸ hlt) hg.size_le)
  simp only [DependencyGraph.ids, List.getElem_map, List.getElem_range, mark?, hindex,
    Array.getElem?_eq_getElem hlt, Option.join_some, Array.getElem_toList]

theorem mem_numbers_iff (hg : g.WellFormed) (hsize : s.marks.size = g.size) {i : Nat} :
    i ∈ s.numbers ↔ ∃ v, s.Met v ∧ s.number v = i := by
  rw [numbers, marks_eq hg hsize, List.filterMap_map, List.mem_filterMap]
  constructor
  · rintro ⟨v, -, hv⟩
    obtain ⟨m, hm, rfl⟩ := Option.map_eq_some_iff.mp hv
    exact ⟨v, met_of_mark hm, number_of_mark hm⟩
  · rintro ⟨v, hmet, rfl⟩
    obtain ⟨m, hm⟩ := met_iff.mp hmet
    refine ⟨v, hg.mem_ids.mpr (hsize ▸ lt_size_of_met hmet), ?_⟩
    rw [number_of_mark hm]
    exact Option.map_eq_some_iff.mpr ⟨m, hm, rfl⟩

theorem Ledger.numbers_perm (hg : g.WellFormed) (hs : s.Ledger g) :
    s.numbers.Perm (List.range s.counter) := by
  have hnodup : s.numbers.Nodup := by
    rw [numbers, marks_eq hg hs.marks_size, List.filterMap_map]
    refine hg.nodup_ids.filterMap fun u v i hu hv => ?_
    obtain ⟨m, hm, rfl⟩ := Option.map_eq_some_iff.mp hu
    obtain ⟨m', hm', hindex⟩ := Option.map_eq_some_iff.mp hv
    refine hs.number_inj u v (met_of_mark hm) (met_of_mark hm') ?_
    rw [number_of_mark hm, number_of_mark hm', hindex]
  refine (List.perm_ext_iff_of_nodup hnodup List.nodup_range).mpr fun i => ?_
  rw [mem_numbers_iff hg hs.marks_size, List.mem_range]
  constructor
  · rintro ⟨v, hv, rfl⟩
    exact hs.number_lt v hv
  · exact hs.number_surj i

end Numbers

/-! ## What holds at every head -/

/-- What marks, stack, path and settled components have to do with each other. -/
structure LoopInvariant (g : DependencyGraph) (s : Search) : Prop where
  flagged_iff : ∀ w, s.flagged w = true ↔ w ∈ s.stack
  nodup_stack : s.stack.Nodup
  /-- From the bottom of the stack to its top, numbers ascend. -/
  ascending : s.stack.reverse.Pairwise fun a b => s.number a < s.number b
  /-- The numbers given out are those below the counter, each once. -/
  numbers_perm : s.numbers.Perm (List.range s.counter)
  path_sublist : (s.frames.map Frame.id).Sublist s.stack
  /-- Every definition on the path is a dependency of the one below it. -/
  path_depends : s.frames.IsChain fun f below => g.Depends below.id f.id
  low_le : ∀ v ∈ s.stack, s.low v ≤ s.number v
  /-- The low number is the number of something on the stack that is reached. -/
  low_reached : ∀ v ∈ s.stack, ∃ w ∈ s.stack, s.number w = s.low v ∧ g.Reaches v w
  /-- What has been met is on the stack or settled … -/
  met_iff : ∀ v, s.Met v ↔ v ∈ s.stack ∨ v ∈ s.settled
  /-- … and not both, and settled in one component only. -/
  nodup_met : (s.stack ++ s.settled).Nodup
  /-- Dependencies of what is settled are settled. -/
  closed : ∀ u ∈ s.settled, ∀ w, g.Depends u w → w ∈ s.settled

theorem Inv.loopInvariant {g : DependencyGraph} {s : Search} (hg : g.WellFormed) (hs : s.Inv g) :
    s.LoopInvariant g where
  flagged_iff := hs.flagged_iff
  nodup_stack := hs.nodup_stack
  ascending := List.pairwise_reverse.mpr hs.descending
  numbers_perm := hs.toLedger.numbers_perm hg
  path_sublist := hs.segments.sublist
  path_depends := hs.path
  low_le := hs.low_le
  low_reached := hs.low_reached
  met_iff := by
    intro v
    constructor
    · exact hs.mem_or_settled
    · rintro (hv | hv)
      · exact hs.met_of_mem hv
      · exact ((hs.settled_iff v).mp hv).1
  nodup_met := by
    refine List.nodup_append.mpr ⟨hs.nodup_stack, hs.condensation.nodup_flatten, ?_⟩
    rintro u hu v hv rfl
    exact ((hs.settled_iff u).mp hv).2 hu
  closed := hs.closed

/-- A turn that leaves a definition with its low number unchanged settles a component, and finds the
definition on the stack when it does. -/
def FindsRoot (g : DependencyGraph) (s : Search) : Prop :=
  ∀ f path, s.frames = f :: path → f.rest = [] → s.low f.id = s.number f.id →
    step g { s with frames := path } f
        = .ok ((raise { s with frames := path } (s.low f.id)).emit f.id) ∧
      f.id ∈ (raise { s with frames := path } (s.low f.id)).stack

theorem Inv.findsRoot {g : DependencyGraph} {s : Search} (hs : s.Inv g) : s.FindsRoot g := by
  intro f path hf hrest hlow
  have hmem : f.id ∈ s.stack := hs.segments.mem_stack (hf ▸ List.mem_cons_self)
  constructor
  · rw [hs.step_leave_eq hf hrest, if_pos hlow]
  · rwa [stack_raise]

end Search

namespace DependencyGraph

open Search

/-- In the search for the components of any definitions with fewer than 2^32 distinct names, the
loop invariant holds at the head of every turn of every start, and a component is settled only with
its root on the stack.  Every start goes from head to head and comes back with an empty stack, and
after the last one the components are there. -/
theorem components_keepLoopInvariant (options : GraphOptions) (definitions : List Definition)
    (h : (definitions.map Definition.name).toFinset.card < UInt32.size) :
    (∀ s, AtHead (build options definitions) s →
      s.LoopInvariant (build options definitions) ∧ s.FindsRoot (build options definitions)) ∧
    (∀ root roots s, Awaits (build options definitions) (root :: roots) s →
      ∃ t, s.connect (build options definitions) root = .ok t ∧ t.stack = [] ∧
        (¬ s.Met root → AtHead (build options definitions) t)) ∧
    ∃ t, Awaits (build options definitions) [] t ∧
      (build options definitions).components = .ok t.components.toList := by
  have hg : (build options definitions).WellFormed := build_wellFormed h
  refine ⟨fun s hs => ?_, fun root roots s hs => hs.exists_connect hg, exists_awaits_nil hg⟩
  have hinv := hs.inv hg
  exact ⟨hinv.loopInvariant hg, hinv.findsRoot⟩

theorem components_keepLoopInvariant_mutual :
    (mutualDefinitions.map Definition.name).toFinset.card < UInt32.size ∧
    (∃ root roots, Awaits (build {} mutualDefinitions) (root :: roots) (start 3) ∧
      ∃ t, (start 3).connect (build {} mutualDefinitions) root = .ok t ∧ t.stack = [] ∧
        AtHead (build {} mutualDefinitions) t ∧ t.LoopInvariant (build {} mutualDefinitions)) ∧
    ∃ s, AtHead (build {} mutualDefinitions) s ∧ s.stack ≠ [] ∧
      s.LoopInvariant (build {} mutualDefinitions) ∧ s.FindsRoot (build {} mutualDefinitions) := by
  have hsize : (build {} mutualDefinitions).size = 3 := (size_build {} mutualDefinitions).trans rfl
  have hids : (build {} mutualDefinitions).ids = .ofIndex 0 :: [.ofIndex 1, .ofIndex 2] := by
    rw [ids, hsize]
    rfl
  have hstart : Awaits (build {} mutualDefinitions) (.ofIndex 0 :: [.ofIndex 1, .ofIndex 2])
      (start 3) := by
    rw [← hids, ← hsize]
    exact .start
  have hcard : (mutualDefinitions.map Definition.name).toFinset.card < UInt32.size := by decide
  obtain ⟨hhead, hconnect, -⟩ := components_keepLoopInvariant {} mutualDefinitions hcard
  obtain ⟨t, ht, hstack, hlast⟩ := hconnect _ _ _ hstart
  have hlast : AtHead (build {} mutualDefinitions) t := hlast Bool.false_ne_true
  have hlt : (DefId.ofIndex 0).index < (build {} mutualDefinitions).size := by
    rw [hsize]
    decide
  obtain ⟨deps, hdeps⟩ := (build_wellFormed hcard).dependencies_ok hlt
  have hfirst := AtHead.enter hstart rfl (visit_eq hdeps (start 3))
  exact ⟨hcard, ⟨_, _, hstart, t, ht, hstack, hlast, (hhead t hlast).1⟩,
    _, hfirst, List.cons_ne_nil _ _, hhead _ hfirst⟩

end DependencyGraph
end TypeGraph
