/-
# The search finds the strongly connected components

From the invariant of one turn to the whole search: a run ends with an empty path and hence an
empty stack (`Inv.run`), a sweep over all ids leaves nothing unmet (`Inv.sweep`), and then the
settled components are all there is (`components_condensation`).  No lookup on the way fails, so
the components of a well-formed graph always exist.

`ListsComponents` says in the words of reachability what the list of components has to be, and
`components_listsComponents` that the search delivers it for the graph of any definitions.
-/
import TypeGraph.Proofs.Search.Turn

namespace TypeGraph
namespace Search

variable {g : DependencyGraph} {s : Search}

/-! ## A whole run -/

theorem run_nil (h : s.frames = []) : s.run g = .ok s := by
  rw [run]
  split
  · rfl
  · next hf => simp [h] at hf

theorem run_cons {f : Frame} {path : List Frame} (hf : s.frames = f :: path) {t : Search}
    (ht : step g { s with frames := path } f = .ok t) : s.run g = t.run g := by
  rw [run]
  split
  · next h => simp [hf] at h
  · next f' path' h =>
      rw [hf] at h
      cases h
      split
      · next h => simp [ht] at h
      · next t' h =>
          rw [ht] at h
          cases h
          rfl

/-- A run ends with an empty path and keeps the invariant: by induction along the turns. -/
theorem Inv.run (hg : g.WellFormed) (hs : s.Inv g) :
    ∃ t, s.run g = .ok t ∧ t.Inv g ∧ t.frames = [] ∧ ∀ u, s.Met u → t.Met u := by
  induction s using Search.run.induct g with
  | case1 s hf => exact ⟨s, run_nil hf, hs, hf, fun _ hu => hu⟩
  | case2 s f path hf b hb =>
      obtain ⟨t, ht, -, -⟩ := hs.step hg hf
      rw [hb] at ht
      cases ht
  | case3 s f path hf t ht ih =>
      obtain ⟨t', ht', hinv, hmet⟩ := hs.step hg hf
      rw [ht] at ht'
      cases ht'
      obtain ⟨r, hr, hrinv, hrf, hrmet⟩ := ih hinv
      exact ⟨r, (run_cons hf ht).trans hr, hrinv, hrf, fun u hu => hrmet u (hmet u hu)⟩

theorem Inv.stack_eq_nil (hs : s.Inv g) (hf : s.frames = []) : s.stack = [] := by
  have hseg := hs.segments
  rw [hf] at hseg
  generalize s.stack = stack at hseg
  cases hseg
  rfl

/-! ## Starting from every id -/

theorem Inv.connect (hg : g.WellFormed) (hs : s.Inv g) (hf : s.frames = []) {root : DefId}
    (hroot : root.index < g.size) :
    ∃ t, s.connect g root = .ok t ∧ t.Inv g ∧ t.frames = [] ∧ t.Met root ∧
      ∀ u, s.Met u → t.Met u := by
  have hlt : root.index < s.marks.size := by rwa [hs.marks_size]
  by_cases hmet : s.Met root
  · obtain ⟨m, hm⟩ := met_iff.mp hmet
    refine ⟨s, ?_, hs, hf, hmet, fun _ hu => hu⟩
    simp only [Search.connect, getElem?_of_mark hm]
  · obtain ⟨deps, hdeps⟩ := hg.dependencies_ok hroot
    have hinv := hs.meet_root hf hroot hmet hdeps
    obtain ⟨t, ht, htinv, htf, htmet⟩ := hinv.run hg
    have hmono : ∀ u, u = root ∨ s.Met u → t.Met u := fun u hu =>
      htmet u ((met_meet hlt deps [] u).mpr hu)
    refine ⟨t, ?_, htinv, htf, hmono root (Or.inl rfl), fun u hu => hmono u (Or.inr hu)⟩
    simp only [Search.connect, getElem?_of_not_met hlt hmet, visit_eq hdeps, hf, bind, Except.bind]
    exact ht

theorem Inv.sweep (hg : g.WellFormed) :
    ∀ (roots : List DefId) {s : Search}, s.Inv g → s.frames = [] →
      (∀ v ∈ roots, v.index < g.size) →
      ∃ t, roots.foldlM (Search.connect g) s = .ok t ∧ t.Inv g ∧ t.frames = [] ∧
        (∀ v ∈ roots, t.Met v) ∧ ∀ u, s.Met u → t.Met u
  | [], s, hs, hf, _ => ⟨s, rfl, hs, hf, fun _ hv => absurd hv List.not_mem_nil, fun _ hu => hu⟩
  | root :: roots, s, hs, hf, hlt => by
      obtain ⟨t, ht, htinv, htf, htroot, htmet⟩ :=
        hs.connect hg hf (hlt root List.mem_cons_self)
      obtain ⟨r, hr, hrinv, hrf, hrroots, hrmet⟩ :=
        Inv.sweep hg roots htinv htf fun v hv => hlt v (List.mem_cons_of_mem _ hv)
      refine ⟨r, ?_, hrinv, hrf, ?_, fun u hu => hrmet u (htmet u hu)⟩
      · simp only [List.foldlM_cons, ht, bind, Except.bind]
        exact hr
      · intro v hv
        rcases List.mem_cons.mp hv with rfl | hv
        · exact hrmet v htroot
        · exact hrroots v hv

theorem inv_start (g : DependencyGraph) : (start g.size).Inv g :=
  ⟨ledger_start g, .nil, .nil, fun _ hf => absurd hf List.not_mem_nil⟩

end Search

namespace DependencyGraph

/-- A well-formed graph has its components: a condensation that lists exactly the ids. -/
theorem components_condensation {g : DependencyGraph} (hg : g.WellFormed) :
    ∃ cs, g.components = .ok cs ∧ g.Condensation cs ∧ ∀ v, v ∈ cs.flatten ↔ v ∈ g.ids := by
  obtain ⟨t, ht, hinv, hf, hids, -⟩ :=
    Search.Inv.sweep hg g.ids (Search.inv_start g) rfl fun v hv => hg.mem_ids.mp hv
  refine ⟨t.components.toList, ?_, hinv.condensation, fun v => ?_⟩
  · simp only [components, ht, bind, Except.bind, pure, Except.pure]
  · have hsettled := hinv.settled_iff v
    rw [hinv.stack_eq_nil hf] at hsettled
    refine hsettled.trans ⟨fun h => ?_, fun h => ⟨hids v h, List.not_mem_nil⟩⟩
    rw [hg.mem_ids, ← hinv.marks_size]
    exact Search.lt_size_of_met h.1

/-! ## What the list of components is -/

/-- `cs` lists the strongly connected components of `g`, dependencies first. -/
structure ListsComponents (g : DependencyGraph) (cs : List (List DefId)) : Prop where
  nonempty : ∀ c ∈ cs, c ≠ []
  /-- Every id occurs in exactly one component and exactly once, and nothing else occurs. -/
  each_once : ∀ v, cs.flatten.count v = if v ∈ g.ids then 1 else 0
  /-- Sharing a component is reaching each other. -/
  shared_iff : ∀ u ∈ g.ids, ∀ v ∈ g.ids,
    (∃ c ∈ cs, u ∈ c ∧ v ∈ c) ↔ g.Reaches u v ∧ g.Reaches v u
  ascending : ∀ c ∈ cs, c.Pairwise fun a b => a.index < b.index
  /-- A dependency that leaves its component leads to a strictly earlier one. -/
  earlier : ∀ (i j : Nat) (hi : i < cs.length) (hj : j < cs.length), i ≠ j →
    ∀ u ∈ cs[i], ∀ v ∈ cs[j], g.Depends u v → j < i

/-- The components of the graph of any definitions with fewer than 2^32 distinct names are its
strongly connected components. -/
theorem components_listsComponents (options : GraphOptions) (definitions : List Definition)
    (h : (definitions.map Definition.name).toFinset.card < UInt32.size) :
    ∃ cs, (build options definitions).components = .ok cs ∧
      (build options definitions).ListsComponents cs := by
  obtain ⟨cs, hcs, hcond, hmem⟩ := components_condensation (build_wellFormed h)
  refine ⟨cs, hcs, hcond.nonempty, ?_, ?_, hcond.ascending, ?_⟩
  · intro v
    rw [hcond.nodup_flatten.count]
    simp only [hmem]
  · intro u hu v hv
    exact hcond.shared_iff ((hmem u).mpr hu) ((hmem v).mpr hv)
  · intro i j hi hj hij u hu v hv huv
    exact hcond.lt_of_reaches hi hj hij hu hv (.single huv)

/-- Two definitions that mention each other, and a third that mentions the first and itself. -/
def mutualDefinitions : List Definition :=
  [.var "A" (.union [.bare "B", .bare "X"]), .struct "B" [⟨"a", .bare "A"⟩],
    .var "C" (.union [.bare "A", .bare "C"])]

theorem components_listsComponents_mutual :
    (mutualDefinitions.map Definition.name).toFinset.card < UInt32.size ∧
    ∃ cs, (build {} mutualDefinitions).components = .ok cs ∧
      (build {} mutualDefinitions).ListsComponents cs :=
  ⟨by decide, components_listsComponents _ _ (by decide)⟩

end DependencyGraph
end TypeGraph
