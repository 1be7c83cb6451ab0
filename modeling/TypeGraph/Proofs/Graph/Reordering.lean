/-
# The order of definitions does not matter

Another order of the definitions gives the names other ids, lists dependencies in another order and
sends the search along other ways.  Two such searches have no state in common, but they answer
questions about one relation between names: a name is mentioned under another whatever the order of
the definitions (`referencesUnder_perm`).  Graphs with one relation between names answer alike
(`sameAnalysis_of_nameDepends`).
-/
import TypeGraph.Proofs.Graph.Names

namespace TypeGraph

def SameElements {α : Type} [DecidableEq α] (x y : Except Breach (List α)) : Prop :=
  ∃ l m, x = .ok l ∧ y = .ok m ∧ l.toFinset = m.toFinset

theorem SameElements.of_spec {α : Type} [DecidableEq α] {x y : Except Breach (List α)}
    {P Q : α → Prop} (hx : ∃ l, x = .ok l ∧ ∀ a, a ∈ l ↔ P a)
    (hy : ∃ m, y = .ok m ∧ ∀ a, a ∈ m ↔ Q a) (h : ∀ a, P a ↔ Q a) : SameElements x y := by
  obtain ⟨l, hl, hP⟩ := hx
  obtain ⟨m, hm, hQ⟩ := hy
  refine ⟨l, m, hl, hm, Finset.ext fun a => ?_⟩
  rw [List.mem_toFinset, List.mem_toFinset, hP a, hQ a, h a]

theorem Definition.referencesUnder_perm (bodies : Bool) {definitions reordered : List Definition}
    (h : definitions.Perm reordered) (name : String) :
    (referencesUnder bodies definitions name).Perm (referencesUnder bodies reordered name) :=
  (h.filter _).flatMap_right _

namespace DependencyGraph

/-- Two graphs say the same, as far as names go. -/
structure SameAnalysis (g h : DependencyGraph) : Prop where
  names : SameElements (g.ids.mapM g.nameOf) (h.ids.mapM h.nameOf)
  /-- A name has the same dependencies in both. -/
  dependencies : ∀ u v name, g.nameOf u = .ok name → h.nameOf v = .ok name →
    SameElements (g.dependencyNames u) (h.dependencyNames v)
  /-- A name has the same unknown names in both. -/
  unknown : ∀ u v name, g.nameOf u = .ok name → h.nameOf v = .ok name →
    SameElements (g.unknownNames u) (h.unknownNames v)
  /-- The cycles are the same sets of names. -/
  cycles : SameElements g.cycleNames h.cycleNames
  /-- Both have an evaluation order or none has. -/
  order : ∃ r s, g.evaluationOrder = .ok r ∧ h.evaluationOrder = .ok s ∧
    ((∃ order, r = .ok order) ↔ ∃ order, s = .ok order)

variable {g h : DependencyGraph}

theorem nameOnCycle_congr (hdep : g.NameDepends = h.NameDepends) (hoptions : g.options = h.options)
    (a : String) : g.NameOnCycle a ↔ h.NameOnCycle a := by
  simp only [NameOnCycle, NameReaches, hdep, hoptions]

theorem sameAnalysis_of_nameDepends (hg : g.WellFormed) (hh : h.WellFormed)
    (hoptions : g.options = h.options) (hnames : ∀ a, a ∈ g.names.toList ↔ a ∈ h.names.toList)
    (hdep : g.NameDepends = h.NameDepends)
    (hunknown : ∀ u v name, g.nameOf u = .ok name → h.nameOf v = .ok name →
      SameElements (g.unknownNames u) (h.unknownNames v)) : g.SameAnalysis h := by
  have hcycle := nameOnCycle_congr hdep hoptions
  refine ⟨.of_spec hg.idNames_spec hh.idNames_spec hnames, ?_, hunknown, ?_, ?_⟩
  · intro u v name hu hv
    refine .of_spec (hg.dependencyNames_spec hu) (hh.dependencyNames_spec hv) fun a => ?_
    rw [hdep]
  · refine .of_spec hg.cycleNames_spec hh.cycleNames_spec fun s => ?_
    simp only [hcycle, NameReaches, hdep]
  · obtain ⟨r, hr, hriff⟩ := hg.evaluationOrder_spec
    obtain ⟨s, hs, hsiff⟩ := hh.evaluationOrder_spec
    refine ⟨r, s, hr, hs, hriff.trans (Iff.trans ?_ hsiff.symm)⟩
    simp only [hcycle]

/-- The graph of any definitions with fewer than 2^32 distinct names says the same, name by name, in
whatever order the definitions are given. -/
theorem build_sameAnalysis_of_perm (options : GraphOptions)
    {definitions reordered : List Definition} (hperm : definitions.Perm reordered)
    (h : (definitions.map Definition.name).toFinset.card < UInt32.size) :
    (build options definitions).SameAnalysis (build options reordered) := by
  have hnames : ∀ a, a ∈ definitions.map Definition.name ↔ a ∈ reordered.map Definition.name :=
    fun a => (hperm.map Definition.name).mem_iff
  have hmentioned : ∀ a b, b ∈ Definition.referencesUnder options.functionBodies definitions a ↔
      b ∈ Definition.referencesUnder options.functionBodies reordered a :=
    fun a b => (Definition.referencesUnder_perm _ hperm a).mem_iff
  have hg : (build options definitions).WellFormed := build_wellFormed h
  have hh : (build options reordered).WellFormed :=
    build_wellFormed (by rwa [← List.toFinset_eq_of_perm _ _ (hperm.map Definition.name)])
  refine sameAnalysis_of_nameDepends hg hh rfl ?_ ?_ ?_
  · intro a
    rw [mem_names_build, mem_names_build, hnames a]
  · funext a b
    rw [nameDepends_build hg, nameDepends_build hh, hmentioned a b, hnames b]
  · intro u v name hu hv
    refine .of_spec (unknownNames_build hu) (unknownNames_build hv) fun b => ?_
    rw [hmentioned name b, hnames b]

theorem build_sameAnalysis_of_perm_repeated :
    (repeatedDefinitions.Perm repeatedDefinitions.reverse ∧
      (repeatedDefinitions.map Definition.name).toFinset.card < UInt32.size) ∧
    (build { functionBodies := true } repeatedDefinitions).SameAnalysis
      (build { functionBodies := true } repeatedDefinitions.reverse) :=
  have hperm : repeatedDefinitions.Perm repeatedDefinitions.reverse :=
    (List.reverse_perm repeatedDefinitions).symm
  ⟨⟨hperm, by decide⟩, build_sameAnalysis_of_perm _ hperm (by decide)⟩

end DependencyGraph
end TypeGraph
