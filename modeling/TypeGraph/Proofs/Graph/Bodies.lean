/-
# Function bodies only add constraints

With function bodies looked into, definitions mention more names.  Ids and names stay as they are,
since they come from the definitions' own names.  Dependencies and unknown names grow
(`referencesUnder_sublist`), and all else follows from the growth of dependencies: what reaches goes
on reaching, so a cycle stays together in a larger one (`cycles_subset`), and an order that respects
more dependencies respects fewer (`isEvaluationOrder_of_depends`).
-/
import TypeGraph.Proofs.Expr.Bodies
import TypeGraph.Proofs.Graph.Names

namespace TypeGraph

theorem Definition.referencesUnder_sublist (definitions : List Definition) (name : String) :
    (referencesUnder false definitions name).Sublist (referencesUnder true definitions name) :=
  List.Sublist.flatMap_right _ fun d _ => Node.references_sublist (.definition d)

namespace DependencyGraph

/-! ## More dependencies -/

section Growth

variable {loose tight : DependencyGraph} (hdep : ∀ u v, loose.Depends u v → tight.Depends u v)
  (hself : loose.options.allowSelfReferences = tight.options.allowSelfReferences)

include hdep

theorem reaches_of_depends {u v : DefId} (h : loose.Reaches u v) : tight.Reaches u v :=
  Relation.ReflTransGen.mono hdep u v h

theorem isEvaluationOrder_of_depends (hids : tight.ids = loose.ids) {order : List DefId}
    (h : tight.IsEvaluationOrder order) : loose.IsEvaluationOrder order :=
  ⟨hids ▸ h.perm, h.nodup, fun v w hd hne => h.before v w (hdep v w hd) hne⟩

include hself

theorem onCycle_of_depends {v : DefId} (h : loose.OnCycle v) : tight.OnCycle v := by
  rw [onCycle_iff] at h ⊢
  rcases h with ⟨u, hne, hvu, huv⟩ | ⟨hallow, hd⟩
  · exact Or.inl ⟨u, hne, reaches_of_depends hdep hvu, reaches_of_depends hdep huv⟩
  · exact Or.inr ⟨hself ▸ hallow, hdep v v hd⟩

theorem cycles_subset (hloose : loose.WellFormed) (htight : tight.WellFormed) :
    ∃ cycles larger, loose.cycles = .ok cycles ∧ tight.cycles = .ok larger ∧
      ∀ c ∈ cycles, ∃ d ∈ larger, c ⊆ d := by
  obtain ⟨cycles, hcycles, hcond, hmem⟩ := cycles_condensation hloose
  obtain ⟨larger, hlarger, hcond', hmem'⟩ := cycles_condensation htight
  refine ⟨cycles, larger, hcycles, hlarger, fun c hc => ?_⟩
  have hlisted : ∀ u ∈ c, u ∈ larger.flatten := by
    intro u hu
    have hcycle : loose.OnCycle u := (hmem u).mp (List.mem_flatten.mpr ⟨c, hc, hu⟩)
    exact (hmem' u).mpr (onCycle_of_depends hdep hself hcycle)
  obtain ⟨v, hv⟩ := List.exists_mem_of_ne_nil c (hcond.nonempty c hc)
  obtain ⟨d, hd, hvd⟩ := List.mem_flatten.mp (hlisted v hv)
  refine ⟨d, hd, fun u hu => ?_⟩
  have hvu : tight.Reaches v u := reaches_of_depends hdep (hcond.connected c hc v hv u hu)
  have huv : tight.Reaches u v := reaches_of_depends hdep (hcond.connected c hc u hu v hv)
  exact hcond'.mem_of_reaches hd hvd (hlisted u hu) hvu huv

theorem evaluationOrder_of_depends (hloose : loose.WellFormed) (htight : tight.WellFormed)
    (hids : tight.ids = loose.ids) {order : List DefId}
    (h : tight.evaluationOrder = .ok (.ok order)) :
    (∃ own, loose.evaluationOrder = .ok (.ok own)) ∧ loose.IsEvaluationOrder order := by
  obtain ⟨r, hr, hriff, horder⟩ := evaluationOrder_eq_ok htight
  rw [h] at hr
  cases hr
  have hacyclic : ∀ v, ¬ loose.OnCycle v := fun v hv =>
    hriff.mp ⟨order, rfl⟩ v (onCycle_of_depends hdep hself hv)
  obtain ⟨s, hs, hsiff, -⟩ := evaluationOrder_eq_ok hloose
  obtain ⟨own, rfl⟩ := hsiff.mpr hacyclic
  exact ⟨⟨own, hs⟩, isEvaluationOrder_of_depends hdep hids (horder order rfl)⟩

end Growth

/-! ## Looking into function bodies -/

/-- `tight` has the definitions of `loose` and constrains them at least as much. -/
structure Tightens (tight loose : DependencyGraph) : Prop where
  ids_eq : tight.ids = loose.ids
  nameOf_eq : ∀ id, tight.nameOf id = loose.nameOf id
  dependencies : ∀ id ∈ loose.ids, ∃ deps more, loose.dependencies id = .ok deps ∧
    tight.dependencies id = .ok more ∧ deps ⊆ more
  unknown : ∀ id ∈ loose.ids, ∃ names more, loose.unknownNames id = .ok names ∧
    tight.unknownNames id = .ok more ∧ names ⊆ more
  /-- Every cycle lies within a cycle. -/
  cycles : ∃ cycles larger, loose.cycles = .ok cycles ∧ tight.cycles = .ok larger ∧
    ∀ c ∈ cycles, ∃ d ∈ larger, c ⊆ d
  /-- An order that is found for the one serves the other, which has one of its own. -/
  order : ∀ order, tight.evaluationOrder = .ok (.ok order) →
    (∃ own, loose.evaluationOrder = .ok (.ok own)) ∧ loose.IsEvaluationOrder order

section Build

variable {definitions : List Definition} {self : Bool}
  (hloose : (build ⟨false, self⟩ definitions).WellFormed)
  (htight : (build ⟨true, self⟩ definitions).WellFormed)

include hloose

theorem unknownNames_subset {u : DefId} (hu : u ∈ (build ⟨false, self⟩ definitions).ids) :
    ∃ names more, (build ⟨false, self⟩ definitions).unknownNames u = .ok names ∧
      (build ⟨true, self⟩ definitions).unknownNames u = .ok more ∧ names ⊆ more := by
  obtain ⟨a, ha⟩ := exists_nameOf (hloose.mem_ids.mp hu)
  have ha' : (build ⟨true, self⟩ definitions).nameOf u = .ok a := ha
  obtain ⟨names, hnames, hmem⟩ := unknownNames_build ha
  obtain ⟨more, hmore, hmem'⟩ := unknownNames_build ha'
  refine ⟨names, more, hnames, hmore, fun b hb => ?_⟩
  obtain ⟨hb, hunknown⟩ := (hmem b).mp hb
  exact (hmem' b).mpr ⟨(Definition.referencesUnder_sublist definitions a).subset hb, hunknown⟩

include htight

theorem dependencies_subset {u : DefId} (hu : u ∈ (build ⟨false, self⟩ definitions).ids) :
    ∃ deps more, (build ⟨false, self⟩ definitions).dependencies u = .ok deps ∧
      (build ⟨true, self⟩ definitions).dependencies u = .ok more ∧ deps ⊆ more := by
  obtain ⟨a, ha⟩ := exists_nameOf (hloose.mem_ids.mp hu)
  obtain ⟨deps, hdeps, hmem⟩ := dependencies_build hloose ha
  obtain ⟨more, hmore, hmem'⟩ := dependencies_build htight ha
  refine ⟨deps, more, hdeps, hmore, fun v hv => ?_⟩
  obtain ⟨b, hb, hname⟩ := (hmem v).mp hv
  exact (hmem' v).mpr ⟨b, (Definition.referencesUnder_sublist definitions a).subset hb, hname⟩

theorem depends_withBodies {u v : DefId} (h : (build ⟨false, self⟩ definitions).Depends u v) :
    (build ⟨true, self⟩ definitions).Depends u v := by
  have hu := hloose.mem_ids.mpr (hloose.depends_lt h).1
  obtain ⟨deps, more, hdeps, hmore, hsub⟩ := dependencies_subset hloose htight hu
  exact ⟨more, hmore, hsub ((depends_iff_mem hdeps).mp h)⟩

end Build

/-- Looking into the function bodies of any definitions with fewer than 2^32 distinct names only
adds constraints, whether or not self-references are allowed. -/
theorem functionBodies_tighten (self : Bool) (definitions : List Definition)
    (h : (definitions.map Definition.name).toFinset.card < UInt32.size) :
    (build { functionBodies := true, allowSelfReferences := self } definitions).Tightens
      (build { functionBodies := false, allowSelfReferences := self } definitions) := by
  have hloose : (build ⟨false, self⟩ definitions).WellFormed := build_wellFormed h
  have htight : (build ⟨true, self⟩ definitions).WellFormed := build_wellFormed h
  have hdep := fun u v => depends_withBodies hloose htight (u := u) (v := v)
  refine ⟨rfl, fun _ => rfl, ?_, ?_, cycles_subset hdep rfl hloose htight, ?_⟩
  · intro u hu
    exact dependencies_subset hloose htight hu
  · intro u hu
    exact unknownNames_subset hloose hu
  · intro order horder
    exact evaluationOrder_of_depends hdep rfl hloose htight rfl horder

/-- A function that depends on itself through `g`, and through `h` in a body as well. -/
def recursiveFunction : List Definition :=
  [.function "f" [⟨"x", .bare "g"⟩] (.scope [.function "inner" [] (.bare "h")] (.bare "U")),
    .var "g" (.union [.bare "f", .bare "T"]), .var "h" (.bare "f")]

/-- A function with a body that mentions later definitions. -/
def layeredFunction : List Definition :=
  [.function "f" [⟨"x", .bare "T"⟩] (.scope [.function "inner" [] (.bare "g")] (.bare "U")),
    .var "g" (.bare "T"), .struct "T" []]

theorem functionBodies_tighten_recursive_layered :
    ((recursiveFunction.map Definition.name).toFinset.card < UInt32.size ∧
      (layeredFunction.map Definition.name).toFinset.card < UInt32.size) ∧
    (build { functionBodies := true, allowSelfReferences := false } recursiveFunction).Tightens
      (build { functionBodies := false, allowSelfReferences := false } recursiveFunction) ∧
    (∃ cycles, cycles ≠ [] ∧ (build { functionBodies := false, allowSelfReferences := false }
      recursiveFunction).cycles = .ok cycles) ∧
    (build { functionBodies := true, allowSelfReferences := false } layeredFunction).Tightens
      (build { functionBodies := false, allowSelfReferences := false } layeredFunction) ∧
    ∃ order, (build { functionBodies := true, allowSelfReferences := false }
      layeredFunction).evaluationOrder = .ok (.ok order) := by
  refine ⟨⟨by decide, by decide⟩, functionBodies_tighten false recursiveFunction (by decide), ?_,
    functionBodies_tighten false layeredFunction (by decide), ?_⟩
  · have hg : (build ⟨false, false⟩ recursiveFunction).WellFormed := build_wellFormed (by decide)
    have hthere : (build ⟨false, false⟩ recursiveFunction).Depends ⟨0⟩ ⟨1⟩ :=
      depends_of_places hg rfl rfl (by decide)
    have hback : (build ⟨false, false⟩ recursiveFunction).Depends ⟨1⟩ ⟨0⟩ :=
      depends_of_places hg rfl rfl (by decide)
    have hcycle : (build ⟨false, false⟩ recursiveFunction).OnCycle ⟨0⟩ :=
      onCycle_iff.mpr (Or.inl ⟨⟨1⟩, by decide, .single hthere, .single hback⟩)
    obtain ⟨cycles, hcycles, -, hmem⟩ := cycles_condensation hg
    refine ⟨cycles, ?_, hcycles⟩
    rintro rfl
    exact absurd ((hmem _).mpr hcycle) List.not_mem_nil
  · have hg : (build ⟨true, false⟩ layeredFunction).WellFormed := build_wellFormed (by decide)
    obtain ⟨r, hr, hiff, -⟩ := evaluationOrder_eq_ok hg
    obtain ⟨order, rfl⟩ := hiff.mpr (not_onCycle_build hg ["T", "g", "f"].idxOf (by decide))
    exact ⟨order, hr⟩

end DependencyGraph
end TypeGraph
