/-
# The cycle that is reported

Where there is no evaluation order, the names on one cycle are reported.  Of all cycles it is the
first one that the search has settled, and a cycle that reaches another is settled after it.  So the
reported cycle is a root cause (`IsRootCause`): its members depend on each other, and nothing else
that they depend on, directly or not, lies on a cycle.
-/
import TypeGraph.Proofs.Graph.Cycles

namespace TypeGraph
namespace DependencyGraph

variable {g : DependencyGraph}

/-- A cycle that depends on itself and on no other one of the cycles. -/
structure IsRootCause (g : DependencyGraph) (cycles : List (List DefId)) (c : List DefId) :
    Prop where
  /-- Each member reaches each member along at least one dependency. -/
  connected : ∀ u ∈ c, ∀ v ∈ c, Relation.TransGen g.Depends u v
  /-- What a member reaches outside the cycle lies on no cycle. -/
  independent : ∀ u ∈ c, ∀ v, g.Reaches u v → v ∉ c → ∀ d ∈ cycles, v ∉ d

theorem OnCycle.transGen {v : DefId} (h : g.OnCycle v) : Relation.TransGen g.Depends v v := by
  rcases onCycle_iff.mp h with ⟨u, hne, hvu, huv⟩ | ⟨-, hself⟩
  · rcases Relation.reflTransGen_iff_eq_or_transGen.mp hvu with heq | hvu
    · exact absurd heq hne
    · exact hvu.trans_left huv
  · exact .single hself

/-- The first of the cycles is a root cause: a cycle that it reaches would stand before it. -/
theorem Condensation.isRootCause {first : List DefId} {rest : List (List DefId)}
    (hcond : g.Condensation (first :: rest)) (hcycle : ∀ v ∈ first, g.OnCycle v) :
    g.IsRootCause (first :: rest) first := by
  refine ⟨fun u hu v hv => ?_, fun u hu v hr hv d hd hvd => ?_⟩
  · have huv : g.Reaches u v := hcond.connected first List.mem_cons_self u hu v hv
    exact (hcycle u hu).transGen.trans_left huv
  · rcases List.mem_cons.mp hd with rfl | hd
    · exact hv hvd
    · exact (List.pairwise_cons.mp hcond.ordered).1 d hd u hu v hvd hr

/-- For the graph of any definitions with fewer than 2^32 distinct names, the search for an order
fails exactly when there are cycles.  It then reports the names of the first cycle, in the order of
the definitions, and this cycle is a root cause. -/
theorem evaluationOrder_reportsRootCause (options : GraphOptions) (definitions : List Definition)
    (h : (definitions.map Definition.name).toFinset.card < UInt32.size) :
    ∃ r cycles, (build options definitions).evaluationOrder = .ok r ∧
      (build options definitions).cycles = .ok cycles ∧
      ((∃ fault, r = .error fault) ↔ cycles ≠ []) ∧
      ∀ fault, r = .error fault → ∃ first rest, cycles = first :: rest ∧
        first.mapM (build options definitions).nameOf = .ok fault.names ∧
        first.Pairwise (fun a b => a.index < b.index) ∧
        (build options definitions).IsRootCause cycles first := by
  have hg : (build options definitions).WellFormed := build_wellFormed h
  obtain ⟨cs, hcs, -, -⟩ := components_condensation hg
  obtain ⟨cycles, hcycles, hcond, hmem⟩ := cycles_condensation hg
  rcases evaluationOrder_cases hg hcs hcycles with
    ⟨rfl, hr, -⟩ | ⟨first, rest, names, rfl, hnames, hr⟩
  · refine ⟨.ok cs.flatten, [], hr, hcycles, ?_, nofun⟩
    exact ⟨fun ⟨_, hfault⟩ => (nomatch hfault), fun hne => absurd rfl hne⟩
  · refine ⟨.error ⟨names⟩, first :: rest, hr, hcycles, ?_, ?_⟩
    · exact ⟨fun _ => List.cons_ne_nil first rest, fun _ => ⟨_, rfl⟩⟩
    · rintro fault ⟨⟩
      refine ⟨first, rest, rfl, hnames, hcond.ascending first List.mem_cons_self, ?_⟩
      exact hcond.isRootCause fun v hv =>
        (hmem v).mp (List.mem_flatten.mpr ⟨first, List.mem_cons_self, hv⟩)

/-- A definition that mentions itself, before the cycle that it depends on, which in turn depends on
a definition that lies on none. -/
def rootedDefinitions : List Definition :=
  [.var "C" (.union [.bare "A", .bare "C"]), .var "A" (.union [.bare "B", .bare "D"]),
    .struct "B" [⟨"a", .bare "A"⟩], .struct "D" []]

theorem evaluationOrder_reportsRootCause_rooted :
    (rootedDefinitions.map Definition.name).toFinset.card < UInt32.size ∧
    ∃ fault first rest, (build {} rootedDefinitions).evaluationOrder = .ok (.error fault) ∧
      (build {} rootedDefinitions).cycles = .ok (first :: rest) ∧
      first.mapM (build {} rootedDefinitions).nameOf = .ok fault.names ∧
      first.Pairwise (fun a b => a.index < b.index) ∧
      (build {} rootedDefinitions).IsRootCause (first :: rest) first ∧
      ∃ u ∈ first, ∃ v, (build {} rootedDefinitions).Reaches u v ∧ v ∉ first := by
  have hg : (build {} rootedDefinitions).WellFormed := build_wellFormed (by decide)
  have hCC : (build {} rootedDefinitions).Depends ⟨0⟩ ⟨0⟩ :=
    depends_of_places hg rfl rfl (by decide)
  have hCA : (build {} rootedDefinitions).Depends ⟨0⟩ ⟨1⟩ :=
    depends_of_places hg rfl rfl (by decide)
  have hAD : (build {} rootedDefinitions).Depends ⟨1⟩ ⟨3⟩ :=
    depends_of_places hg rfl rfl (by decide)
  have hBA : (build {} rootedDefinitions).Depends ⟨2⟩ ⟨1⟩ :=
    depends_of_places hg rfl rfl (by decide)
  -- `D` mentions nothing, so it lies on no cycle
  have hfree : ¬ (build {} rootedDefinitions).OnCycle ⟨3⟩ := by
    intro h
    obtain ⟨w, hw, -⟩ := Relation.TransGen.head'_iff.mp h.transGen
    obtain ⟨deps, hdeps, hmem⟩ := dependencies_build hg (u := ⟨3⟩) (nameOf_build.mpr rfl)
    obtain ⟨b, hb, -⟩ := (hmem w).mp ((depends_iff_mem hdeps).mp hw)
    exact absurd hb List.not_mem_nil
  obtain ⟨r, cycles, hr, hcycles, hiff, hfault⟩ :=
    evaluationOrder_reportsRootCause {} rootedDefinitions (by decide)
  obtain ⟨cycles', hcycles', hcond, hmem⟩ := cycles_condensation hg
  rw [hcycles] at hcycles'
  cases hcycles'
  have hne : cycles ≠ [] := by
    rintro rfl
    exact absurd ((hmem ⟨0⟩).mpr (onCycle_iff.mpr (Or.inr ⟨rfl, hCC⟩))) List.not_mem_nil
  obtain ⟨fault, rfl⟩ := hiff.mpr hne
  obtain ⟨first, rest, rfl, hnames, hascending, hroot⟩ := hfault fault rfl
  refine ⟨by decide, fault, first, rest, hr, hcycles, hnames, hascending, hroot, ?_⟩
  have hcyclic : ∀ v ∈ first, (build {} rootedDefinitions).OnCycle v := fun v hv =>
    (hmem v).mp (List.mem_flatten.mpr ⟨first, List.mem_cons_self, hv⟩)
  obtain ⟨u, hu⟩ := List.exists_mem_of_ne_nil first (hcond.nonempty first List.mem_cons_self)
  refine ⟨u, hu, ⟨3⟩, ?_, fun h => hfree (hcyclic _ h)⟩
  -- whichever cycle is the first, its members reach `D`
  have hids : (build {} rootedDefinitions).ids = [⟨0⟩, ⟨1⟩, ⟨2⟩, ⟨3⟩] := by
    rw [ids, size_build]
    decide
  have hmember := (hcyclic u hu).mem_ids hg
  simp only [hids, List.mem_cons, List.not_mem_nil, or_false] at hmember
  rcases hmember with rfl | rfl | rfl | rfl
  · exact .head hCA (.single hAD)
  · exact .single hAD
  · exact .head hBA (.single hAD)
  · exact absurd (hcyclic _ hu) hfree

end DependencyGraph
end TypeGraph
