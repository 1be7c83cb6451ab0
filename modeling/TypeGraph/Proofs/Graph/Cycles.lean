/-
# Cycles and evaluation order

A definition lies on a cycle when a closed walk along dependencies leads from it through some
other definition back to it, or, unless self-references are allowed, when it depends on itself
(`OnCycle`).  The test on components never looks for such a walk.  It counts members and looks for
a self-dependency, and that is enough: the members of a component of a condensation all lie on
cycles or none does (`isCycle_eq_ok`).

From there the two results follow the order of the components.  `cycles_listsCycles`: the reported
cycles are exactly the components on cycles, reached ones first.  `evaluationOrder_of_acyclic`: an
order exists exactly when nothing lies on a cycle, and then it is a permutation of the ids in which
every dependency precedes its dependent.  That nothing lies on a cycle can be seen from ranks
(`not_onCycle_build`).
-/
import Mathlib.Data.List.Chain
import TypeGraph.Graph.Order
import TypeGraph.Proofs.Except
import TypeGraph.Proofs.Graph.Components
import TypeGraph.Proofs.Graph.Construction

namespace TypeGraph

namespace DependencyGraph

/-! ## Closed walks -/

/-- From `v` along dependencies through `path`, whose last stop is `v` again. -/
def ClosedWalk (g : DependencyGraph) (v : DefId) (path : List DefId) : Prop :=
  (v :: path).IsChain g.Depends ∧ path.getLast? = some v

/-- The definition lies on a cycle through another definition, or on a self-dependency that is not
allowed. -/
def OnCycle (g : DependencyGraph) (v : DefId) : Prop :=
  (∃ path, g.ClosedWalk v path ∧ ∃ u ∈ path, u ≠ v) ∨
    (g.options.allowSelfReferences = false ∧ g.Depends v v)

variable {g : DependencyGraph}

theorem reaches_of_isChain : ∀ {path : List DefId} {v : DefId},
    (v :: path).IsChain g.Depends → ∀ u ∈ path, g.Reaches v u
  | [], _, _, _, hu => absurd hu List.not_mem_nil
  | w :: path, v, h, u, hu => by
      obtain ⟨hvw, hw⟩ := List.isChain_cons_cons.mp h
      rcases List.mem_cons.mp hu with rfl | hu
      · exact .single hvw
      · exact .head hvw (reaches_of_isChain hw u hu)

theorem ClosedWalk.reaches {v : DefId} {path : List DefId} (h : g.ClosedWalk v path) {u : DefId}
    (hu : u ∈ path) : g.Reaches v u ∧ g.Reaches u v := by
  obtain ⟨hchain, hlast⟩ := h
  refine ⟨reaches_of_isChain hchain u hu, ?_⟩
  obtain ⟨before, after, rfl⟩ := List.append_of_mem hu
  rw [← List.cons_append] at hchain
  have hsuffix : (u :: after).IsChain g.Depends := (List.isChain_append.mp hchain).2.1
  rw [List.getLast?_append_of_ne_nil _ (List.cons_ne_nil u after)] at hlast
  rcases List.mem_cons.mp (List.mem_of_getLast? hlast) with rfl | hv
  · exact .refl
  · exact reaches_of_isChain hsuffix v hv

theorem exists_closedWalk {v u : DefId} (hne : u ≠ v) (hvu : g.Reaches v u)
    (huv : g.Reaches u v) : ∃ path, g.ClosedWalk v path ∧ u ∈ path := by
  obtain ⟨out, hout, houtLast⟩ := List.exists_isChain_cons_of_relationReflTransGen hvu
  obtain ⟨back, hback, hbackLast⟩ := List.exists_isChain_cons_of_relationReflTransGen huv
  have huOut : u ∈ out := by
    have hmem := List.getLast_mem (List.cons_ne_nil v out)
    rw [houtLast] at hmem
    exact (List.mem_cons.mp hmem).resolve_left hne
  have hbackNe : back ≠ [] := by
    rintro rfl
    exact hne hbackLast
  refine ⟨out ++ back, ⟨?_, ?_⟩, List.mem_append_left _ huOut⟩
  · rw [← List.cons_append]
    refine hout.append hback.of_cons ?_
    intro x hx y hy
    rw [List.getLast?_eq_some_getLast (List.cons_ne_nil v out), houtLast] at hx
    cases hx
    exact hback.rel_head? hy
  · rw [List.getLast?_append_of_ne_nil _ hbackNe, List.getLast?_eq_some_getLast hbackNe]
    rw [List.getLast_cons hbackNe] at hbackLast
    rw [hbackLast]

/-- Lying on a cycle in terms of reachability. -/
theorem onCycle_iff {v : DefId} : g.OnCycle v ↔
    (∃ u, u ≠ v ∧ g.Reaches v u ∧ g.Reaches u v) ∨
      (g.options.allowSelfReferences = false ∧ g.Depends v v) := by
  refine or_congr ⟨?_, ?_⟩ Iff.rfl
  · rintro ⟨path, hwalk, u, hu, hne⟩
    exact ⟨u, hne, hwalk.reaches hu⟩
  · rintro ⟨u, hne, hvu, huv⟩
    obtain ⟨path, hwalk, hu⟩ := exists_closedWalk hne hvu huv
    exact ⟨path, hwalk, u, hu, hne⟩

theorem OnCycle.mem_ids (hg : g.WellFormed) {v : DefId} (h : g.OnCycle v) : v ∈ g.ids := by
  rw [hg.mem_ids]
  rcases onCycle_iff.mp h with ⟨u, hne, hvu, -⟩ | ⟨-, hself⟩
  · rcases hvu.cases_head with rfl | ⟨w, hvw, -⟩
    · exact absurd rfl hne
    · exact (hg.depends_lt hvw).1
  · exact (hg.depends_lt hself).1

/-! ## The test on components -/

theorem WellFormed.reaches_mem_ids (hg : g.WellFormed) {u v : DefId} (hu : u ∈ g.ids)
    (h : g.Reaches u v) : v ∈ g.ids :=
  Closed.reaches (fun _ _ _ hd => hg.mem_ids.mpr (hg.depends_lt hd).2) hu h

theorem isCycle_singleton (hg : g.WellFormed) {v : DefId} (hv : v ∈ g.ids) :
    ∃ b, g.isCycle [v] = .ok b ∧
      (b = true ↔ g.options.allowSelfReferences = false ∧ g.Depends v v) := by
  obtain ⟨deps, hdeps⟩ := hg.dependencies_ok (hg.mem_ids.mp hv)
  obtain ⟨m, hm, rfl⟩ := dependencies_eq_ok_iff.mp hdeps
  cases hallow : g.options.allowSelfReferences with
  | true => exact ⟨false, by simp [isCycle, hallow, pure, Except.pure], by simp⟩
  | false =>
      refine ⟨m.dependencies.contains v, ?_, ?_⟩
      · simp [isCycle, hallow, mentionsOf, hm, bind, Except.bind, pure, Except.pure]
      · rw [OrderedSet.contains_iff, depends_iff_mem hdeps, and_iff_right rfl]

variable {cs : List (List DefId)}

/-- In a condensation of all ids, the test on a component tells of each member whether it lies on
a cycle. -/
theorem isCycle_eq_ok (hg : g.WellFormed) (hcond : g.Condensation cs)
    (hall : ∀ v, v ∈ cs.flatten ↔ v ∈ g.ids) {c : List DefId} (hc : c ∈ cs) :
    ∃ b, g.isCycle c = .ok b ∧ ∀ v ∈ c, b = true ↔ g.OnCycle v := by
  match c, hcond.nonempty c hc with
  | [v], _ =>
      have hv : v ∈ g.ids := (hall v).mp (List.mem_flatten.mpr ⟨_, hc, List.mem_singleton_self v⟩)
      obtain ⟨b, hb, hiff⟩ := isCycle_singleton hg hv
      refine ⟨b, hb, fun u hu => ?_⟩
      rw [List.mem_singleton.mp hu, hiff, onCycle_iff]
      -- a definition on a longer cycle is not alone in its component
      refine ⟨Or.inr, fun h => h.resolve_left ?_⟩
      rintro ⟨w, hne, hvw, hwv⟩
      have hw : w ∈ [v] := hcond.mem_of_reaches hc (List.mem_singleton_self v)
        ((hall w).mpr (hg.reaches_mem_ids hv hvw)) hvw hwv
      exact hne (List.mem_singleton.mp hw)
  | a :: b :: rest, _ =>
      refine ⟨true, rfl, fun v hv => ⟨fun _ => onCycle_iff.mpr (Or.inl ?_), fun _ => rfl⟩⟩
      have hab : a ≠ b := by
        have hnodup := nodup_of_ascending (hcond.ascending _ hc)
        rintro rfl
        exact (List.nodup_cons.mp hnodup).1 List.mem_cons_self
      have hother : ∃ u ∈ a :: b :: rest, u ≠ v := by
        by_cases hva : v = a
        · exact ⟨b, List.mem_cons_of_mem _ List.mem_cons_self, by rw [hva]; exact hab.symm⟩
        · exact ⟨a, List.mem_cons_self, Ne.symm hva⟩
      obtain ⟨u, hu, hne⟩ := hother
      exact ⟨u, hne, hcond.connected _ hc v hv u hu, hcond.connected _ hc u hu v hv⟩

open Classical in
theorem components_isCycle (hg : g.WellFormed) :
    ∃ cs, g.components = .ok cs ∧ g.Condensation cs ∧ (∀ v, v ∈ cs.flatten ↔ v ∈ g.ids) ∧
      ∃ p : List DefId → Bool, (∀ c ∈ cs, g.isCycle c = .ok (p c)) ∧
        ∀ c ∈ cs, ∀ v ∈ c, p c = true ↔ g.OnCycle v := by
  obtain ⟨cs, hcs, hcond, hall⟩ := components_condensation hg
  refine ⟨cs, hcs, hcond, hall, fun c => decide (g.isCycle c = .ok true), fun c hc => ?_,
    fun c hc => ?_⟩
  · obtain ⟨b, hb, -⟩ := isCycle_eq_ok hg hcond hall hc
    cases b with
    | false => simp [hb]
    | true => simp [hb]
  · obtain ⟨b, hb, hiff⟩ := isCycle_eq_ok hg hcond hall hc
    simpa [hb] using hiff

/-! ## The cycles -/

/-- `cycles` lists what lies on cycles, grouped by reaching each other, reached groups first. -/
structure ListsCycles (g : DependencyGraph) (cycles : List (List DefId)) : Prop where
  /-- Being listed is lying on a cycle. -/
  mem_iff : ∀ v, (∃ c ∈ cycles, v ∈ c) ↔ g.OnCycle v
  /-- No id occurs in two lists, or twice in one. -/
  nodup : cycles.flatten.Nodup
  /-- Sharing a list is reaching each other. -/
  shared_iff : ∀ u ∈ cycles.flatten, ∀ v ∈ cycles.flatten,
    (∃ c ∈ cycles, u ∈ c ∧ v ∈ c) ↔ g.Reaches u v ∧ g.Reaches v u
  ascending : ∀ c ∈ cycles, c.Pairwise fun a b => a.index < b.index
  /-- A cycle that is reached from a different one is listed earlier. -/
  earlier : ∀ (i j : Nat) (hi : i < cycles.length) (hj : j < cycles.length), i ≠ j →
    ∀ u ∈ cycles[i], ∀ v ∈ cycles[j], g.Reaches u v → j < i

theorem cycles_condensation (hg : g.WellFormed) :
    ∃ cycles, g.cycles = .ok cycles ∧ g.Condensation cycles ∧
      ∀ v, v ∈ cycles.flatten ↔ g.OnCycle v := by
  obtain ⟨cs, hcs, hcond, hall, p, hp, hiff⟩ := components_isCycle hg
  refine ⟨cs.filter p, ?_, hcond.filter p, fun v => ⟨?_, ?_⟩⟩
  · simp only [cycles, hcs, bind, Except.bind, filterM_eq_ok hp]
  · intro hv
    obtain ⟨c, hc, hvc⟩ := List.mem_flatten.mp hv
    obtain ⟨hcs, hpc⟩ := List.mem_filter.mp hc
    exact (hiff c hcs v hvc).mp hpc
  · intro hv
    obtain ⟨c, hc, hvc⟩ := List.mem_flatten.mp ((hall v).mpr (hv.mem_ids hg))
    exact List.mem_flatten.mpr ⟨c, List.mem_filter.mpr ⟨hc, (hiff c hc v hvc).mpr hv⟩, hvc⟩

/-- The cycles of the graph of any definitions with fewer than 2^32 distinct names are exactly
what lies on cycles. -/
theorem cycles_listsCycles (options : GraphOptions) (definitions : List Definition)
    (h : (definitions.map Definition.name).toFinset.card < UInt32.size) :
    ∃ cycles, (build options definitions).cycles = .ok cycles ∧
      (build options definitions).ListsCycles cycles := by
  have hg : (build options definitions).WellFormed := build_wellFormed h
  obtain ⟨cycles, hcycles, hcond, hmem⟩ := cycles_condensation hg
  refine ⟨cycles, hcycles, ?_, hcond.nodup_flatten, ?_, hcond.ascending, ?_⟩
  · exact fun v => List.mem_flatten.symm.trans (hmem v)
  · exact fun u hu v hv => hcond.shared_iff hu hv
  · exact fun i j hi hj hij u hu v hv => hcond.lt_of_reaches hi hj hij hu hv

theorem cycles_listsCycles_mutual :
    (mutualDefinitions.map Definition.name).toFinset.card < UInt32.size ∧
    ∃ cycles, (build {} mutualDefinitions).cycles = .ok cycles ∧
      (build {} mutualDefinitions).ListsCycles cycles :=
  ⟨by decide, cycles_listsCycles _ _ (by decide)⟩

/-! ## The order -/

/-- `order` lists all definitions, each after its dependencies. -/
structure IsEvaluationOrder (g : DependencyGraph) (order : List DefId) : Prop where
  perm : order.Perm g.ids
  /-- Each definition occurs once. -/
  nodup : order.Nodup
  /-- A dependency on another definition occurs before the dependent. -/
  before : ∀ v w, g.Depends v w → w ≠ v → [w, v].Sublist order

theorem sublist_flatten {i j : Nat} (hij : i < j) (hj : j < cs.length) {u v : DefId}
    (hu : u ∈ cs[i]) (hv : v ∈ cs[j]) : [u, v].Sublist cs.flatten := by
  have hut : u ∈ (cs.take j).flatten :=
    List.mem_flatten.mpr ⟨cs[i], List.mem_take_iff_getElem.mpr ⟨i, by omega, rfl⟩, hu⟩
  have hvd : v ∈ (cs.drop j).flatten :=
    List.mem_flatten.mpr ⟨cs[j], List.mem_drop_iff_getElem.mpr ⟨0, by omega, rfl⟩, hv⟩
  rw [← List.take_append_drop j cs, List.flatten_append]
  exact (List.singleton_sublist.mpr hut).append (List.singleton_sublist.mpr hvd)

theorem Condensation.flatten_perm (hg : g.WellFormed) (hcond : g.Condensation cs)
    (hall : ∀ v, v ∈ cs.flatten ↔ v ∈ g.ids) : cs.flatten.Perm g.ids :=
  (List.perm_ext_iff_of_nodup hcond.nodup_flatten hg.nodup_ids).mpr hall

theorem Condensation.isEvaluationOrder (hg : g.WellFormed) (hcond : g.Condensation cs)
    (hall : ∀ v, v ∈ cs.flatten ↔ v ∈ g.ids) (hacyclic : ∀ v, ¬ g.OnCycle v) :
    g.IsEvaluationOrder cs.flatten := by
  refine ⟨hcond.flatten_perm hg hall, hcond.nodup_flatten, ?_⟩
  intro v w hvw hne
  obtain ⟨hvlt, hwlt⟩ := hg.depends_lt hvw
  obtain ⟨c, hc, hvc⟩ := List.mem_flatten.mp ((hall v).mpr (hg.mem_ids.mpr hvlt))
  obtain ⟨d, hd, hwd⟩ := List.mem_flatten.mp ((hall w).mpr (hg.mem_ids.mpr hwlt))
  obtain ⟨i, hi, rfl⟩ := List.mem_iff_getElem.mp hc
  obtain ⟨j, hj, rfl⟩ := List.mem_iff_getElem.mp hd
  have hij : i ≠ j := by
    rintro rfl
    have hwv := hcond.connected _ hc w hwd v hvc
    exact hacyclic v (onCycle_iff.mpr (Or.inl ⟨w, hne, .single hvw, hwv⟩))
  exact sublist_flatten (hcond.lt_of_reaches hi hj hij hvc hwd (.single hvw)) hi hwd hvc

theorem exists_nameOf {v : DefId} (h : v.index < g.size) : ∃ a, g.nameOf v = .ok a := by
  rw [size, OrderedSet.size_eq] at h
  refine ⟨g.names.toList[v.index], ?_⟩
  simp only [nameOf, OrderedSet.get?_eq, List.getElem?_eq_getElem h]

/-- A well-formed graph either has no cycle and its components are the order, or the names on its
first cycle are reported. -/
theorem evaluationOrder_cases (hg : g.WellFormed) {cycles : List (List DefId)}
    (hcs : g.components = .ok cs) (hcycles : g.cycles = .ok cycles) :
    (cycles = [] ∧ g.evaluationOrder = .ok (.ok cs.flatten) ∧
        ∀ c ∈ cs, g.isCycle c = .ok false) ∨
      ∃ first rest names, cycles = first :: rest ∧ first.mapM g.nameOf = .ok names ∧
        g.evaluationOrder = .ok (.error ⟨names⟩) := by
  obtain ⟨cs', hcs', -, hall, p, hp, -⟩ := components_isCycle hg
  rw [hcs] at hcs'
  cases hcs'
  simp only [DependencyGraph.cycles, hcs, bind, Except.bind, filterM_eq_ok hp] at hcycles
  cases hcycles
  cases hfilter : cs.filter p with
  | nil =>
      have hfind : cs.find? p = none := by rw [← List.head?_filter, hfilter, List.head?_nil]
      refine Or.inl ⟨rfl, ?_, fun c hc => ?_⟩
      · simp only [evaluationOrder, hcs, findM?_eq_ok hp, hfind, bind, Except.bind, pure,
          Except.pure]
      · rw [hp c hc, Bool.eq_false_iff.mpr (List.filter_eq_nil_iff.mp hfilter c hc)]
  | cons first rest =>
      have hfind : cs.find? p = some first := by
        rw [← List.head?_filter, hfilter, List.head?_cons]
      have hfirst : first ∈ cs := List.mem_of_find?_eq_some hfind
      obtain ⟨names, hnames, -⟩ := exists_mapM_eq_ok (f := g.nameOf) (l := first) fun v hv =>
        exists_nameOf (hg.mem_ids.mp ((hall v).mp (List.mem_flatten.mpr ⟨first, hfirst, hv⟩)))
      refine Or.inr ⟨first, rest, names, rfl, hnames, ?_⟩
      simp only [evaluationOrder, hcs, findM?_eq_ok hp, hfind, hnames, bind, Except.bind, pure,
        Except.pure]

theorem evaluationOrder_eq_ok (hg : g.WellFormed) :
    ∃ r, g.evaluationOrder = .ok r ∧ ((∃ order, r = .ok order) ↔ ∀ v, ¬ g.OnCycle v) ∧
      ∀ order, r = .ok order → g.IsEvaluationOrder order := by
  obtain ⟨cs, hcs, hcond, hall⟩ := components_condensation hg
  obtain ⟨cycles, hcycles, hcyclic, hmem⟩ := cycles_condensation hg
  rcases evaluationOrder_cases hg hcs hcycles with ⟨rfl, hr, -⟩ | ⟨first, rest, names, rfl, -, hr⟩
  · have hacyclic : ∀ v, ¬ g.OnCycle v := fun v hv => absurd ((hmem v).mpr hv) List.not_mem_nil
    refine ⟨.ok cs.flatten, hr, ⟨fun _ => hacyclic, fun _ => ⟨_, rfl⟩⟩, ?_⟩
    rintro order ⟨⟩
    exact hcond.isEvaluationOrder hg hall hacyclic
  · obtain ⟨v, hv⟩ := List.exists_mem_of_ne_nil first (hcyclic.nonempty first List.mem_cons_self)
    have hvcycle : g.OnCycle v := (hmem v).mp (List.mem_flatten.mpr ⟨first, List.mem_cons_self, hv⟩)
    refine ⟨.error ⟨names⟩, hr, ⟨fun ⟨_, h⟩ => (nomatch h), fun hacyclic => ?_⟩, nofun⟩
    exact absurd hvcycle (hacyclic v)

theorem not_onCycle_iff : (∀ v, ¬ g.OnCycle v) ↔
    (¬ ∃ v path, g.ClosedWalk v path ∧ ∃ u ∈ path, u ≠ v) ∧
      (g.options.allowSelfReferences = false → ¬ ∃ v, g.Depends v v) := by
  constructor
  · refine fun h => ⟨?_, ?_⟩
    · rintro ⟨v, hv⟩
      exact h v (Or.inl hv)
    · rintro hallow ⟨v, hv⟩
      exact h v (Or.inr ⟨hallow, hv⟩)
  · rintro ⟨hwalk, hself⟩ v (hv | ⟨hallow, hv⟩)
    · exact hwalk ⟨v, hv⟩
    · exact hself hallow ⟨v, hv⟩

theorem not_onCycle_of_rank (rank : DefId → Nat) (hrank : ∀ u v, g.Depends u v →
    rank v < rank u ∨ v = u ∧ g.options.allowSelfReferences = true) (v : DefId) :
    ¬ g.OnCycle v := by
  -- a stop on the way that is not the start has come down for good
  have hdown : ∀ {u v : DefId}, g.Reaches u v → v = u ∨ rank v < rank u := by
    intro u v h
    induction h with
    | refl => exact Or.inl rfl
    | tail _ hd ih =>
        rcases hrank _ _ hd with hlt | ⟨rfl, -⟩
        · rcases ih with rfl | ih
          · exact Or.inr hlt
          · exact Or.inr (Nat.lt_trans hlt ih)
        · exact ih
  intro h
  rcases onCycle_iff.mp h with ⟨u, hne, hvu, huv⟩ | ⟨hself, hd⟩
  · rcases hdown hvu with heq | hlt
    · exact hne heq
    · rcases hdown huv with heq | hlt'
      · exact hne heq.symm
      · exact Nat.lt_asymm hlt hlt'
  · rcases hrank v v hd with hlt | ⟨-, hallow⟩
    · exact Nat.lt_irrefl _ hlt
    · rw [hself] at hallow
      cases hallow

/-- Definitions lie on no cycle if their names have ranks that fall from a name to those mentioned
under it. -/
theorem not_onCycle_build {options : GraphOptions} {definitions : List Definition}
    (hg : (build options definitions).WellFormed) (rank : String → Nat)
    (hrank : ∀ a ∈ definitions.map Definition.name,
      ∀ b ∈ Definition.referencesUnder options.functionBodies definitions a,
        b ∈ definitions.map Definition.name →
          rank b < rank a ∨ b = a ∧ options.allowSelfReferences = true) (v : DefId) :
    ¬ (build options definitions).OnCycle v := by
  have hdefined : ∀ {u : DefId} {a : String}, (build options definitions).nameOf u = .ok a →
      a ∈ definitions.map Definition.name := fun hu =>
    mem_names_build.mp (hg.exists_nameOf_iff.mp ⟨_, hu⟩)
  refine not_onCycle_of_rank
    (fun u => ((build options definitions).nameOf u).toOption.elim 0 rank) ?_ v
  intro u w hd
  obtain ⟨a, ha⟩ := exists_nameOf (hg.depends_lt hd).1
  obtain ⟨b, hb⟩ := exists_nameOf (hg.depends_lt hd).2
  rcases hrank a (hdefined ha) b ((depends_build hg ha hb).mp hd) (hdefined hb) with
    hlt | ⟨rfl, hallow⟩
  · rw [ha, hb]
    exact Or.inl hlt
  · exact Or.inr ⟨nameOf_inj hb ha, hallow⟩

/-- The graph of any definitions with fewer than 2^32 distinct names has an evaluation order
exactly when no cycle leads through two definitions and, unless self-references are allowed, none
depends on itself. -/
theorem evaluationOrder_of_acyclic (options : GraphOptions) (definitions : List Definition)
    (h : (definitions.map Definition.name).toFinset.card < UInt32.size) :
    ∃ r, (build options definitions).evaluationOrder = .ok r ∧
      ((∃ order, r = .ok order) ↔
        (¬ ∃ v path, (build options definitions).ClosedWalk v path ∧ ∃ u ∈ path, u ≠ v) ∧
          (options.allowSelfReferences = false →
            ¬ ∃ v, (build options definitions).Depends v v)) ∧
      ∀ order, r = .ok order → (build options definitions).IsEvaluationOrder order := by
  have hg : (build options definitions).WellFormed := build_wellFormed h
  obtain ⟨r, hr, hiff, horder⟩ := evaluationOrder_eq_ok hg
  exact ⟨r, hr, hiff.trans not_onCycle_iff, horder⟩

/-- Three definitions, the first of which mentions the others in the wrong order. -/
def layeredDefinitions : List Definition :=
  [.var "A" (.union [.bare "B", .bare "C"]), .struct "B" [⟨"c", .bare "C"⟩], .var "C" (.bare "X")]

theorem evaluationOrder_of_acyclic_mutual_layered :
    (mutualDefinitions.map Definition.name).toFinset.card < UInt32.size ∧
    (∃ r, (build {} mutualDefinitions).evaluationOrder = .ok r ∧
      ((∃ order, r = .ok order) ↔
        (¬ ∃ v path, (build {} mutualDefinitions).ClosedWalk v path ∧ ∃ u ∈ path, u ≠ v) ∧
          (({} : GraphOptions).allowSelfReferences = false →
            ¬ ∃ v, (build {} mutualDefinitions).Depends v v)) ∧
      ∀ order, r = .ok order → (build {} mutualDefinitions).IsEvaluationOrder order) ∧
    (layeredDefinitions.map Definition.name).toFinset.card < UInt32.size ∧
    ∃ order, (build {} layeredDefinitions).evaluationOrder = .ok (.ok order) ∧
      (build {} layeredDefinitions).IsEvaluationOrder order := by
  refine ⟨by decide, evaluationOrder_of_acyclic _ _ (by decide), by decide, ?_⟩
  have hg : (build {} layeredDefinitions).WellFormed := build_wellFormed (by decide)
  obtain ⟨r, hr, hiff, horder⟩ := evaluationOrder_of_acyclic {} layeredDefinitions (by decide)
  obtain ⟨order, rfl⟩ := hiff.mpr
    (not_onCycle_iff.mp (not_onCycle_build hg ["C", "B", "A"].idxOf (by decide)))
  exact ⟨order, hr, horder order rfl⟩

end DependencyGraph
end TypeGraph
