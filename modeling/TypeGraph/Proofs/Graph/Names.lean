/-
# The graph in terms of names

Ids are numbers given in the order in which names appear.  What a graph says can be put without
them: which names there are, which name depends on which, and which names are unknown.  Reaching
and lying on a cycle are then matters of the relation between names alone
(`reaches_iff_nameReaches`, `onCycle_iff_nameOnCycle`).  So are the cycles, each as a set of names
(`cycleNames_spec`), and the question whether there is an evaluation order
(`evaluationOrder_spec`), although both are found by a search that goes from id to id.

For the graph of definitions, one name depends on another when the definitions of the one mention
the other and the other is defined (`nameDepends_build`).
-/
import TypeGraph.Proofs.Graph.Construction
import TypeGraph.Proofs.Graph.Cycles

namespace TypeGraph

namespace DependencyGraph

variable {g : DependencyGraph}

/-! ## Names and ids -/

theorem lt_size_of_nameOf {v : DefId} {a : String} (h : g.nameOf v = .ok a) : v.index < g.size := by
  obtain ⟨hlt, -⟩ := List.getElem?_eq_some_iff.mp (nameOf_eq_ok_iff.mp h)
  rwa [size, OrderedSet.size_eq]

theorem WellFormed.idNames_spec (hg : g.WellFormed) :
    ∃ names, g.ids.mapM g.nameOf = .ok names ∧ ∀ a, a ∈ names ↔ a ∈ g.names.toList := by
  obtain ⟨names, hnames, hmem⟩ := exists_mapM_eq_ok (f := g.nameOf) (l := g.ids)
    fun v hv => exists_nameOf (hg.mem_ids.mp hv)
  refine ⟨names, hnames, fun a => ?_⟩
  rw [hmem a, ← hg.exists_nameOf_iff]
  constructor
  · rintro ⟨v, -, hv⟩
    exact ⟨v, hv⟩
  · rintro ⟨v, hv⟩
    exact ⟨v, hg.mem_ids.mpr (lt_size_of_nameOf hv), hv⟩

/-! ## Dependence between names -/

def NameDepends (g : DependencyGraph) (a b : String) : Prop :=
  ∃ u v, g.nameOf u = .ok a ∧ g.nameOf v = .ok b ∧ g.Depends u v

def NameReaches (g : DependencyGraph) : String → String → Prop :=
  Relation.ReflTransGen g.NameDepends

def NameOnCycle (g : DependencyGraph) (a : String) : Prop :=
  (∃ b, b ≠ a ∧ g.NameReaches a b ∧ g.NameReaches b a) ∨
    (g.options.allowSelfReferences = false ∧ g.NameDepends a a)

theorem nameDepends_iff {u v : DefId} {a b : String} (hu : g.nameOf u = .ok a)
    (hv : g.nameOf v = .ok b) : g.NameDepends a b ↔ g.Depends u v := by
  constructor
  · rintro ⟨u', v', hu', hv', h⟩
    rwa [nameOf_inj hu hu', nameOf_inj hv hv']
  · intro h
    exact ⟨u, v, hu, hv, h⟩

theorem NameReaches.exists_nameOf {u : DefId} {a b : String} (hu : g.nameOf u = .ok a)
    (h : g.NameReaches a b) : ∃ v, g.nameOf v = .ok b := by
  rcases h.cases_tail with rfl | ⟨c, -, -, v, -, hv, -⟩
  · exact ⟨u, hu⟩
  · exact ⟨v, hv⟩

/-- Reaching is a matter of names: every stop on the way has one. -/
theorem WellFormed.reaches_iff_nameReaches (hg : g.WellFormed) {u v : DefId} {a b : String}
    (hu : g.nameOf u = .ok a) (hv : g.nameOf v = .ok b) : g.Reaches u v ↔ g.NameReaches a b := by
  constructor
  · intro h
    induction h generalizing b with
    | refl =>
        rw [hu] at hv
        cases hv
        exact .refl
    | tail _ hd ih =>
        obtain ⟨c, hc⟩ := g.exists_nameOf (hg.depends_lt hd).1
        exact (ih hc).tail ⟨_, _, hc, hv, hd⟩
  · intro h
    induction h generalizing v with
    | refl => rw [nameOf_inj hu hv]; exact .refl
    | tail _ hd ih =>
        obtain ⟨w, v', hw, hv', hd⟩ := hd
        rw [nameOf_inj hv hv']
        exact (ih hw).tail hd

theorem WellFormed.onCycle_iff_nameOnCycle (hg : g.WellFormed) {v : DefId} {a : String}
    (hv : g.nameOf v = .ok a) : g.OnCycle v ↔ g.NameOnCycle a := by
  rw [onCycle_iff, NameOnCycle, nameDepends_iff hv hv]
  refine or_congr ⟨?_, ?_⟩ Iff.rfl
  · rintro ⟨u, hne, hvu, huv⟩
    have hu : u ∈ g.ids := hg.reaches_mem_ids (hg.mem_ids.mpr (lt_size_of_nameOf hv)) hvu
    obtain ⟨b, hb⟩ := exists_nameOf (hg.mem_ids.mp hu)
    refine ⟨b, ?_, (hg.reaches_iff_nameReaches hv hb).mp hvu,
      (hg.reaches_iff_nameReaches hb hv).mp huv⟩
    rintro rfl
    exact hne (nameOf_inj hb hv)
  · rintro ⟨b, hne, hab, hba⟩
    obtain ⟨u, hu⟩ := hab.exists_nameOf hv
    refine ⟨u, ?_, (hg.reaches_iff_nameReaches hv hu).mpr hab,
      (hg.reaches_iff_nameReaches hu hv).mpr hba⟩
    rintro rfl
    rw [hu] at hv
    exact hne (Except.ok.inj hv)

theorem NameOnCycle.exists_nameOf {a : String} (h : g.NameOnCycle a) : ∃ v, g.nameOf v = .ok a := by
  rcases h with ⟨b, hne, hab, -⟩ | ⟨-, u, -, hu, -⟩
  · rcases hab.cases_head with rfl | ⟨c, ⟨u, -, hu, -⟩, -⟩
    · exact absurd rfl hne
    · exact ⟨u, hu⟩
  · exact ⟨u, hu⟩

/-! ## What is found through ids -/

def dependencyNames (g : DependencyGraph) (id : DefId) : Except Breach (List String) := do
  (← g.dependencies id).mapM g.nameOf

theorem WellFormed.dependencyNames_spec (hg : g.WellFormed) {u : DefId} {a : String}
    (hu : g.nameOf u = .ok a) :
    ∃ names, g.dependencyNames u = .ok names ∧ ∀ b, b ∈ names ↔ g.NameDepends a b := by
  obtain ⟨deps, hdeps⟩ := hg.dependencies_ok (lt_size_of_nameOf hu)
  obtain ⟨names, hnames, hmem⟩ := exists_mapM_eq_ok (f := g.nameOf) (l := deps)
    fun v hv => exists_nameOf (hg.depends_lt ((depends_iff_mem hdeps).mpr hv)).2
  refine ⟨names, ?_, fun b => ?_⟩
  · simp only [dependencyNames, hdeps, bind, Except.bind, hnames]
  · rw [hmem b]
    constructor
    · rintro ⟨v, hv, hb⟩
      exact ⟨u, v, hu, hb, (depends_iff_mem hdeps).mpr hv⟩
    · rintro ⟨u', v, hu', hb, hd⟩
      rw [nameOf_inj hu' hu] at hd
      exact ⟨v, (depends_iff_mem hdeps).mp hd, hb⟩

def nameSet (g : DependencyGraph) (ids : List DefId) : Except Breach (Finset String) :=
  return (← ids.mapM g.nameOf).toFinset

def cycleNames (g : DependencyGraph) : Except Breach (List (Finset String)) := do
  (← g.cycles).mapM g.nameSet

theorem OnCycle.of_reaches {u v : DefId} (h : g.OnCycle v) (hvu : g.Reaches v u)
    (huv : g.Reaches u v) : g.OnCycle u := by
  by_cases heq : v = u
  · rwa [← heq]
  · exact onCycle_iff.mpr (Or.inl ⟨v, heq, huv, hvu⟩)

/-- The names of a cycle are those that reach a member's name and are reached from it. -/
theorem WellFormed.nameSet_cycle (hg : g.WellFormed) {cycles : List (List DefId)}
    (hcond : g.Condensation cycles) (hmem : ∀ v, v ∈ cycles.flatten ↔ g.OnCycle v)
    {c : List DefId} (hc : c ∈ cycles) {v : DefId} (hv : v ∈ c) {a : String}
    (ha : g.nameOf v = .ok a) :
    ∃ names, g.nameSet c = .ok names ∧ ∀ b, b ∈ names ↔ g.NameReaches a b ∧ g.NameReaches b a := by
  have hcycle : ∀ u ∈ c, g.OnCycle u := fun u hu => (hmem u).mp (List.mem_flatten.mpr ⟨c, hc, hu⟩)
  obtain ⟨names, hnames, hof⟩ := exists_mapM_eq_ok (f := g.nameOf) (l := c)
    fun u hu => exists_nameOf (hg.mem_ids.mp ((hcycle u hu).mem_ids hg))
  refine ⟨names.toFinset, ?_, fun b => ?_⟩
  · simp only [nameSet, hnames, bind, Except.bind, pure, Except.pure]
  · rw [List.mem_toFinset, hof b]
    constructor
    · rintro ⟨u, hu, hb⟩
      exact ⟨(hg.reaches_iff_nameReaches ha hb).mp (hcond.connected c hc v hv u hu),
        (hg.reaches_iff_nameReaches hb ha).mp (hcond.connected c hc u hu v hv)⟩
    · rintro ⟨hab, hba⟩
      obtain ⟨u, hb⟩ := hab.exists_nameOf ha
      have hvu := (hg.reaches_iff_nameReaches ha hb).mpr hab
      have huv := (hg.reaches_iff_nameReaches hb ha).mpr hba
      -- what reaches a cycle both ways lies on a cycle, too, and so it is listed
      have hu : g.OnCycle u := (hcycle v hv).of_reaches hvu huv
      exact ⟨u, hcond.mem_of_reaches hc hv ((hmem u).mpr hu) hvu huv, hb⟩

theorem WellFormed.cycleNames_spec (hg : g.WellFormed) :
    ∃ sets, g.cycleNames = .ok sets ∧ ∀ s, s ∈ sets ↔
      ∃ a, g.NameOnCycle a ∧ ∀ b, b ∈ s ↔ g.NameReaches a b ∧ g.NameReaches b a := by
  obtain ⟨cycles, hcycles, hcond, hmem⟩ := cycles_condensation hg
  have hmember : ∀ c ∈ cycles, ∃ v ∈ c, g.OnCycle v ∧ ∃ a, g.nameOf v = .ok a := by
    intro c hc
    obtain ⟨v, hv⟩ := List.exists_mem_of_ne_nil c (hcond.nonempty c hc)
    have hcycle := (hmem v).mp (List.mem_flatten.mpr ⟨c, hc, hv⟩)
    exact ⟨v, hv, hcycle, exists_nameOf (hg.mem_ids.mp (hcycle.mem_ids hg))⟩
  obtain ⟨sets, hsets, hof⟩ := exists_mapM_eq_ok (f := g.nameSet) (l := cycles) fun c hc => by
    obtain ⟨v, hv, -, a, ha⟩ := hmember c hc
    obtain ⟨names, hnames, -⟩ := hg.nameSet_cycle hcond hmem hc hv ha
    exact ⟨names, hnames⟩
  refine ⟨sets, ?_, fun s => ?_⟩
  · simp only [cycleNames, hcycles, bind, Except.bind, hsets]
  · rw [hof s]
    constructor
    · rintro ⟨c, hc, hs⟩
      obtain ⟨v, hv, hcycle, a, ha⟩ := hmember c hc
      obtain ⟨names, hnames, hspec⟩ := hg.nameSet_cycle hcond hmem hc hv ha
      rw [hs] at hnames
      cases hnames
      exact ⟨a, (hg.onCycle_iff_nameOnCycle ha).mp hcycle, hspec⟩
    · rintro ⟨a, hcycle, hs⟩
      obtain ⟨v, ha⟩ := hcycle.exists_nameOf
      obtain ⟨c, hc, hv⟩ := List.mem_flatten.mp
        ((hmem v).mpr ((hg.onCycle_iff_nameOnCycle ha).mpr hcycle))
      obtain ⟨names, hnames, hspec⟩ := hg.nameSet_cycle hcond hmem hc hv ha
      have heq : names = s := Finset.ext fun b => (hspec b).trans (hs b).symm
      exact ⟨c, hc, heq ▸ hnames⟩

theorem WellFormed.evaluationOrder_spec (hg : g.WellFormed) :
    ∃ r, g.evaluationOrder = .ok r ∧ ((∃ order, r = .ok order) ↔ ∀ a, ¬ g.NameOnCycle a) := by
  obtain ⟨r, hr, hiff, -⟩ := evaluationOrder_eq_ok hg
  refine ⟨r, hr, hiff.trans ⟨?_, ?_⟩⟩
  · intro hacyclic a ha
    obtain ⟨v, hv⟩ := ha.exists_nameOf
    exact hacyclic v ((hg.onCycle_iff_nameOnCycle hv).mpr ha)
  · intro hacyclic v hv
    obtain ⟨a, ha⟩ := exists_nameOf (hg.mem_ids.mp (hv.mem_ids hg))
    exact hacyclic a ((hg.onCycle_iff_nameOnCycle ha).mp hv)

/-! ## The graph of definitions -/

section Build

variable {options : GraphOptions} {definitions : List Definition}

theorem nameDepends_build (hg : (build options definitions).WellFormed) {a b : String} :
    (build options definitions).NameDepends a b ↔
      b ∈ Definition.referencesUnder options.functionBodies definitions a ∧
        b ∈ definitions.map Definition.name := by
  constructor
  · rintro ⟨u, v, ha, hb, hd⟩
    exact ⟨(depends_build hg ha hb).mp hd, mem_names_build.mp (hg.exists_nameOf_iff.mp ⟨v, hb⟩)⟩
  · rintro ⟨hmentioned, hdefined⟩
    obtain ⟨d, hd, -⟩ := List.mem_flatMap.mp hmentioned
    obtain ⟨hd, hname⟩ := List.mem_filter.mp hd
    have hdefines : a ∈ definitions.map Definition.name :=
      List.mem_map.mpr ⟨d, hd, of_decide_eq_true hname⟩
    obtain ⟨u, hu⟩ := hg.exists_nameOf_iff.mpr (mem_names_build.mpr hdefines)
    obtain ⟨v, hv⟩ := hg.exists_nameOf_iff.mpr (mem_names_build.mpr hdefined)
    exact ⟨u, v, hu, hv, (depends_build hg hu hv).mpr hmentioned⟩

end Build

end DependencyGraph
end TypeGraph
