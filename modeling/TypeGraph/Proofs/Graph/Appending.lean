/-
# Appending a definition

A definition of a new name goes to the end of a list of definitions.  Then a mention of that name is
a dependency where it was unknown, everywhere in the graph, and the search for components starts
afresh.  Still the change is local.  Ids follow first appearances, so all ids stay; and one name
moves from the unknown ones to the dependencies, so all others stay and keep their order
(`Appends`).

If nothing mentions the new name, the new definition lies on top of the graph: it may depend on the
others, and none depends on it (`OnTop`).  Depth-first search from the others then never meets it
(`OnTop.explore_eq`), and it comes last in the postorder (`OnTop.postorder_eq`).  An evaluation order
is the postorder, so the order goes on with the new definition, unless that is a cycle by itself.
-/
import TypeGraph.Proofs.Graph.Names
import TypeGraph.Proofs.Graph.Postorder

namespace TypeGraph

/-! ## One more name -/

namespace Mentions

/-- `more` has one more name, `name`, and it fits into the ids. -/
structure OneMoreName (names more : OrderedSet String) (name : String) : Prop where
  toList_eq : more.toList = names.toList ++ [name]
  size_lt : names.size < UInt32.size

namespace OneMoreName

variable {names more : OrderedSet String} {name : String} (h : OneMoreName names more name)

include h

theorem ofName?_eq (a : String) :
    DefId.ofName? more a
      = if a = name then some (.ofIndex names.size) else DefId.ofName? names a := by
  rw [DefId.ofName?, OrderedSet.indexOf?_concat h.toList_eq]
  split
  · rfl
  · rfl

theorem ofName?_name : DefId.ofName? names name = none := by
  rw [DefId.ofName?, Option.map_eq_none_iff, Option.eq_none_iff_forall_ne_some]
  intro i hi
  exact OrderedSet.notMem_of_concat h.toList_eq
    (List.mem_of_getElem? ((names.indexOf?_eq_some_iff _ _).mp hi))

theorem ofName?_ne (a : String) : DefId.ofName? names a ≠ some (.ofIndex names.size) := by
  intro hid
  obtain ⟨i, hi, hof⟩ := Option.map_eq_some_iff.mp hid
  have hlt : i < names.size := by
    obtain ⟨hlt, -⟩ := List.getElem?_eq_some_iff.mp ((names.indexOf?_eq_some_iff _ _).mp hi)
    rwa [OrderedSet.size_eq]
  have hindex := congrArg DefId.index hof
  rw [DefId.index_ofIndex (Nat.lt_trans hlt h.size_lt), DefId.index_ofIndex h.size_lt] at hindex
  exact Nat.ne_of_lt hlt hindex

theorem unknown_eq (mentioned : List String) :
    (ofNames more mentioned).unknown.toList
      = (ofNames names mentioned).unknown.toList.filter fun a => a ≠ name := by
  rw [ofNames, ofNames, OrderedSet.filter_toList_ofList, List.filter_filter]
  refine congrArg (fun l => (OrderedSet.ofList l).toList) (List.filter_congr fun a _ => ?_)
  rw [h.ofName?_eq]
  by_cases ha : a = name
  · simp [ha]
  · simp [ha]

theorem dependencies_eq (mentioned : List String) :
    ((ofNames more mentioned).dependencies.toList.filter fun v => v ≠ .ofIndex names.size)
      = (ofNames names mentioned).dependencies.toList := by
  rw [ofNames, ofNames, OrderedSet.filter_toList_ofList, List.filter_filterMap]
  refine congrArg (fun l => (OrderedSet.ofList l).toList) (List.filterMap_congr fun a _ => ?_)
  rw [h.ofName?_eq]
  split
  · next ha => rw [ha, h.ofName?_name]; simp
  · cases hid : DefId.ofName? names a with
    | none => rfl
    | some v =>
        have hne : v ≠ .ofIndex names.size := fun he => h.ofName?_ne a (he ▸ hid)
        simp [hne]

theorem mem_dependencies_iff (mentioned : List String) :
    .ofIndex names.size ∈ (ofNames more mentioned).dependencies.toList ↔
      name ∈ (ofNames names mentioned).unknown.toList := by
  rw [ofNames, ofNames, OrderedSet.mem_toList_ofList, OrderedSet.mem_toList_ofList,
    List.mem_filterMap, List.mem_filter]
  constructor
  · rintro ⟨a, ha, hid⟩
    rw [h.ofName?_eq] at hid
    split at hid
    · next heq => exact ⟨heq ▸ ha, by rw [h.ofName?_name]; rfl⟩
    · exact absurd hid (h.ofName?_ne a)
  · rintro ⟨hname, -⟩
    exact ⟨name, hname, by rw [h.ofName?_eq, if_pos rfl]⟩

end OneMoreName
end Mentions

namespace DependencyGraph

/-! ## Exploring -/

section Explore

variable {g : DependencyGraph}

theorem exists_of_explore {visited rest out : List DefId} {v : DefId} (h : v ∉ visited)
    (hout : g.explore visited (v :: rest) = .ok out) :
    ∃ deps inner after, g.dependencies v = .ok deps ∧ g.explore (v :: visited) deps = .ok inner ∧
      g.explore (inner ++ v :: visited) rest = .ok after ∧ out = inner ++ v :: after := by
  rw [explore, if_neg h] at hout
  obtain ⟨deps, hdeps, hout⟩ := bind_eq_ok_iff.mp hout
  obtain ⟨inner, hinner, hout⟩ := bind_eq_ok_iff.mp hout
  obtain ⟨after, hafter, hout⟩ := bind_eq_ok_iff.mp hout
  cases hout
  exact ⟨deps, inner, after, hdeps, hinner, hafter, rfl⟩

theorem explore_of_visited {visited : List DefId} : ∀ {todo : List DefId},
    (∀ v ∈ todo, v ∈ visited) → g.explore visited todo = .ok []
  | [], _ => explore_nil visited
  | v :: rest, h => by
      rw [explore_of_mem (h v List.mem_cons_self)]
      exact explore_of_visited fun u hu => h u (List.mem_cons_of_mem _ hu)

/-- A definition that comes last, after everything that it depends on, is listed last: by induction
along the definitions before it. -/
theorem explore_concat {v : DefId} {deps : List DefId} (hdeps : g.dependencies v = .ok deps)
    (visited todo : List DefId) : ∀ {out : List DefId}, g.explore visited todo = .ok out →
      v ∉ visited ++ out → (∀ u ∈ deps, u = v ∨ u ∈ visited ++ out) →
      g.explore visited (todo ++ [v]) = .ok (out ++ [v]) := by
  induction visited, todo using DependencyGraph.explore.induct with
  | case1 visited =>
      intro out hout hnew hbefore
      rw [explore_nil] at hout
      cases hout
      rw [List.append_nil] at hnew
      simp only [List.append_nil] at hbefore
      have hinner : g.explore (v :: visited) deps = .ok [] :=
        explore_of_visited fun u hu => List.mem_cons.mpr (hbefore u hu)
      exact explore_of_notMem hnew hdeps hinner (explore_nil _)
  | case2 visited w rest hw ih =>
      intro out hout hnew hbefore
      rw [explore_of_mem hw] at hout
      rw [List.cons_append, explore_of_mem hw]
      exact ih hout hnew hbefore
  | case3 visited w rest hw _ ih =>
      intro out hout hnew hbefore
      obtain ⟨wdeps, inner, after, hwdeps, hinner, hafter, rfl⟩ := exists_of_explore hw hout
      -- the two lists differ in order only
      have hvisited : ∀ u, u ∈ visited ++ (inner ++ w :: after) ↔
          u ∈ inner ++ w :: visited ++ after := by
        intro u
        simp only [List.mem_append, List.mem_cons]
        grind
      have hrest := ih inner hafter (mt (hvisited v).mpr hnew) fun u hu =>
        (hbefore u hu).imp_right (hvisited u).mp
      rw [List.cons_append, explore_of_notMem hw hwdeps hinner hrest, List.append_assoc]
      rfl

end Explore

/-! ## A definition on top -/

/-- `g'` is `g` with one more definition, on which none of `g` depends. -/
structure OnTop (g g' : DependencyGraph) (new : DefId) : Prop where
  ids_eq : g'.ids = g.ids ++ [new]
  dependencies_eq : ∀ v ∈ g.ids, g'.dependencies v = g.dependencies v
  allow_eq : g'.options.allowSelfReferences = g.options.allowSelfReferences

namespace OnTop

variable {g g' : DependencyGraph} {new : DefId} (h : OnTop g g' new) (hg : g.WellFormed)
  (hg' : g'.WellFormed)

include h

theorem new_notMem (hg' : g'.WellFormed) : new ∉ g.ids := by
  have hnodup := hg'.nodup_ids
  rw [h.ids_eq] at hnodup
  exact fun hmem => (List.nodup_append.mp hnodup).2.2 new hmem new List.mem_cons_self rfl

theorem mem_ids_iff {v : DefId} : v ∈ g'.ids ↔ v ∈ g.ids ∨ v = new := by
  rw [h.ids_eq, List.mem_append, List.mem_singleton]

theorem depends_iff {u v : DefId} (hu : u ∈ g.ids) : g'.Depends u v ↔ g.Depends u v := by
  rw [Depends, Depends, h.dependencies_eq u hu]

include hg

theorem reaches_iff {u v : DefId} (hu : u ∈ g.ids) : g'.Reaches u v ↔ g.Reaches u v := by
  constructor
  · intro hr
    induction hr with
    | refl => exact .refl
    | tail _ hd ih => exact ih.tail ((h.depends_iff (hg.reaches_mem_ids hu ih)).mp hd)
  · intro hr
    induction hr with
    | refl => exact .refl
    | tail hr hd ih => exact ih.tail ((h.depends_iff (hg.reaches_mem_ids hu hr)).mpr hd)

/-- Exploring from definitions of `g` is the same in both graphs: by induction along the recursion
of `explore`. -/
theorem explore_eq (visited todo : List DefId) :
    (∀ v ∈ todo, v ∈ g.ids) → g'.explore visited todo = g.explore visited todo := by
  induction visited, todo using DependencyGraph.explore.induct with
  | case1 visited => intro _; rw [explore_nil, explore_nil]
  | case2 visited w rest hw ih =>
      intro hmem
      rw [explore_of_mem hw, explore_of_mem hw]
      exact ih fun u hu => hmem u (List.mem_cons_of_mem _ hu)
  | case3 visited w rest hw ihInner ihRest =>
      intro hmem
      obtain ⟨hwmem, hrest⟩ := List.forall_mem_cons.mp hmem
      obtain ⟨deps, hdeps⟩ := hg.dependencies_ok (hg.mem_ids.mp hwmem)
      have hinner := ihInner deps fun u hu =>
        hg.mem_ids.mpr (hg.depends_lt ((depends_iff_mem hdeps).mpr hu)).2
      rw [explore, explore, if_neg hw, if_neg hw, h.dependencies_eq w hwmem, hdeps]
      simp only [bind, Except.bind, hinner]
      cases g.explore (w :: visited) deps with
      | error b => rfl
      | ok inner => simp only [ihRest inner hrest]

theorem onCycle_iff_of_mem {v : DefId} (hv : v ∈ g.ids) : g'.OnCycle v ↔ g.OnCycle v := by
  rw [onCycle_iff, onCycle_iff, h.depends_iff hv, h.allow_eq]
  refine or_congr (exists_congr fun u => and_congr_right fun _ => ?_) Iff.rfl
  rw [h.reaches_iff hg hv]
  exact and_congr_right fun hvu => h.reaches_iff hg (hg.reaches_mem_ids hv hvu)

include hg'

theorem onCycle_new_iff : g'.OnCycle new ↔
    g'.options.allowSelfReferences = false ∧ g'.Depends new new := by
  rw [onCycle_iff]
  refine ⟨fun hcycle => hcycle.resolve_left ?_, Or.inr⟩
  rintro ⟨u, hne, hnu, hun⟩
  -- another definition on the cycle would be one of `g`, which does not lead out of `g`
  have hu : u ∈ g.ids :=
    (h.mem_ids_iff.mp (hg'.reaches_mem_ids (h.mem_ids_iff.mpr (Or.inr rfl)) hnu)).resolve_right hne
  exact h.new_notMem hg' (hg.reaches_mem_ids hu ((h.reaches_iff hg hu).mp hun))

theorem postorder_eq {post : List DefId} (hpost : g.postorder = .ok post) (hperm : post.Perm g.ids) :
    g'.postorder = .ok (post ++ [new]) := by
  have hnew : new ∈ g'.ids := h.mem_ids_iff.mpr (Or.inr rfl)
  obtain ⟨deps, hdeps⟩ := hg'.dependencies_ok (hg'.mem_ids.mp hnew)
  rw [postorder, h.ids_eq]
  refine explore_concat hdeps [] g.ids ?_ ?_ ?_
  · rw [h.explore_eq hg [] g.ids fun _ hv => hv]
    exact hpost
  · rw [List.nil_append, hperm.mem_iff]
    exact h.new_notMem hg'
  · intro u hu
    have hmem := hg'.mem_ids.mpr (hg'.depends_lt ((depends_iff_mem hdeps).mpr hu)).2
    rw [List.nil_append, hperm.mem_iff]
    exact (h.mem_ids_iff.mp hmem).symm

end OnTop

namespace OnTop

variable {g g' : DependencyGraph} {new : DefId} (h : OnTop g g' new) (hg : g.WellFormed)
  (hg' : g'.WellFormed) {order : List DefId} (horder : g.evaluationOrder = .ok (.ok order))

include h hg hg' horder

theorem onCycle_iff_eq_new (v : DefId) : g'.OnCycle v ↔
    v = new ∧ g'.options.allowSelfReferences = false ∧ g'.Depends new new := by
  obtain ⟨r, hr, hiff, -⟩ := evaluationOrder_eq_ok hg
  rw [horder] at hr
  cases hr
  have hacyclic := hiff.mp ⟨order, rfl⟩
  constructor
  · intro hv
    rcases h.mem_ids_iff.mp (hv.mem_ids hg') with hmem | rfl
    · exact absurd ((h.onCycle_iff_of_mem hg hmem).mp hv) (hacyclic v)
    · exact ⟨rfl, (h.onCycle_new_iff hg hg').mp hv⟩
  · rintro ⟨rfl, hself⟩
    exact (h.onCycle_new_iff hg hg').mpr hself

/-- An order goes on with the definition on top, unless that is a cycle by itself. -/
theorem evaluationOrder_eq
    (hfree : ¬ (g'.options.allowSelfReferences = false ∧ g'.Depends new new)) :
    g'.evaluationOrder = .ok (.ok (order ++ [new])) := by
  obtain ⟨r, hr, hiff, -⟩ := evaluationOrder_eq_ok hg'
  obtain ⟨order', rfl⟩ := hiff.mpr fun v hv =>
    hfree ((h.onCycle_iff_eq_new hg hg' horder v).mp hv).2
  obtain ⟨hpost, hperm⟩ := hg.postorder_of_evaluationOrder horder
  have hpost' := (hg'.postorder_of_evaluationOrder hr).1
  rw [h.postorder_eq hg hg' hpost hperm] at hpost'
  cases hpost'
  exact hr

theorem evaluationOrder_eq_error {name : String} (hname : g'.nameOf new = .ok name)
    (hself : g'.options.allowSelfReferences = false ∧ g'.Depends new new) :
    g'.evaluationOrder = .ok (.error ⟨[name]⟩) := by
  obtain ⟨cs, hcs, -, -⟩ := components_condensation hg'
  obtain ⟨cycles, hcycles, hcond, hmem⟩ := cycles_condensation hg'
  have hlisted : ∀ v, v ∈ cycles.flatten ↔ v = new := by
    intro v
    rw [hmem v, h.onCycle_iff_eq_new hg hg' horder v]
    exact and_iff_left hself
  rcases evaluationOrder_cases hg' hcs hcycles with
    ⟨rfl, -, -⟩ | ⟨first, rest, names, rfl, hnames, hr⟩
  · exact absurd ((hlisted new).mpr rfl) List.not_mem_nil
  · have hfirst : first = [new] := by
      have hall : ∀ v ∈ first, v = new := fun v hv =>
        (hlisted v).mp (List.mem_flatten.mpr ⟨first, List.mem_cons_self, hv⟩)
      obtain ⟨w, hw⟩ := List.exists_mem_of_ne_nil _ (hcond.nonempty first List.mem_cons_self)
      have hnodup := nodup_of_ascending (hcond.ascending first List.mem_cons_self)
      refine List.perm_singleton.mp
        ((List.perm_ext_iff_of_nodup hnodup (List.nodup_singleton new)).mpr fun v => ?_)
      rw [List.mem_singleton]
      exact ⟨hall v, fun hv => hv.trans (hall w hw).symm ▸ hw⟩
    rw [hfirst] at hnames
    simp only [List.mapM_cons, List.mapM_nil, hname, bind, Except.bind, pure, Except.pure] at hnames
    cases hnames
    exact hr

end OnTop
end DependencyGraph

/-! ## The graph with one more definition -/

theorem Definition.referencesUnder_concat (bodies : Bool) (definitions : List Definition)
    (d : Definition) (name : String) : referencesUnder bodies (definitions ++ [d]) name
      = referencesUnder bodies definitions name ++
        if d.name = name then d.references bodies else [] := by
  by_cases hd : d.name = name
  · simp [referencesUnder, hd]
  · simp [referencesUnder, hd]

namespace DependencyGraph

variable {options : GraphOptions} {definitions : List Definition} {d : Definition}

theorem unknownNames_of_mentions {g : DependencyGraph} {v : DefId} {m : Mentions}
    (h : g.mentions[v.index]? = some m) : g.unknownNames v = .ok m.unknown.toList := by
  simp only [unknownNames, mentionsOf, h, bind, Except.bind, pure, Except.pure]

theorem names_concat (options : GraphOptions) (hnew : d.name ∉ definitions.map Definition.name) :
    (build options (definitions ++ [d])).names.toList
      = (build options definitions).names.toList ++ [d.name] := by
  have hnames : (build options (definitions ++ [d])).names
      = (build options definitions).names.insert d.name := by
    show OrderedSet.ofList ((definitions ++ [d]).map Definition.name) = _
    rw [List.map_append]
    exact OrderedSet.ofList_concat _ _
  rw [hnames, OrderedSet.toList_insert, if_neg (mt mem_names_build.mp hnew)]

theorem size_concat (options : GraphOptions) (hnew : d.name ∉ definitions.map Definition.name) :
    (build options (definitions ++ [d])).size = (build options definitions).size + 1 := by
  rw [size, size, OrderedSet.size_eq, OrderedSet.size_eq, names_concat options hnew,
    List.length_append]
  rfl

/-- `g'` is `g` with one more definition, whose id is `new` and whose name is `name`. -/
structure Appends (g g' : DependencyGraph) (name : String) (new : DefId) : Prop where
  ids_eq : g'.ids = g.ids ++ [new]
  nameOf_new : g'.nameOf new = .ok name
  /-- Every id keeps its name. -/
  nameOf_eq : ∀ id ∈ g.ids, g'.nameOf id = g.nameOf id
  /-- Every name keeps its id. -/
  find?_eq : ∀ a id, g.find? a = some id → g'.find? a = some id
  /-- The new name is unknown no more, and other unknown names stay in order. -/
  unknown : ∀ id ∈ g.ids, ∃ names, g.unknownNames id = .ok names ∧
    g'.unknownNames id = .ok (names.filter fun a => a ≠ name)
  /-- Dependencies stay in order, and the new definition is one of them where its name was unknown. -/
  dependencies : ∀ id ∈ g.ids, ∃ deps more names, g.dependencies id = .ok deps ∧
    g'.dependencies id = .ok more ∧ g.unknownNames id = .ok names ∧
    (more.filter fun v => v ≠ new) = deps ∧ (new ∈ more ↔ name ∈ names)

section Concat

variable (hnew : d.name ∉ definitions.map Definition.name)
  (hg : (build options definitions).WellFormed)
  (hg' : (build options (definitions ++ [d])).WellFormed)

include hnew

theorem ids_concat : (build options (definitions ++ [d])).ids
    = (build options definitions).ids ++ [.ofIndex (build options definitions).size] := by
  rw [ids, ids, size_concat options hnew, List.range_succ, List.map_append]
  rfl

theorem nameOf_concat {id : DefId} (hid : id.index < (build options definitions).size) :
    (build options (definitions ++ [d])).nameOf id = (build options definitions).nameOf id := by
  rw [size, OrderedSet.size_eq] at hid
  rw [nameOf, nameOf, OrderedSet.get?_eq, OrderedSet.get?_eq, names_concat options hnew,
    List.getElem?_append_left hid]

/-- The nodes of a definition in both graphs are collected from the same mentions. -/
theorem mentions_concat (hg : (build options definitions).WellFormed) {id : DefId}
    (hid : id ∈ (build options definitions).ids) :
    ∃ mentioned, (build options definitions).mentions[id.index]?
        = some (.ofNames (build options definitions).names mentioned) ∧
      (build options (definitions ++ [d])).mentions[id.index]?
        = some (.ofNames (build options (definitions ++ [d])).names mentioned) := by
  have hlt := hg.mem_ids.mp hid
  obtain ⟨a, ha⟩ := exists_nameOf hlt
  have ha' : (build options (definitions ++ [d])).nameOf id = .ok a := by
    rw [nameOf_concat hnew hlt, ha]
  have hne : d.name ≠ a := by
    rintro rfl
    exact hnew (mem_names_build.mp (hg.exists_nameOf_iff.mp ⟨id, ha⟩))
  have hunder : Definition.referencesUnder options.functionBodies (definitions ++ [d]) a
      = Definition.referencesUnder options.functionBodies definitions a := by
    rw [Definition.referencesUnder_concat, if_neg hne, List.append_nil]
  have hnode := mentions_build (nameOf_eq_ok_iff.mp ha')
  rw [hunder] at hnode
  exact ⟨_, mentions_build (nameOf_eq_ok_iff.mp ha), hnode⟩

include hg'

theorem size_lt_of_concat : (build options definitions).size < UInt32.size := by
  have hsize := hg'.size_le
  rw [size_concat options hnew] at hsize
  exact hsize

theorem nameOf_new : (build options (definitions ++ [d])).nameOf
    (.ofIndex (build options definitions).size) = .ok d.name := by
  rw [nameOf_eq_ok_iff, DefId.index_ofIndex (size_lt_of_concat hnew hg'),
    names_concat options hnew, size, OrderedSet.size_eq, List.getElem?_concat_length]

theorem oneMoreName_concat : Mentions.OneMoreName (build options definitions).names
    (build options (definitions ++ [d])).names d.name :=
  ⟨names_concat options hnew, size_lt_of_concat hnew hg'⟩

include hg

theorem appends_concat : (build options definitions).Appends (build options (definitions ++ [d]))
    d.name (.ofIndex (build options definitions).size) := by
  have hmore := oneMoreName_concat hnew hg'
  refine ⟨ids_concat hnew, nameOf_new hnew hg', ?_, ?_, ?_, ?_⟩
  · intro id hid
    exact nameOf_concat hnew (hg.mem_ids.mp hid)
  · intro a id hfind
    have hname := hg.find?_eq_some_iff.mp hfind
    rw [hg'.find?_eq_some_iff, nameOf_concat hnew (lt_size_of_nameOf hname), hname]
  · intro id hid
    obtain ⟨mentioned, hnode, hnode'⟩ := mentions_concat hnew hg hid
    refine ⟨_, unknownNames_of_mentions hnode, ?_⟩
    rw [unknownNames_of_mentions hnode', hmore.unknown_eq]
  · intro id hid
    obtain ⟨mentioned, hnode, hnode'⟩ := mentions_concat hnew hg hid
    exact ⟨_, _, _, dependencies_eq_ok_iff.mpr ⟨_, hnode, rfl⟩,
      dependencies_eq_ok_iff.mpr ⟨_, hnode', rfl⟩, unknownNames_of_mentions hnode,
      hmore.dependencies_eq mentioned, hmore.mem_dependencies_iff mentioned⟩

/-- If nothing mentions its name, the new definition lies on top. -/
theorem onTop_concat
    (hfree : ∀ e ∈ definitions, d.name ∉ e.references options.functionBodies) :
    OnTop (build options definitions) (build options (definitions ++ [d]))
      (.ofIndex (build options definitions).size) := by
  have happends := appends_concat hnew hg hg'
  refine ⟨happends.ids_eq, fun v hv => ?_, rfl⟩
  obtain ⟨deps, more, names, hdeps, hdeps', hnames, hfilter, hiff⟩ := happends.dependencies v hv
  have hunknown : d.name ∉ names := by
    obtain ⟨a, ha⟩ := exists_nameOf (hg.mem_ids.mp hv)
    obtain ⟨names', hnames', hmem⟩ := unknownNames_build ha
    rw [hnames] at hnames'
    cases hnames'
    intro hd
    obtain ⟨e, he, hmentions⟩ := List.mem_flatMap.mp ((hmem d.name).mp hd).1
    exact hfree e (List.mem_filter.mp he).1 hmentions
  have hall : (more.filter fun v => v ≠ .ofIndex (build options definitions).size) = more := by
    refine List.filter_eq_self.mpr fun u hu => decide_eq_true ?_
    rintro rfl
    exact hunknown (hiff.mp hu)
  rw [hdeps, hdeps', ← hfilter, hall]

end Concat

/-- Appending a definition of a new name, fewer than 2^32 distinct names in all, changes nothing but
what the name stands for.  If nothing mentions it, an evaluation order goes on with the new
definition; only if that depends on itself and may not is it reported as a cycle. -/
theorem build_appends (options : GraphOptions) (definitions : List Definition) (d : Definition)
    (hnew : d.name ∉ definitions.map Definition.name)
    (h : ((definitions ++ [d]).map Definition.name).toFinset.card < UInt32.size) :
    ∃ new, (build options (definitions ++ [d])).find? d.name = some new ∧
      (build options definitions).Appends (build options (definitions ++ [d])) d.name new ∧
      ((∀ e ∈ definitions, d.name ∉ e.references options.functionBodies) →
        ∀ order, (build options definitions).evaluationOrder = .ok (.ok order) →
          (¬ (options.allowSelfReferences = false ∧
              (build options (definitions ++ [d])).Depends new new) →
            (build options (definitions ++ [d])).evaluationOrder = .ok (.ok (order ++ [new]))) ∧
          (options.allowSelfReferences = false ∧
              (build options (definitions ++ [d])).Depends new new →
            (build options (definitions ++ [d])).evaluationOrder = .ok (.error ⟨[d.name]⟩))) := by
  have hg' : (build options (definitions ++ [d])).WellFormed := build_wellFormed h
  have hg : (build options definitions).WellFormed := by
    refine build_wellFormed (Nat.lt_of_le_of_lt (Finset.card_le_card ?_) h)
    rw [List.map_append, List.toFinset_append]
    exact Finset.subset_union_left
  have hname := nameOf_new hnew hg'
  refine ⟨_, hg'.find?_eq_some_iff.mpr hname, appends_concat hnew hg hg', ?_⟩
  intro hfree order horder
  have htop := onTop_concat hnew hg hg' hfree
  exact ⟨htop.evaluationOrder_eq hg hg' horder, htop.evaluationOrder_eq_error hg hg' horder hname⟩

/-- A definition that mentions two names, one of them twice. -/
def pairDefinition : Definition := .var "A" (.union [.bare "X", .bare "Y", .bare "X"])

def listDefinition : Definition := .struct "L" [⟨"item", .bare "A"⟩, ⟨"rest", .bare "L"⟩]

/-- Two definitions appended to none, one after the other, and then one that the first mentions. -/
theorem build_appends_inTurn :
    (listDefinition.name ∉ [pairDefinition].map Definition.name ∧
      ([pairDefinition, listDefinition].map Definition.name).toFinset.card < UInt32.size ∧
      ∀ e ∈ [pairDefinition], listDefinition.name ∉ e.references false) ∧
    (∃ a l, (build { allowSelfReferences := true } [pairDefinition]).evaluationOrder = .ok (.ok [a]) ∧
      (build { allowSelfReferences := true } [pairDefinition, listDefinition]).evaluationOrder
        = .ok (.ok [a, l])) ∧
    ∃ x, (build {} [pairDefinition, listDefinition]).Appends
      (build {} [pairDefinition, listDefinition, .var "X" (.bare "A")]) "X" x := by
  have hfree : ∀ e ∈ [pairDefinition], listDefinition.name ∉ e.references false := by
    intro e he
    cases List.mem_singleton.mp he
    decide
  refine ⟨⟨by decide, by decide, hfree⟩, ?_, ?_⟩
  · obtain ⟨a, -, -, hfirst⟩ :=
      build_appends { allowSelfReferences := true } [] pairDefinition (by decide) (by decide)
    have ha := (hfirst (fun _ h => nomatch h) [] rfl).1 fun hself => nomatch hself.1
    obtain ⟨l, -, -, hsecond⟩ := build_appends { allowSelfReferences := true } [pairDefinition]
      listDefinition (by decide) (by decide)
    exact ⟨a, l, ha, (hsecond hfree [a] ha).1 fun hself => nomatch hself.1⟩
  · obtain ⟨x, -, happends, -⟩ := build_appends {} [pairDefinition, listDefinition]
      (.var "X" (.bare "A")) (by decide) (by decide)
    exact ⟨x, happends⟩

end DependencyGraph
end TypeGraph
