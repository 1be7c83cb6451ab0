/-
# What the graph of definitions holds

Definitions of one name share a node, and what each of them mentions is first collected on its own
and then merged.  The order of first mention survives both steps, because adding elements that a
set has already changes nothing: collecting a list and then merging what was collected is merging
the list (`insertAll_ofList`).  So a node holds what one collection over all references of its name
would hold (`mentions_build`), in whatever order the definitions stand.

`IsGraphOf` says in terms of lists alone what the graph of definitions has to be, and
`build_isGraphOf` that construction delivers it.
-/
import TypeGraph.Proofs.Expr.Walk
import TypeGraph.Proofs.Graph.Dependence

namespace TypeGraph

/-! ## Collecting and merging mentions -/

namespace Mentions

/-- A list of mentioned names, sorted into ids of `names` and unknown names. -/
def ofNames (names : OrderedSet String) (mentioned : List String) : Mentions :=
  ⟨.ofList (mentioned.filterMap (DefId.ofName? names)),
    .ofList (mentioned.filter fun name => (DefId.ofName? names name).isNone)⟩

theorem add_ofNames (names : OrderedSet String) (mentioned : List String) (name : String) :
    (ofNames names mentioned).add names name = ofNames names (mentioned ++ [name]) := by
  simp only [add, ofNames, List.filterMap_append, List.filter_append]
  cases h : DefId.ofName? names name with
  | some id => simp [h, OrderedSet.ofList_concat]
  | none => simp [h, OrderedSet.ofList_concat]

theorem foldl_add (names : OrderedSet String) (mentioned more : List String) :
    more.foldl (add names) (ofNames names mentioned) = ofNames names (mentioned ++ more) := by
  induction more generalizing mentioned with
  | nil => rw [List.append_nil]; rfl
  | cons name rest ih =>
      rw [List.foldl_cons, add_ofNames, ih, List.append_assoc]
      rfl

theorem ofDefinition_eq (names : OrderedSet String) (bodies : Bool) (d : Definition) :
    ofDefinition names bodies d = ofNames names (d.references bodies) := by
  have hwalk : (if bodies then (RefCursor.ofNode (.definition d)).withBodies
      else RefCursor.ofNode (.definition d)).toList = d.references bodies := by
    cases bodies with
    | false => exact RefCursor.toList_ofNode _
    | true => exact RefCursor.toList_withBodies_ofNode _
  rw [ofDefinition, hwalk]
  exact foldl_add names [] _

theorem merge_ofNames (names : OrderedSet String) (mentioned more : List String) :
    (ofNames names mentioned).merge (ofNames names more) = ofNames names (mentioned ++ more) := by
  simp only [merge, ofNames, OrderedSet.merge_ofList, List.filterMap_append, List.filter_append]

end Mentions

/-- The references of all definitions of a name, in the order of the definitions. -/
def Definition.referencesUnder (bodies : Bool) (definitions : List Definition) (name : String) :
    List String :=
  (definitions.filter fun d => d.name = name).flatMap (Definition.references bodies)

theorem Definition.referencesUnder_cons (bodies : Bool) (d : Definition) (rest : List Definition)
    (name : String) : referencesUnder bodies (d :: rest) name
      = (if d.name = name then d.references bodies else []) ++ referencesUnder bodies rest name := by
  by_cases hd : d.name = name
  · simp [referencesUnder, hd]
  · simp [referencesUnder, hd]

namespace Survey

variable {names : OrderedSet String} (bodies : Bool)

/-- Placing a definition adds its references to the node of its name and to no other. -/
theorem getElem?_place {nodes : Array Mentions} {i : Nat} {name : String} {mentioned : List String}
    (hname : names.toList[i]? = some name)
    (hnode : nodes[i]? = some (.ofNames names mentioned)) (d : Definition) :
    (place names nodes (d.name, .ofDefinition names bodies d))[i]?
      = some (.ofNames names
          (mentioned ++ if d.name = name then d.references bodies else [])) := by
  have hindex := (names.indexOf?_eq_some_iff name i).mpr hname
  rw [Mentions.ofDefinition_eq, place]
  by_cases hd : d.name = name
  · rw [hd, hindex, if_pos rfl]
    simp only [Array.getElem?_modify, if_pos, hnode, Option.map_some, Mentions.merge_ofNames]
  · rw [if_neg hd, List.append_nil]
    split
    · next j hj =>
        -- a place has one name, so a definition of another name goes to another place
        have hij : j ≠ i := by
          rintro rfl
          have hsame := ((names.indexOf?_eq_some_iff _ _).mp hj).symm.trans hname
          exact hd (Option.some.inj hsame)
        rw [Array.getElem?_modify, if_neg hij, hnode]
    · exact hnode

theorem getElem?_foldl_place {i : Nat} {name : String} (hname : names.toList[i]? = some name) :
    ∀ (definitions : List Definition) (nodes : Array Mentions) (mentioned : List String),
      nodes[i]? = some (.ofNames names mentioned) →
      ((definitions.map fun d => (d.name, Mentions.ofDefinition names bodies d)).foldl
          (place names) nodes)[i]?
        = some (.ofNames names
            (mentioned ++ Definition.referencesUnder bodies definitions name))
  | [], nodes, mentioned, hnode => by
      rw [Definition.referencesUnder, List.filter_nil, List.flatMap_nil, List.append_nil]
      exact hnode
  | d :: rest, nodes, mentioned, hnode => by
      have ih := getElem?_foldl_place hname rest _ _ (getElem?_place bodies hname hnode d)
      rw [List.map_cons, List.foldl_cons, ih, Definition.referencesUnder_cons, List.append_assoc]

end Survey

namespace DependencyGraph

variable {options : GraphOptions} {definitions : List Definition}

/-! ## Names and ids -/

theorem names_build (options : GraphOptions) (definitions : List Definition) :
    (build options definitions).names.toList = (definitions.map Definition.name).eraseDups :=
  OrderedSet.toList_ofList _

theorem nameOf_eq_ok_iff {g : DependencyGraph} {id : DefId} {name : String} :
    g.nameOf id = .ok name ↔ g.names.toList[id.index]? = some name := by
  rw [nameOf, OrderedSet.get?_eq]
  cases g.names.toList[id.index]? with
  | none => simp
  | some found => simp

theorem nameOf_inj {g : DependencyGraph} {u v : DefId} {a : String} (hu : g.nameOf u = .ok a)
    (hv : g.nameOf v = .ok a) : u = v := by
  rw [nameOf_eq_ok_iff, ← OrderedSet.indexOf?_eq_some_iff] at hu hv
  rw [hu] at hv
  exact DefId.index_injective (Option.some.inj hv)

theorem WellFormed.find?_eq_some_iff {g : DependencyGraph} (hg : g.WellFormed) {name : String}
    {id : DefId} : g.find? name = some id ↔ g.nameOf id = .ok name := by
  rw [nameOf_eq_ok_iff, find?, DefId.ofName?, Option.map_eq_some_iff]
  constructor
  · rintro ⟨i, hi, rfl⟩
    have hplace := (g.names.indexOf?_eq_some_iff _ _).mp hi
    have hlt : i < g.size := by
      obtain ⟨hlt, -⟩ := List.getElem?_eq_some_iff.mp hplace
      rwa [size, OrderedSet.size_eq]
    rwa [DefId.index_ofIndex (Nat.lt_of_lt_of_le hlt hg.size_le)]
  · intro h
    exact ⟨id.index, (g.names.indexOf?_eq_some_iff _ _).mpr h, DefId.ofIndex_index id⟩

theorem find?_eq_none_iff {g : DependencyGraph} {name : String} :
    g.find? name = none ↔ name ∉ g.names.toList := by
  rw [find?, DefId.ofName?, Option.map_eq_none_iff, ← g.names.contains_iff, OrderedSet.contains,
    Std.HashMap.contains_eq_isSome_getElem?, OrderedSet.indexOf?]
  simp

theorem WellFormed.index_ids {g : DependencyGraph} (hg : g.WellFormed) :
    g.ids.map DefId.index = List.range g.size := by
  rw [ids, List.map_map]
  refine (List.map_congr_left fun i hi => ?_).trans (List.map_id _)
  exact DefId.index_ofIndex (Nat.lt_of_lt_of_le (List.mem_range.mp hi) hg.size_le)

theorem WellFormed.nameOf_ids {g : DependencyGraph} (hg : g.WellFormed) :
    g.ids.map g.nameOf = g.names.toList.map .ok := by
  have hsize : g.size = g.names.toList.length := OrderedSet.size_eq g.names
  refine List.ext_getElem (by simp [ids, hsize]) fun i hi hi' => ?_
  have hlt : i < g.names.toList.length := by simpa using hi'
  have hindex : (DefId.ofIndex i).index = i :=
    DefId.index_ofIndex (Nat.lt_of_lt_of_le (hsize ▸ hlt) hg.size_le)
  simp only [ids, List.getElem_map, List.getElem_range]
  rw [nameOf_eq_ok_iff, hindex, List.getElem?_eq_getElem hlt]

theorem WellFormed.exists_nameOf_iff {g : DependencyGraph} (hg : g.WellFormed) {a : String} :
    (∃ v, g.nameOf v = .ok a) ↔ a ∈ g.names.toList := by
  constructor
  · rintro ⟨v, hv⟩
    exact List.mem_of_getElem? (nameOf_eq_ok_iff.mp hv)
  · intro ha
    cases hfind : g.find? a with
    | none => exact absurd ha (find?_eq_none_iff.mp hfind)
    | some v => exact ⟨v, hg.find?_eq_some_iff.mp hfind⟩

theorem mem_names_build {a : String} :
    a ∈ (build options definitions).names.toList ↔ a ∈ definitions.map Definition.name := by
  rw [names_build, List.mem_eraseDups]

theorem nameOf_build {id : DefId} {name : String} :
    (build options definitions).nameOf id = .ok name ↔
      (definitions.map Definition.name).eraseDups[id.index]? = some name := by
  rw [nameOf_eq_ok_iff, names_build]

/-! ## Dependencies and unknown names -/

/-- The node of a name holds what the definitions of the name mention. -/
theorem mentions_build {i : Nat} {name : String}
    (hname : (build options definitions).names.toList[i]? = some name) :
    (build options definitions).mentions[i]?
      = some (.ofNames (build options definitions).names
          (Definition.referencesUnder options.functionBodies definitions name)) := by
  have hlt : i < (build options definitions).names.size := by
    obtain ⟨hlt, -⟩ := List.getElem?_eq_some_iff.mp hname
    rwa [OrderedSet.size_eq]
  have hnode : (Array.replicate (build options definitions).names.size Mentions.empty)[i]?
      = some (.ofNames (build options definitions).names []) := by
    rw [Array.getElem?_replicate, if_pos hlt]
    rfl
  exact Survey.getElem?_foldl_place _ hname definitions _ [] hnode

theorem dependencies_build (hg : (build options definitions).WellFormed) {u : DefId} {a : String}
    (ha : (build options definitions).nameOf u = .ok a) :
    ∃ deps, (build options definitions).dependencies u = .ok deps ∧ ∀ v, v ∈ deps ↔
      ∃ b ∈ Definition.referencesUnder options.functionBodies definitions a,
        (build options definitions).nameOf v = .ok b := by
  refine ⟨_, dependencies_eq_ok_iff.mpr ⟨_, mentions_build (nameOf_eq_ok_iff.mp ha), rfl⟩,
    fun v => ?_⟩
  rw [Mentions.ofNames, OrderedSet.mem_toList_ofList, List.mem_filterMap]
  simp only [← hg.find?_eq_some_iff]
  rfl

theorem depends_build (hg : (build options definitions).WellFormed) {u v : DefId} {a b : String}
    (hu : (build options definitions).nameOf u = .ok a)
    (hv : (build options definitions).nameOf v = .ok b) :
    (build options definitions).Depends u v ↔
      b ∈ Definition.referencesUnder options.functionBodies definitions a := by
  obtain ⟨deps, hdeps, hmem⟩ := dependencies_build hg hu
  rw [depends_iff_mem hdeps, hmem v]
  constructor
  · rintro ⟨b', hb', hv'⟩
    rw [hv] at hv'
    cases hv'
    exact hb'
  · exact fun hb => ⟨b, hb, hv⟩

theorem depends_of_places (hg : (build options definitions).WellFormed) {u v : DefId}
    {a b : String} (hu : (definitions.map Definition.name).eraseDups[u.index]? = some a)
    (hv : (definitions.map Definition.name).eraseDups[v.index]? = some b)
    (hab : b ∈ Definition.referencesUnder options.functionBodies definitions a) :
    (build options definitions).Depends u v :=
  (depends_build hg (nameOf_build.mpr hu) (nameOf_build.mpr hv)).mpr hab

theorem unknownNames_build {u : DefId} {a : String}
    (ha : (build options definitions).nameOf u = .ok a) :
    ∃ names, (build options definitions).unknownNames u = .ok names ∧ ∀ b, b ∈ names ↔
      b ∈ Definition.referencesUnder options.functionBodies definitions a ∧
        b ∉ definitions.map Definition.name := by
  refine ⟨(Mentions.ofNames (build options definitions).names
    (Definition.referencesUnder options.functionBodies definitions a)).unknown.toList, ?_,
    fun b => ?_⟩
  · simp only [unknownNames, mentionsOf, mentions_build (nameOf_eq_ok_iff.mp ha), bind, Except.bind,
      pure, Except.pure]
  · rw [Mentions.ofNames, OrderedSet.mem_toList_ofList, List.mem_filter, ← mem_names_build,
      ← find?_eq_none_iff, Option.isNone_iff_eq_none]
    rfl

/-- `g` is the graph of the definitions: what there is to know of it in terms of lists. -/
structure IsGraphOf (bodies : Bool) (definitions : List Definition) (g : DependencyGraph) :
    Prop where
  /-- The ids count the distinct names. -/
  ids_eq : g.ids.map DefId.index = List.range (definitions.map Definition.name).toFinset.card
  /-- Ids are numbered by first appearance of their names. -/
  nameOf_ids : g.ids.map g.nameOf = (definitions.map Definition.name).eraseDups.map .ok
  /-- Ids and names are found from one another. -/
  find?_iff : ∀ name id, g.find? name = some id ↔ g.nameOf id = .ok name
  find?_none_iff : ∀ name, g.find? name = none ↔ name ∉ definitions.map Definition.name
  /-- Dependencies are the ids of mentioned names, in order of first mention. -/
  dependencies_eq : ∀ id name, g.nameOf id = .ok name → g.dependencies id
    = .ok ((Definition.referencesUnder bodies definitions name).filterMap g.find?).eraseDups
  /-- Unknown names are the other mentioned names, in order of first mention. -/
  unknownNames_eq : ∀ id name, g.nameOf id = .ok name → g.unknownNames id
    = .ok ((Definition.referencesUnder bodies definitions name).filter
        fun mentioned => (g.find? mentioned).isNone).eraseDups

/-- The graph of any definitions with fewer than 2^32 distinct names holds exactly these names, and
for each of them exactly what its definitions mention. -/
theorem build_isGraphOf (options : GraphOptions) (definitions : List Definition)
    (h : (definitions.map Definition.name).toFinset.card < UInt32.size) :
    (build options definitions).IsGraphOf options.functionBodies definitions := by
  have hg : (build options definitions).WellFormed := build_wellFormed h
  refine ⟨?_, ?_, fun _ _ => hg.find?_eq_some_iff, ?_, ?_, ?_⟩
  · rw [hg.index_ids, size_build]
  · rw [hg.nameOf_ids, names_build]
  · intro name
    rw [find?_eq_none_iff, names_build, List.mem_eraseDups]
  · intro id name hname
    have hnode := mentions_build (nameOf_eq_ok_iff.mp hname)
    rw [dependencies_eq_ok_iff]
    exact ⟨_, hnode, OrderedSet.toList_ofList _⟩
  · intro id name hname
    have hnode := mentions_build (nameOf_eq_ok_iff.mp hname)
    simp only [unknownNames, mentionsOf, hnode, bind, Except.bind, pure, Except.pure]
    exact congrArg Except.ok (OrderedSet.toList_ofList _)

/-- Two definitions of one name around a function, with known and unknown names between each other. -/
def repeatedDefinitions : List Definition :=
  [.var "A" (.union [.bare "X", .bare "B", .bare "X"]),
    .function "B" [⟨"p", .bare "A"⟩] (.bare "Y"),
    .struct "A" [⟨"y", .bare "Y"⟩, ⟨"b", .bare "B"⟩, ⟨"a", .bare "A"⟩]]

theorem build_isGraphOf_repeated :
    (repeatedDefinitions.map Definition.name).toFinset.card < UInt32.size ∧
    (build { functionBodies := true } repeatedDefinitions).IsGraphOf true repeatedDefinitions :=
  ⟨by decide, build_isGraphOf { functionBodies := true } repeatedDefinitions (by decide)⟩

end DependencyGraph
end TypeGraph
