/-
# Mentioned names, known and unknown

A definition mentions names, and the graph splits them: names that are defined become dependencies,
and the others unknown names.  Nothing is lost by the split.  Both sides keep the order of first
mention, so the names that the definition mentions are the two sides interleaved (`Interleaves`).

The graph goes from names to ids and the reader goes back from ids to names.  Going there and back
gives the defined ones among the names (`mapM_nameOf_filterMap`), and it does not matter whether
repetitions are dropped before or after.
-/
import TypeGraph.Proofs.Expr.Occurrence
import TypeGraph.Proofs.Graph.Names

namespace TypeGraph

/-! ## Two lists in one -/

/-- The third list is the first two put together, each in its own order. -/
inductive Interleaves {α : Type} : List α → List α → List α → Prop where
  | nil : Interleaves [] [] []
  | left (a : α) {xs ys zs : List α} (h : Interleaves xs ys zs) :
      Interleaves (a :: xs) ys (a :: zs)
  | right (b : α) {xs ys zs : List α} (h : Interleaves xs ys zs) :
      Interleaves xs (b :: ys) (b :: zs)

theorem interleaves_filter {α : Type} (p : α → Bool) (l : List α) :
    Interleaves (l.filter p) (l.filter fun a => !p a) l := by
  induction l with
  | nil => exact .nil
  | cons a rest ih =>
      cases hp : p a with
      | true =>
          rw [List.filter_cons_of_pos hp, List.filter_cons_of_neg (by simp [hp])]
          exact .left a ih
      | false =>
          rw [List.filter_cons_of_neg (by simp [hp]), List.filter_cons_of_pos (by simp [hp])]
          exact .right a ih

theorem disjoint_filter {α : Type} (p : α → Bool) (l : List α) :
    (l.filter p).Disjoint (l.filter fun a => !p a) := by
  intro a ha ha'
  have hp := (List.mem_filter.mp ha).2
  have hnot := (List.mem_filter.mp ha').2
  rw [hp] at hnot
  cases hnot

/-! ## One definition of a name -/

theorem Definition.referencesUnder_of_nodup (bodies : Bool) {definitions : List Definition}
    (h : (definitions.map Definition.name).Nodup) {d : Definition} (hd : d ∈ definitions) :
    referencesUnder bodies definitions d.name = d.references bodies := by
  have honly : (definitions.filter fun e => e.name = d.name) = [d] := by
    induction definitions with
    | nil => cases hd
    | cons e rest ih =>
        obtain ⟨hnew, hrest⟩ := List.nodup_cons.mp h
        rcases List.mem_cons.mp hd with rfl | hd
        · have hnone : (rest.filter fun e => e.name = d.name) = [] := by
            refine List.filter_eq_nil_iff.mpr fun e he hname => hnew ?_
            exact List.mem_map.mpr ⟨e, he, of_decide_eq_true hname⟩
          rw [List.filter_cons_of_pos (by simp), hnone]
        · have hne : e.name ≠ d.name := fun he => hnew (he ▸ List.mem_map_of_mem hd)
          rw [List.filter_cons_of_neg (by simp [hne])]
          exact ih hrest hd
  rw [referencesUnder, honly, List.flatMap_singleton]

namespace DependencyGraph

/-! ## Names to ids and back -/

theorem WellFormed.find?_inj {g : DependencyGraph} (hg : g.WellFormed) (a b : String) (v : DefId)
    (ha : g.find? a = some v) (hb : g.find? b = some v) : a = b := by
  have hname := hg.find?_eq_some_iff.mp ha
  rw [hg.find?_eq_some_iff.mp hb] at hname
  exact (Except.ok.inj hname).symm

theorem WellFormed.mapM_nameOf_filterMap {g : DependencyGraph} (hg : g.WellFormed)
    (l : List String) : (l.filterMap g.find?).mapM g.nameOf
      = .ok (l.filter fun a => (g.find? a).isSome) := by
  induction l with
  | nil => rfl
  | cons a rest ih =>
      cases hfind : g.find? a with
      | none =>
          rw [List.filterMap_cons_none hfind, List.filter_cons_of_neg (by simp [hfind]), ih]
      | some v =>
          have hname : g.nameOf v = .ok a := hg.find?_eq_some_iff.mp hfind
          rw [List.filterMap_cons_some hfind, List.filter_cons_of_pos (by simp [hfind]),
            List.mapM_cons, hname, ih]
          rfl

theorem dependencyNames_and_unknownNames {g : DependencyGraph} (hg : g.WellFormed) {id : DefId}
    {mentioned : List String}
    (hmentions : g.mentions[id.index]? = some (.ofNames g.names mentioned)) :
    g.dependencyNames id
        = .ok ((OrderedSet.ofList mentioned).toList.filter fun a => (g.find? a).isSome) ∧
      g.unknownNames id
        = .ok ((OrderedSet.ofList mentioned).toList.filter fun a => !(g.find? a).isSome) := by
  have hdeps : g.dependencies id
      = .ok ((OrderedSet.ofList mentioned).toList.filterMap g.find?) := by
    rw [OrderedSet.filterMap_toList_ofList hg.find?_inj]
    exact dependencies_eq_ok_iff.mpr ⟨_, hmentions, rfl⟩
  constructor
  · rw [dependencyNames, hdeps]
    exact hg.mapM_nameOf_filterMap _
  · rw [OrderedSet.filter_toList_ofList]
    simp only [unknownNames, mentionsOf, hmentions, Option.not_isSome]
    rfl

/-- The names that a definition mentions, split by a graph into known and unknown ones. -/
def SplitsNames (g : DependencyGraph) (d : Definition) : Prop :=
  ∃ id known unknown, g.find? d.name = some id ∧ g.dependencyNames id = .ok known ∧
    g.unknownNames id = .ok unknown ∧
    Interleaves known unknown (Node.definition d).mentionedNames ∧ known.Disjoint unknown

theorem splitsNames_build {definitions : List Definition} (hg : (build {} definitions).WellFormed)
    (hnodup : (definitions.map Definition.name).Nodup) {d : Definition} (hd : d ∈ definitions) :
    (build {} definitions).SplitsNames d := by
  have hdefined : d.name ∈ (build {} definitions).names.toList :=
    mem_names_build.mpr (List.mem_map_of_mem hd)
  obtain ⟨id, hid⟩ := hg.exists_nameOf_iff.mpr hdefined
  have hmentions := mentions_build (nameOf_eq_ok_iff.mp hid)
  rw [Definition.referencesUnder_of_nodup _ hnodup hd] at hmentions
  obtain ⟨hknown, hunknown⟩ := dependencyNames_and_unknownNames hg hmentions
  have hmentioned : (Node.definition d).mentionedNames
      = (OrderedSet.ofList (d.references false)).toList := by
    rw [Node.mentionedNames, RefCursor.toList_ofNode]
    rfl
  refine ⟨id, _, _, hg.find?_eq_some_iff.mpr hid, hknown, hunknown, ?_, disjoint_filter _ _⟩
  rw [hmentioned]
  exact interleaves_filter _ _

/-- The names of any node are collected once each, in order of first mention, and they are the names
that are found in it and that occur in it outside of function bodies.  For any definitions with
distinct names, fewer than 2^32, the names of each definition are those of its dependencies
and its unknown names, interleaved, and no name is among both. -/
theorem mentionedNames_agree :
    (∀ n : Node, n.NamesAgree) ∧
    ∀ definitions : List Definition, (definitions.map Definition.name).Nodup →
      (definitions.map Definition.name).toFinset.card < UInt32.size →
      ∀ d ∈ definitions, (build {} definitions).SplitsNames d :=
  ⟨Node.namesAgree, fun _ hnodup hsize _ hd => splitsNames_build (build_wellFormed hsize) hnodup hd⟩

/-- A definition with a function in a local scope, whose parameter counts and whose body does not,
and a definition that it depends on. -/
def scopedDefinition : Definition :=
  .var "A" (.scope [.function "F" [⟨"p", .bare "B"⟩] (.bare "Y")]
    (.union [.bare "X", .bare "B", .bare "A"]))

def scopedDefinitions : List Definition := [scopedDefinition, .struct "B" [⟨"x", .bare "X"⟩]]

theorem mentionedNames_agree_scoped :
    ((scopedDefinitions.map Definition.name).Nodup ∧
      (scopedDefinitions.map Definition.name).toFinset.card < UInt32.size ∧
      scopedDefinition ∈ scopedDefinitions) ∧
    (Node.definition scopedDefinition).NamesAgree ∧
    (build {} scopedDefinitions).SplitsNames scopedDefinition := by
  have hnodup : (scopedDefinitions.map Definition.name).Nodup := by decide
  have hsize : (scopedDefinitions.map Definition.name).toFinset.card < UInt32.size := by decide
  have hmem : scopedDefinition ∈ scopedDefinitions := List.mem_cons_self
  obtain ⟨hagree, hsplits⟩ := mentionedNames_agree
  exact ⟨⟨hnodup, hsize, hmem⟩, hagree _, hsplits _ hnodup hsize _ hmem⟩

-- the body of the local function is passed over, and `B` comes from its parameter
example : (Node.definition scopedDefinition).mentionedNames = ["B", "X", "A"] := by
  rw [Node.mentionedNames, RefCursor.toList_ofNode, OrderedSet.toList_ofList]
  decide

end DependencyGraph
end TypeGraph
