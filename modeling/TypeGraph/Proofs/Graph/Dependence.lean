/-
# The dependency relation of a graph

`Depends u v` says that `v` is listed among the dependencies of `u`, and `Reaches` is its
reflexive transitive closure.  The theory of components, cycles and orders is stated over these
two relations.

Lookups by id can fail, and places are counted modulo 2^32, so the relation alone does not say
that the graph can be walked.  `WellFormed` does: every place has its mentions, every dependency
is a place of the graph, and no two places share an id.  Building a graph from definitions with
fewer than 2^32 distinct names gives a well-formed one (`build_wellFormed`).
-/
import Mathlib.Logic.Relation
import TypeGraph.Graph.Basic
import TypeGraph.Proofs.OrderedSet

namespace TypeGraph

/-! ## Mentions stay within the graph -/

namespace Mentions

def Within (n : Nat) (m : Mentions) : Prop := ∀ v ∈ m.dependencies.toList, v.index < n

theorem within_empty (n : Nat) : empty.Within n := fun _ h => absurd h List.not_mem_nil

theorem Within.add {names : OrderedSet String} (hn : names.size ≤ UInt32.size) {m : Mentions}
    (hm : m.Within names.size) (name : String) : (m.add names name).Within names.size := by
  unfold Mentions.add
  split
  · next id hid =>
      obtain ⟨i, hi, rfl⟩ := Option.map_eq_some_iff.mp hid
      have hlt : i < names.size := by
        obtain ⟨h, -⟩ := List.getElem?_eq_some_iff.mp ((names.indexOf?_eq_some_iff _ _).mp hi)
        rwa [OrderedSet.size_eq]
      intro v hv
      rcases (OrderedSet.mem_toList_insert _ _ _).mp hv with hv | rfl
      · exact hm v hv
      · rwa [DefId.index_ofIndex (Nat.lt_of_lt_of_le hlt hn)]
  · exact hm

theorem within_ofDefinition {names : OrderedSet String} (hn : names.size ≤ UInt32.size)
    (bodies : Bool) (d : Definition) : (ofDefinition names bodies d).Within names.size := by
  have hfold : ∀ (l : List String) (m : Mentions), m.Within names.size →
      (l.foldl (Mentions.add names) m).Within names.size := by
    intro l
    induction l with
    | nil => exact fun _ hm => hm
    | cons name rest ih => exact fun m hm => ih _ (hm.add hn name)
  exact hfold _ _ (within_empty _)

theorem Within.merge {n : Nat} {m more : Mentions} (hm : m.Within n) (hmore : more.Within n) :
    (m.merge more).Within n := by
  intro v hv
  rcases (OrderedSet.mem_toList_insertAll _ _ _).mp hv with hv | hv
  · exact hm v hv
  · exact hmore v hv

end Mentions

namespace Survey

theorem size_place (names : OrderedSet String) (nodes : Array Mentions)
    (found : String × Mentions) : (place names nodes found).size = nodes.size := by
  unfold place
  split
  · exact Array.size_modify
  · rfl

theorem within_place {names : OrderedSet String} {n : Nat} {nodes : Array Mentions}
    {found : String × Mentions} (hfound : found.2.Within n) (h : ∀ m ∈ nodes, m.Within n) :
    ∀ m ∈ place names nodes found, m.Within n := by
  unfold place
  split
  · next i hi =>
      intro m hm
      obtain ⟨j, hj⟩ := Array.mem_iff_getElem?.mp hm
      rw [Array.getElem?_modify] at hj
      split at hj
      · obtain ⟨old, hold, rfl⟩ := Option.map_eq_some_iff.mp hj
        exact (h old (Array.mem_of_getElem? hold)).merge hfound
      · exact h m (Array.mem_of_getElem? hj)
  · exact h

theorem foldl_place {names : OrderedSet String} {n : Nat} :
    ∀ (collected : List (String × Mentions)) (nodes : Array Mentions),
      (∀ found ∈ collected, found.2.Within n) → (∀ m ∈ nodes, m.Within n) →
      (collected.foldl (place names) nodes).size = nodes.size ∧
        ∀ m ∈ collected.foldl (place names) nodes, m.Within n
  | [], _, _, h => ⟨rfl, h⟩
  | found :: rest, nodes, hc, h => by
      obtain ⟨hs, hw⟩ := foldl_place rest (place names nodes found)
        (fun f hf => hc f (List.mem_cons_of_mem _ hf))
        (within_place (hc found List.mem_cons_self) h)
      exact ⟨hs.trans (size_place names nodes found), hw⟩

end Survey

namespace DependencyGraph

/-! ## The relation -/

def Depends (g : DependencyGraph) (u v : DefId) : Prop :=
  ∃ deps, g.dependencies u = .ok deps ∧ v ∈ deps

def Reaches (g : DependencyGraph) : DefId → DefId → Prop := Relation.ReflTransGen g.Depends

theorem dependencies_eq_ok_iff {g : DependencyGraph} {v : DefId} {deps : List DefId} :
    g.dependencies v = .ok deps ↔
      ∃ m, g.mentions[v.index]? = some m ∧ m.dependencies.toList = deps := by
  simp only [dependencies, mentionsOf]
  cases g.mentions[v.index]? with
  | none => simp [bind, Except.bind]
  | some m => simp [bind, Except.bind, pure, Except.pure]

theorem depends_iff_mem {g : DependencyGraph} {u : DefId} {deps : List DefId}
    (hdeps : g.dependencies u = .ok deps) {v : DefId} : g.Depends u v ↔ v ∈ deps := by
  constructor
  · rintro ⟨deps', hdeps', hv⟩
    rw [hdeps] at hdeps'
    cases hdeps'
    exact hv
  · intro hv
    exact ⟨deps, hdeps, hv⟩

/-- A graph that can be walked. -/
structure WellFormed (g : DependencyGraph) : Prop where
  /-- Places can be told apart by their ids. -/
  size_le : g.size ≤ UInt32.size
  /-- Every place has its mentions. -/
  mentions_size : g.mentions.size = g.size
  /-- Every dependency is a place of the graph. -/
  within : ∀ m ∈ g.mentions, m.Within g.size

theorem size_build (options : GraphOptions) (definitions : List Definition) :
    (build options definitions).size = (definitions.map Definition.name).toFinset.card :=
  OrderedSet.size_ofList _

theorem build_wellFormed {options : GraphOptions} {definitions : List Definition}
    (h : (definitions.map Definition.name).toFinset.card < UInt32.size) :
    (build options definitions).WellFormed := by
  have hsize : (build options definitions).size ≤ UInt32.size := by
    rw [size_build]
    exact Nat.le_of_lt h
  have hcollected : ∀ found ∈ (Survey.ofDefinitions options definitions).collected,
      found.2.Within (build options definitions).size := by
    intro found hf
    obtain ⟨d, -, rfl⟩ := List.mem_map.mp hf
    exact Mentions.within_ofDefinition hsize _ d
  have hempty : ∀ m ∈ Array.replicate (build options definitions).size Mentions.empty,
      m.Within (build options definitions).size := by
    intro m hm
    rw [Array.eq_of_mem_replicate hm]
    exact Mentions.within_empty _
  obtain ⟨hcount, hwithin⟩ := Survey.foldl_place _ _ hcollected hempty
  exact ⟨hsize, hcount.trans Array.size_replicate, hwithin⟩

namespace WellFormed

variable {g : DependencyGraph} (hg : g.WellFormed)

include hg

theorem dependencies_ok {v : DefId} (hv : v.index < g.size) :
    ∃ deps, g.dependencies v = .ok deps := by
  have hlt : v.index < g.mentions.size := by rwa [hg.mentions_size]
  exact ⟨_, dependencies_eq_ok_iff.mpr ⟨g.mentions[v.index], Array.getElem?_eq_getElem hlt, rfl⟩⟩

theorem depends_lt {u v : DefId} (h : g.Depends u v) : u.index < g.size ∧ v.index < g.size := by
  obtain ⟨deps, hdeps, hv⟩ := h
  obtain ⟨m, hm, rfl⟩ := dependencies_eq_ok_iff.mp hdeps
  obtain ⟨hlt, -⟩ := Array.getElem?_eq_some_iff.mp hm
  exact ⟨by rwa [← hg.mentions_size], hg.within m (Array.mem_of_getElem? hm) v hv⟩

theorem mem_ids {v : DefId} : v ∈ g.ids ↔ v.index < g.size := by
  constructor
  · intro h
    obtain ⟨i, hi, rfl⟩ := List.mem_map.mp h
    have hi : i < g.size := List.mem_range.mp hi
    rwa [DefId.index_ofIndex (Nat.lt_of_lt_of_le hi hg.size_le)]
  · intro h
    exact List.mem_map.mpr ⟨v.index, List.mem_range.mpr h, DefId.ofIndex_index v⟩

theorem nodup_ids : g.ids.Nodup := by
  refine List.Pairwise.map _ ?_ (List.pairwise_lt_range.imp_of_mem
    (S := fun i j => i < g.size ∧ j < g.size ∧ i ≠ j) ?_)
  · rintro i j ⟨hi, hj, hne⟩ he
    apply hne
    rw [← DefId.index_ofIndex (Nat.lt_of_lt_of_le hi hg.size_le), he,
      DefId.index_ofIndex (Nat.lt_of_lt_of_le hj hg.size_le)]
  · intro i j hi hj hij
    exact ⟨List.mem_range.mp hi, List.mem_range.mp hj, Nat.ne_of_lt hij⟩

end WellFormed
end DependencyGraph
end TypeGraph
