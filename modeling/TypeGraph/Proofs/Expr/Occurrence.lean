/-
# Which names occur in a node

`Node.Names n a` says in terms of the syntax alone that a named expression with the name `a` occurs
in `n` outside of all function bodies: it is reached from `n` by going from a node to one of its
parts, and the body of a function is no part (`Node.Part`).  Functions may be defined in scopes at
any depth, inside of fields, parameters and arms, and the relation says nothing about depth.

There are two ways to ask for these names.  One collects all references of the node and drops
repetitions; the other looks for one name and stops where it is found.  Both come down to the
references of the node, which are the names that occur (`mem_references_iff`), and the collected
names stand in the order in which the references first have them (`pairwise_ofList`).
-/
import Mathlib.Logic.Relation
import TypeGraph.Proofs.Expr.Bodies
import TypeGraph.Proofs.OrderedSet

namespace TypeGraph

/-! ## Parts of a node -/

namespace Node

/-- The second node stands right inside the first one, and not as the body of a function. -/
inductive Part : Node → Node → Prop where
  | argument {name : String} {fields : List (Field Expr)} {f : Field Expr} (h : f ∈ fields) :
      Part (.expr (.named name fields)) (.expr f.value)
  | intersected {items : List Expr} {e : Expr} (h : e ∈ items) :
      Part (.expr (.intersection items)) (.expr e)
  | united {items : List Expr} {e : Expr} (h : e ∈ items) : Part (.expr (.union items)) (.expr e)
  | accessed (e : Expr) (field : String) : Part (.expr (.access e field)) (.expr e)
  | passed {function : String} {args : List Expr} {e : Expr} (h : e ∈ args) :
      Part (.expr (.call function args)) (.expr e)
  | matched (e : Expr) (arms : List (Arm Expr)) : Part (.expr (.matchOn e arms)) (.expr e)
  | pattern {e : Expr} {arms : List (Arm Expr)} {arm : Arm Expr} (h : arm ∈ arms) :
      Part (.expr (.matchOn e arms)) (.expr arm.pattern)
  | result {e : Expr} {arms : List (Arm Expr)} {arm : Arm Expr} (h : arm ∈ arms) :
      Part (.expr (.matchOn e arms)) (.expr arm.result)
  | defined {definitions : List Definition} {body : Expr} {d : Definition} (h : d ∈ definitions) :
      Part (.expr (.scope definitions body)) (.definition d)
  | served (definitions : List Definition) (body : Expr) :
      Part (.expr (.scope definitions body)) (.expr body)
  | value (name : String) (value : Expr) : Part (.definition (.var name value)) (.expr value)
  | field {name : String} {fields : List (Field Expr)} {f : Field Expr} (h : f ∈ fields) :
      Part (.definition (.struct name fields)) (.expr f.value)
  /-- Of a function, the parameters are parts. -/
  | parameter {name : String} {parameters : List (Field Expr)} {value : Expr} {p : Field Expr}
      (h : p ∈ parameters) : Part (.definition (.function name parameters value)) (.expr p.value)

def Occurs : Node → Node → Prop := Relation.ReflTransGen Part

/-- A named expression with this name occurs in the node outside of all function bodies. -/
def Names (n : Node) (name : String) : Prop := ∃ fields, n.Occurs (.expr (.named name fields))

/-- The parts of a node are what a walk goes on to when it leaves function bodies out: one case per
form of expression and definition. -/
theorem part_iff {n c : Node} : n.Part c ↔ c ∈ n.children false := by
  constructor
  · intro h
    cases h with
    | argument h => exact List.mem_map.mpr ⟨_, h, rfl⟩
    | intersected h => exact List.mem_map.mpr ⟨_, h, rfl⟩
    | united h => exact List.mem_map.mpr ⟨_, h, rfl⟩
    | accessed e field => exact List.mem_singleton_self _
    | passed h => exact List.mem_map.mpr ⟨_, h, rfl⟩
    | matched e arms => exact List.mem_cons_self
    | @pattern e arms arm h =>
        have harm : Node.expr arm.pattern ∈ ofArm arm := List.mem_cons_self
        exact List.mem_cons_of_mem _ (List.mem_flatMap.mpr ⟨arm, h, harm⟩)
    | @result e arms arm h =>
        have harm : Node.expr arm.result ∈ ofArm arm := List.mem_cons_of_mem _ List.mem_cons_self
        exact List.mem_cons_of_mem _ (List.mem_flatMap.mpr ⟨arm, h, harm⟩)
    | defined h => exact List.mem_append_left _ (List.mem_map.mpr ⟨_, h, rfl⟩)
    | served definitions body => exact List.mem_append_right _ (List.mem_singleton_self _)
    | value name value => exact List.mem_singleton_self _
    | field h => exact List.mem_map.mpr ⟨_, h, rfl⟩
    | parameter h => exact List.mem_append_left _ (List.mem_map.mpr ⟨_, h, rfl⟩)
  · intro h
    match n with
    | .expr (.literal _) => cases h
    | .expr (.named name fields) =>
        obtain ⟨f, hf, rfl⟩ := List.mem_map.mp h
        exact .argument hf
    | .expr (.intersection items) =>
        obtain ⟨e, he, rfl⟩ := List.mem_map.mp h
        exact .intersected he
    | .expr (.union items) =>
        obtain ⟨e, he, rfl⟩ := List.mem_map.mp h
        exact .united he
    | .expr (.access e field) =>
        cases List.mem_singleton.mp h
        exact .accessed e field
    | .expr (.call function args) =>
        obtain ⟨e, he, rfl⟩ := List.mem_map.mp h
        exact .passed he
    | .expr (.matchOn e arms) =>
        rcases List.mem_cons.mp h with rfl | h
        · exact .matched e arms
        · obtain ⟨arm, harm, hc⟩ := List.mem_flatMap.mp h
          rcases List.mem_cons.mp hc with rfl | hc
          · exact .pattern harm
          · cases List.mem_singleton.mp hc
            exact .result harm
    | .expr (.scope definitions body) =>
        rcases List.mem_append.mp h with h | h
        · obtain ⟨d, hd, rfl⟩ := List.mem_map.mp h
          exact .defined hd
        · cases List.mem_singleton.mp h
          exact .served definitions body
    | .definition (.var name value) =>
        cases List.mem_singleton.mp h
        exact .value name value
    | .definition (.struct name fields) =>
        obtain ⟨f, hf, rfl⟩ := List.mem_map.mp h
        exact .field hf
    | .definition (.function name parameters value) =>
        rcases List.mem_append.mp h with h | h
        · obtain ⟨p, hp, rfl⟩ := List.mem_map.mp h
          exact .parameter hp
        · cases h

theorem mention?_eq_some_iff {n : Node} {name : String} :
    n.mention? = some name ↔ ∃ fields, n = .expr (.named name fields) := by
  constructor
  · intro h
    match n, h with
    | .expr (.named _ fields), rfl => exact ⟨fields, rfl⟩
  · rintro ⟨fields, rfl⟩
    rfl

theorem names_iff {n : Node} {name : String} :
    n.Names name ↔ n.mention? = some name ∨ ∃ c, n.Part c ∧ c.Names name := by
  rw [mention?_eq_some_iff]
  constructor
  · rintro ⟨fields, h⟩
    rcases h.cases_head with rfl | ⟨c, hc, h⟩
    · exact Or.inl ⟨fields, rfl⟩
    · exact Or.inr ⟨c, hc, fields, h⟩
  · rintro (⟨fields, rfl⟩ | ⟨c, hc, fields, h⟩)
    · exact ⟨fields, .refl⟩
    · exact ⟨fields, .head hc h⟩

/-- The references of a node outside of function bodies are the names that occur there: by induction
on the size of the node. -/
theorem mem_references_iff (n : Node) {name : String} :
    name ∈ n.references false ↔ n.Names name := by
  have hparts : ∀ c ∈ n.children false, (name ∈ c.references false ↔ c.Names name) :=
    fun c _ => mem_references_iff c
  rw [references_eq, List.mem_append, Option.mem_toList, List.mem_flatMap, names_iff]
  refine or_congr Iff.rfl ⟨?_, ?_⟩
  · rintro ⟨c, hc, h⟩
    exact ⟨c, part_iff.mpr hc, (hparts c hc).mp h⟩
  · rintro ⟨c, hc, h⟩
    have hchild := part_iff.mp hc
    exact ⟨c, hchild, (hparts c hchild).mpr h⟩
termination_by n.size
decreasing_by exact size_lt_of_mem_children (by assumption)

end Node

/-! ## Looking for one name -/

/-- The search for a name finds it when it is outstanding: by induction along the names that are
handed out before it. -/
theorem RefCursor.seek_iff (name : String) (c : RefCursor) :
    (c.seek name).1 = true ↔ name ∈ c.outstanding := by
  fun_induction seek name c with
  | case1 c d h =>
      rw [outstanding_of_none h]
      exact ⟨nofun, nofun⟩
  | case2 c d h =>
      rw [outstanding_of_some h]
      exact ⟨fun _ => List.mem_cons_self, fun _ => rfl⟩
  | case3 c found d h hne ih =>
      rw [ih, outstanding_of_some h, List.mem_cons]
      exact ⟨Or.inr, fun hm => hm.resolve_left fun he => hne he.symm⟩

/-! ## The accounts of the names of a node -/

namespace Node

theorem mem_mentionedNames_iff {n : Node} {name : String} :
    name ∈ n.mentionedNames ↔ n.Names name := by
  rw [mentionedNames, OrderedSet.mem_toList_ofList, RefCursor.toList_ofNode, mem_references_iff]

theorem mentions_iff {n : Node} {name : String} : n.mentions name = true ↔ n.Names name := by
  rw [mentions, RefCursor.seek_iff, ← RefCursor.toList_eq, RefCursor.toList_ofNode,
    mem_references_iff]

/-- What collecting the names of a node, looking for one of them and walking through its references
have to do with each other and with what occurs in the node. -/
structure NamesAgree (n : Node) : Prop where
  nodup : n.mentionedNames.Nodup
  mem_iff_mentions : ∀ name, name ∈ n.mentionedNames ↔ n.mentions name = true
  mentions_iff_names : ∀ name, n.mentions name = true ↔ n.Names name
  /-- Names come in the order of their first places among the references. -/
  inOrder : n.mentionedNames.Pairwise fun a b =>
    (RefCursor.ofNode n).toList.idxOf a < (RefCursor.ofNode n).toList.idxOf b

theorem namesAgree (n : Node) : n.NamesAgree where
  nodup := OrderedSet.nodup_toList _
  mem_iff_mentions := fun _ => mem_mentionedNames_iff.trans mentions_iff.symm
  mentions_iff_names := fun _ => mentions_iff
  inOrder := OrderedSet.pairwise_ofList _

end Node
end TypeGraph
