/-
# The walk hands out the references

A walk keeps a stack of nodes to look at and replaces the top one by its children.  The recursion
on syntax knows no stack.  They agree because a node's references are its own mention followed by
the references of its children (`references_eq`), so that looking at the top node moves at most one
name out of what the pending nodes hold together (`outstanding`).

From there, one call for the next name takes one name off the outstanding ones (`next_spec`), and
the answers to any number of calls are the outstanding names in order and nothing after them
(`answer_eq`).
-/
import TypeGraph.Expr.References

namespace TypeGraph

/-! ## A node and its children -/

namespace Node

variable (bodies : Bool)

theorem references_items (items : List Expr) :
    (items.map Node.expr).flatMap (references bodies) = Expr.itemReferences bodies items := by
  induction items with
  | nil => rw [Expr.itemReferences]; rfl
  | cons e rest ih => rw [List.map_cons, List.flatMap_cons, ih, Expr.itemReferences]; rfl

theorem references_fields (fields : List (Field Expr)) :
    (fields.map fun f => Node.expr f.value).flatMap (references bodies)
      = Expr.fieldReferences bodies fields := by
  induction fields with
  | nil => rw [Expr.fieldReferences]; rfl
  | cons f rest ih => rw [List.map_cons, List.flatMap_cons, ih, Expr.fieldReferences]; rfl

theorem references_definitions (definitions : List Definition) :
    (definitions.map Node.definition).flatMap (references bodies)
      = Definition.listReferences bodies definitions := by
  induction definitions with
  | nil => rw [Definition.listReferences]; rfl
  | cons d rest ih => rw [List.map_cons, List.flatMap_cons, ih, Definition.listReferences]; rfl

theorem references_arms (arms : List (Arm Expr)) :
    (arms.flatMap ofArm).flatMap (references bodies) = Expr.armReferences bodies arms := by
  induction arms with
  | nil => rw [Expr.armReferences]; rfl
  | cons arm rest ih =>
      rw [List.flatMap_cons, List.flatMap_append, ih, Expr.armReferences, ← List.append_assoc]
      simp only [ofArm, List.flatMap_cons, List.flatMap_nil, List.append_nil, references]

/-- What a node mentions is its own mention and then what its children mention: one case per form
of expression and definition. -/
theorem references_eq (n : Node) :
    n.references bodies = n.mention?.toList ++ (n.children bodies).flatMap (references bodies) := by
  match n with
  | .expr (.literal _) => simp only [references, Expr.references]; rfl
  | .expr (.named name fields) =>
      rw [children, references_fields, references, Expr.references]
      rfl
  | .expr (.intersection items) =>
      rw [children, references_items, references, Expr.references]
      rfl
  | .expr (.union items) =>
      rw [children, references_items, references, Expr.references]
      rfl
  | .expr (.access e _) =>
      rw [references, Expr.references]
      exact (List.append_nil _).symm
  | .expr (.call _ args) =>
      rw [children, references_items, references, Expr.references]
      rfl
  | .expr (.matchOn e arms) =>
      rw [children, List.flatMap_cons, references_arms, references, Expr.references]
      rfl
  | .expr (.scope definitions body) =>
      rw [children, List.flatMap_append, references_definitions, references, Expr.references,
        List.flatMap_singleton]
      rfl
  | .definition (.var _ value) =>
      rw [references, Definition.references]
      exact (List.append_nil _).symm
  | .definition (.struct _ fields) =>
      rw [children, references_fields, references, Definition.references]
      rfl
  | .definition (.function _ parameters value) =>
      rw [children, List.flatMap_append, references_fields, references, Definition.references]
      cases bodies with
      | false => rfl
      | true => rw [if_pos rfl, if_pos rfl, List.flatMap_singleton]; rfl

end Node

namespace RefCursor

/-! ## One call -/

/-- The names that a walk has still to hand out: those of its pending nodes, the top one first. -/
def outstanding (c : RefCursor) : List String := c.pending.flatMap (Node.references c.bodies)

theorem outstanding_expand {c : RefCursor} {n : Node} {rest : List Node} (h : c.pending = n :: rest) :
    c.outstanding = n.mention?.toList ++ (c.expand n rest).outstanding := by
  rw [outstanding, h, List.flatMap_cons, Node.references_eq, List.append_assoc, outstanding,
    pending_expand, List.flatMap_append]
  rfl

theorem outstanding_next (c : RefCursor) :
    c.outstanding = c.next.1.toList ++ c.next.2.outstanding := by
  -- along the nodes that are passed over because they mention nothing themselves
  fun_induction next c with
  | case1 c h => rfl
  | case2 c n rest h name hname => rw [outstanding_expand h, hname]
  | case3 c n rest h hnone ih => rw [outstanding_expand h, hnone]; exact ih

theorem eq_of_next_none {c d : RefCursor} (h : c.next = (none, d)) :
    d = { c with pending := [] } := by
  fun_induction next c with
  | case1 c hp => cases h; rw [← hp]
  | case2 => cases h
  | case3 c n rest hp hnone ih => exact ih h

theorem outstanding_of_none {c d : RefCursor} (h : c.next = (none, d)) : c.outstanding = [] := by
  rw [outstanding_next, h, eq_of_next_none h]
  rfl

theorem outstanding_of_some {c d : RefCursor} {name : String} (h : c.next = (some name, d)) :
    c.outstanding = name :: d.outstanding := by
  rw [outstanding_next, h]
  rfl

/-- A call answers with the first outstanding name, if there is one, and leaves the others. -/
theorem next_spec (c : RefCursor) :
    c.next.1 = c.outstanding.head? ∧ c.next.2.outstanding = c.outstanding.tail := by
  rcases h : c.next with ⟨_ | name, d⟩
  · rw [outstanding_of_none h, eq_of_next_none h]
    exact ⟨rfl, rfl⟩
  · rw [outstanding_of_some h]
    exact ⟨rfl, rfl⟩

/-! ## All calls -/

/-- The answer to a call that comes after `k` earlier ones. -/
def answer : Nat → RefCursor → Option String
  | 0, c => c.next.1
  | k + 1, c => answer k c.next.2

theorem answer_eq (k : Nat) (c : RefCursor) : answer k c = c.outstanding[k]? := by
  induction k generalizing c with
  | zero => rw [answer, c.next_spec.1, List.head?_eq_getElem?]
  | succ k ih => rw [answer, ih, c.next_spec.2, List.getElem?_tail]

theorem toList_eq (c : RefCursor) : c.toList = c.outstanding := by
  rw [toList]
  fun_induction drain c with
  | case1 c d h => exact (outstanding_of_none h).symm
  | case2 c name d h names after hdrain ih =>
      rw [outstanding_of_some h, ← ih, hdrain]

theorem toList_ofNode (n : Node) : (ofNode n).toList = n.references false := by
  rw [toList_eq]
  exact List.flatMap_singleton ..

theorem toList_withBodies_ofNode (n : Node) : (ofNode n).withBodies.toList = n.references true := by
  rw [toList_eq]
  exact List.flatMap_singleton ..

/-- From any stack of pending nodes, call after call answers with the references of these nodes,
from top to bottom, and with nothing ever after; and the walk through a node lists the references
of the node, those in function bodies if it was told to look there. -/
theorem calls_answer_references (pending : List Node) (bodies : Bool) :
    (∀ k, answer k ⟨pending, bodies⟩ = (pending.flatMap (Node.references bodies))[k]?) ∧
    (⟨pending, bodies⟩ : RefCursor).toList = pending.flatMap (Node.references bodies) ∧
    ∀ n : Node, (ofNode n).toList = n.references false ∧
      (ofNode n).withBodies.toList = n.references true :=
  ⟨fun k => answer_eq k ⟨pending, bodies⟩, toList_eq ⟨pending, bodies⟩,
    fun n => ⟨toList_ofNode n, toList_withBodies_ofNode n⟩⟩

end RefCursor
end TypeGraph
