/-
# Looking into bodies from the middle of a walk

A walk can be told at any moment to look into function bodies.  From then on it looks into every
function that it meets, and it does not go back to those that it has met.  Which bodies are still to
come depends on how far the last call went: on its way to a name it passes over nodes that mention
nothing themselves, and functions among them are met without any sign.

So the later a walk is told, the fewer names it hands out.  What holds for the look at one node
(`outstanding_expand_withBodies`) holds for a call (`sublist_of_next`) and then, by induction on the
calls before the switch, for the whole sequence (`switched_succ_sublist`).  The sequences go from the
one with all bodies down to the one without bodies (`switched_narrowsDown`).
-/
import TypeGraph.Proofs.Expr.Bodies

namespace TypeGraph

namespace RefCursor

/-- The names handed out by a walk that is told after `k` calls to look into function bodies. -/
def switched (c : RefCursor) (k : Nat) : List String :=
  let (names, after) := c.take k
  names ++ after.withBodies.toList

/-! ## One call -/

/-- Looking at the top node before the switch can lose names of its children and nothing else. -/
theorem outstanding_expand_withBodies {c : RefCursor} {n : Node} {rest : List Node}
    (h : c.pending = n :: rest) :
    (n.mention?.toList ++ (c.expand n rest).withBodies.outstanding).Sublist
      c.withBodies.outstanding := by
  have hchildren : (n.children c.bodies).Sublist (n.children true) := by
    cases c.bodies with
    | false => exact n.children_sublist
    | true => exact .refl _
  have htop : c.withBodies.outstanding = n.mention?.toList ++
      (c.withBodies.expand n rest).outstanding := outstanding_expand h
  rw [htop, outstanding, outstanding, withBodies, pending_expand, pending_expand]
  exact ((hchildren.append_right rest).flatMap _).append_left _

/-- A name that is handed out before the switch is not lost: by induction along the nodes that are
passed over on the way to it. -/
theorem sublist_of_next {c d : RefCursor} {name : String} (h : c.next = (some name, d)) :
    (name :: d.withBodies.outstanding).Sublist c.withBodies.outstanding := by
  fun_induction next c with
  | case1 => cases h
  | case2 c n rest hp found hfound =>
      cases h
      have hexpand := outstanding_expand_withBodies hp
      rwa [hfound] at hexpand
  | case3 c n rest hp hnone ih =>
      have hexpand := outstanding_expand_withBodies hp
      rw [hnone] at hexpand
      exact (ih h).trans hexpand

theorem outstanding_sublist_withBodies (c : RefCursor) :
    c.outstanding.Sublist c.withBodies.outstanding := by
  refine List.Sublist.flatMap_right _ fun n _ => ?_
  cases c.bodies with
  | false => exact n.references_sublist
  | true => exact .refl _

/-! ## Calls before the switch -/

theorem switched_eq (c : RefCursor) (k : Nat) :
    c.switched k = (c.take k).1 ++ (c.take k).2.withBodies.outstanding := by
  rw [← toList_eq]
  rfl

theorem switched_zero (c : RefCursor) : c.switched 0 = c.withBodies.outstanding := switched_eq c 0

theorem switched_of_none {c d : RefCursor} (h : c.next = (none, d)) (k : Nat) :
    c.switched (k + 1) = [] := by
  rw [switched_eq, take, h, eq_of_next_none h]
  rfl

theorem switched_of_some {c d : RefCursor} {name : String} (h : c.next = (some name, d)) (k : Nat) :
    c.switched (k + 1) = name :: d.switched k := by
  rw [switched_eq, switched_eq, take, h]
  rfl

theorem switched_succ_sublist (c : RefCursor) (k : Nat) :
    (c.switched (k + 1)).Sublist (c.switched k) := by
  induction k generalizing c with
  | zero =>
      rw [switched_zero]
      rcases h : c.next with ⟨_ | name, d⟩
      · rw [switched_of_none h]; exact List.nil_sublist _
      · rw [switched_of_some h, switched_zero]; exact sublist_of_next h
  | succ k ih =>
      rcases h : c.next with ⟨_ | name, d⟩
      · rw [switched_of_none h]; exact List.nil_sublist _
      · rw [switched_of_some h, switched_of_some h]
        exact (ih _).cons_cons _

theorem outstanding_sublist_switched (c : RefCursor) (k : Nat) :
    c.outstanding.Sublist (c.switched k) := by
  induction k generalizing c with
  | zero => rw [switched_zero]; exact c.outstanding_sublist_withBodies
  | succ k ih =>
      rcases h : c.next with ⟨_ | name, d⟩
      · rw [outstanding_of_none h]; exact List.nil_sublist _
      · rw [outstanding_of_some h, switched_of_some h]
        exact (ih _).cons_cons _

theorem take_switched (c : RefCursor) (k : Nat) :
    (c.switched k).take k = c.outstanding.take k := by
  induction k generalizing c with
  | zero => rw [List.take_zero, List.take_zero]
  | succ k ih =>
      rcases h : c.next with ⟨_ | name, d⟩
      · rw [outstanding_of_none h, switched_of_none h]
      · rw [outstanding_of_some h, switched_of_some h, List.take_succ_cons, List.take_succ_cons, ih]

/-- A walk that has come to its end has nothing left to look into. -/
theorem switched_of_length_lt {c : RefCursor} {k : Nat} (hk : c.outstanding.length < k) :
    c.switched k = c.outstanding := by
  induction k generalizing c with
  | zero => exact absurd hk (Nat.not_lt_zero _)
  | succ k ih =>
      rcases h : c.next with ⟨_ | name, d⟩
      · rw [outstanding_of_none h, switched_of_none h]
      · rw [outstanding_of_some h] at hk ⊢
        rw [switched_of_some h, ih (Nat.lt_of_succ_lt_succ hk)]

end RefCursor

/-! ## All moments of the switch -/

/-- The sequences go from `full` down to `plain` as the switch comes later. -/
structure NarrowsDown (full plain : List String) (switchedAt : Nat → List String) : Prop where
  first : switchedAt 0 = full
  /-- A later switch loses names and changes no order. -/
  fewer : ∀ k, (switchedAt (k + 1)).Sublist (switchedAt k)
  /-- No switch loses a name of the plain sequence. -/
  keeps : ∀ k, plain.Sublist (switchedAt k)
  /-- Up to the switch the names are those of the plain sequence. -/
  agrees : ∀ k, (switchedAt k).take k = plain.take k
  /-- Behind the end a switch has no effect. -/
  last : ∀ k, plain.length < k → switchedAt k = plain

namespace RefCursor

/-- Whenever the walk through a node is told to look into function bodies, it hands out something
between all names of the node and those outside of bodies, and the less the later it is told. -/
theorem switched_narrowsDown (n : Node) :
    NarrowsDown (ofNode n).withBodies.toList (ofNode n).toList (ofNode n).switched ∧
      (ofNode n).withBodies.toList = n.references true ∧
      (ofNode n).toList = n.references false := by
  refine ⟨⟨rfl, switched_succ_sublist _, ?_, ?_, ?_⟩, toList_withBodies_ofNode n, toList_ofNode n⟩
  · rw [toList_eq]
    exact outstanding_sublist_switched _
  · rw [toList_eq]
    exact take_switched _
  · rw [toList_eq]
    exact fun k hk => switched_of_length_lt hk

def localFunction : Node :=
  .expr (.union [.bare "A", .scope [.function "f" [⟨"p", .bare "B"⟩] (.bare "C")] (.bare "D")])

/-- The second call meets the function on its way to `B`, and then the `C` of the body is lost. -/
theorem switched_narrowsDown_localFunction :
    (ofNode localFunction).switched 1 = ["A", "B", "C", "D"] ∧
    (ofNode localFunction).switched 2 = ["A", "B", "D"] ∧
    (ofNode localFunction).toList.length < 4 ∧
    (ofNode localFunction).switched 4 = (ofNode localFunction).toList := by
  have hshort : (ofNode localFunction).toList.length < 4 := by rw [toList_eq]; cbv
  refine ⟨?_, ?_, hshort, (switched_narrowsDown localFunction).1.last 4 hshort⟩
  · rw [switched_eq]; decide +kernel
  · rw [switched_eq]; decide +kernel

end RefCursor
end TypeGraph
