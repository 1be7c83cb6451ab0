/-
# Function bodies only add names

A walk that looks into function bodies meets everything that it would meet otherwise, in the same
order, with more in between.  A body can stand at any depth, inside a scope inside another
expression.  The step from a node to its children says it all: looking into bodies adds at most one
child (`children_sublist`).  By induction on the size of the node, the names mentioned without
bodies are a sublist of those mentioned with them (`references_sublist`).
-/
import Mathlib.Data.List.Flatten
import TypeGraph.Proofs.Expr.Walk

namespace TypeGraph
namespace Node

theorem children_sublist (n : Node) : (n.children false).Sublist (n.children true) := by
  rcases n with e | d
  · cases e <;> exact .refl _
  · cases d with
    | var name value => exact .refl _
    | struct name fields => exact .refl _
    | function name parameters value => exact (List.Sublist.refl _).append (List.nil_sublist _)

theorem size_le_totalSize {c : Node} {l : List Node} (h : c ∈ l) : c.size ≤ totalSize l := by
  induction l with
  | nil => cases h
  | cons n rest ih =>
      rw [totalSize]
      rcases List.mem_cons.mp h with rfl | h
      · exact Nat.le_add_right _ _
      · exact Nat.le_add_left_of_le (ih h)

theorem size_lt_of_mem_children {bodies : Bool} {n c : Node} (h : c ∈ n.children bodies) :
    c.size < n.size :=
  Nat.lt_of_le_of_lt (size_le_totalSize h) (totalSize_children bodies n)

theorem references_sublist (n : Node) : (n.references false).Sublist (n.references true) := by
  have hchildren : ∀ c ∈ n.children true, (c.references false).Sublist (c.references true) :=
    fun c _ => references_sublist c
  have hbelow : ((n.children false).flatMap (references false)).Sublist
      ((n.children true).flatMap (references true)) :=
    ((children_sublist n).flatMap _).trans (List.Sublist.flatMap_right _ hchildren)
  rw [references_eq, references_eq]
  exact hbelow.append_left _
termination_by n.size
decreasing_by exact size_lt_of_mem_children (by assumption)

end Node
end TypeGraph
