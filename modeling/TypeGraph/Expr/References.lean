/-
# References

The names that an expression or definition mentions, depth first and from left to right, with
repetition.  Two accounts are given: `Node.references`, by recursion on the syntax, and
`RefCursor`, which hands out one name at a time and can be told in the middle to look into
function bodies.
-/
import TypeGraph.Expr.Basic
import TypeGraph.OrderedSet

namespace TypeGraph

/-! ## By recursion -/

mutual

/-- The names mentioned in an expression; those in function bodies only if `bodies` is set. -/
def Expr.references (bodies : Bool) : Expr → List String
  | .literal _ => []
  | .named name fields => name :: Expr.fieldReferences bodies fields
  | .intersection items => Expr.itemReferences bodies items
  | .union items => Expr.itemReferences bodies items
  | .access of _ => of.references bodies
  | .call _ args => Expr.itemReferences bodies args
  | .matchOn of arms => of.references bodies ++ Expr.armReferences bodies arms
  | .scope definitions body =>
    Definition.listReferences bodies definitions ++ body.references bodies

/-- The names mentioned in a definition. -/
def Definition.references (bodies : Bool) : Definition → List String
  | .var _ value => value.references bodies
  | .struct _ fields => Expr.fieldReferences bodies fields
  | .function _ parameters value =>
    Expr.fieldReferences bodies parameters ++ if bodies then value.references bodies else []

def Expr.fieldReferences (bodies : Bool) : List (Field Expr) → List String
  | [] => []
  | ⟨_, e⟩ :: rest => e.references bodies ++ Expr.fieldReferences bodies rest

def Expr.itemReferences (bodies : Bool) : List Expr → List String
  | [] => []
  | e :: rest => e.references bodies ++ Expr.itemReferences bodies rest

def Expr.armReferences (bodies : Bool) : List (Arm Expr) → List String
  | [] => []
  | ⟨pattern, _, result⟩ :: rest =>
    pattern.references bodies ++ (result.references bodies ++ Expr.armReferences bodies rest)

def Definition.listReferences (bodies : Bool) : List Definition → List String
  | [] => []
  | d :: rest => d.references bodies ++ Definition.listReferences bodies rest

end

/-- The names mentioned in a node. -/
def Node.references (bodies : Bool) : Node → List String
  | .expr e => e.references bodies
  | .definition d => d.references bodies

/-! ## One name at a time -/

namespace Node

/-- The name that a node itself mentions. -/
def mention? : Node → Option String
  | .expr (.named name _) => some name
  | _ => none

/-- The two parts of an arm that are looked into. -/
def ofArm (arm : Arm Expr) : List Node := [.expr arm.pattern, .expr arm.result]

/-- The nodes right below a node, in order. -/
def children (bodies : Bool) : Node → List Node
  | .expr (.literal _) => []
  | .expr (.named _ fields) => fields.map fun f => .expr f.value
  | .expr (.intersection items) => items.map .expr
  | .expr (.union items) => items.map .expr
  | .expr (.access of _) => [.expr of]
  | .expr (.call _ args) => args.map .expr
  | .expr (.matchOn of arms) => .expr of :: arms.flatMap ofArm
  | .expr (.scope definitions body) => definitions.map .definition ++ [.expr body]
  | .definition (.var _ value) => [.expr value]
  | .definition (.struct _ fields) => fields.map fun f => .expr f.value
  | .definition (.function _ parameters value) =>
    parameters.map (fun p => .expr p.value) ++ if bodies then [.expr value] else []

/-- Pushes nodes on a stack from the last one to the first, which comes to lie on top. -/
def pushAll (nodes stack : List Node) : List Node := nodes.reverse.foldl (fun s n => n :: s) stack

/-- Pushes the two parts of an arm, the pattern on top. -/
def pushArm (stack : List Node) (arm : Arm Expr) : List Node :=
  .expr arm.pattern :: .expr arm.result :: stack

/-- Pushes what is right below a node on a stack, what comes first in the node last. -/
def pushChildren (bodies : Bool) (stack : List Node) : Node → List Node
  | .expr (.literal _) => stack
  | .expr (.named _ fields) => pushAll (fields.map fun f => .expr f.value) stack
  | .expr (.intersection items) => pushAll (items.map .expr) stack
  | .expr (.union items) => pushAll (items.map .expr) stack
  | .expr (.access of _) => .expr of :: stack
  | .expr (.call _ args) => pushAll (args.map .expr) stack
  | .expr (.matchOn of arms) => .expr of :: arms.reverse.foldl pushArm stack
  | .expr (.scope definitions body) => pushAll (definitions.map .definition) (.expr body :: stack)
  | .definition (.var _ value) => .expr value :: stack
  | .definition (.struct _ fields) => pushAll (fields.map fun f => .expr f.value) stack
  | .definition (.function _ parameters value) =>
    pushAll (parameters.map fun p => .expr p.value) (if bodies then .expr value :: stack else stack)

theorem pushAll_eq (nodes stack : List Node) : pushAll nodes stack = nodes ++ stack := by
  rw [pushAll, List.foldl_reverse]
  exact List.foldr_cons_eq_append'

theorem foldl_pushArm (arms : List (Arm Expr)) (stack : List Node) :
    arms.reverse.foldl pushArm stack = arms.flatMap ofArm ++ stack := by
  rw [List.foldl_reverse]
  induction arms with
  | nil => rfl
  | cons arm rest ih => rw [List.foldr_cons, ih, List.flatMap_cons, List.append_assoc]; rfl

/-- Pushed in reverse, the children lie on the stack in order: one case per form. -/
theorem pushChildren_eq (bodies : Bool) (stack : List Node) (n : Node) :
    n.pushChildren bodies stack = n.children bodies ++ stack := by
  match n with
  | .expr (.literal _) => rfl
  | .expr (.named _ fields) => exact pushAll_eq ..
  | .expr (.intersection items) => exact pushAll_eq ..
  | .expr (.union items) => exact pushAll_eq ..
  | .expr (.access _ _) => rfl
  | .expr (.call _ args) => exact pushAll_eq ..
  | .expr (.matchOn _ arms) => rw [pushChildren, foldl_pushArm]; rfl
  | .expr (.scope definitions _) =>
      rw [pushChildren, pushAll_eq, children, List.append_assoc]
      rfl
  | .definition (.var _ _) => rfl
  | .definition (.struct _ fields) => exact pushAll_eq ..
  | .definition (.function _ parameters _) =>
      rw [pushChildren, pushAll_eq, children, List.append_assoc]
      cases bodies <;> rfl

/-- The size of a list of nodes. -/
def totalSize : List Node → Nat
  | [] => 0
  | n :: rest => n.size + totalSize rest

theorem totalSize_append (as bs : List Node) :
    totalSize (as ++ bs) = totalSize as + totalSize bs := by
  induction as with
  | nil => exact (Nat.zero_add _).symm
  | cons n rest ih => rw [List.cons_append, totalSize, totalSize, ih, Nat.add_assoc]

theorem totalSize_items (items : List Expr) :
    totalSize (items.map .expr) = Expr.itemsSize items := by
  induction items with
  | nil => rfl
  | cons e rest ih => rw [List.map_cons, totalSize, ih]; rfl

theorem totalSize_fields (fields : List (Field Expr)) :
    totalSize (fields.map fun f => .expr f.value) = Expr.fieldsSize fields := by
  induction fields with
  | nil => rfl
  | cons f rest ih => rw [List.map_cons, totalSize, ih]; rfl

theorem totalSize_definitions (definitions : List Definition) :
    totalSize (definitions.map .definition) = Definition.listSize definitions := by
  induction definitions with
  | nil => rfl
  | cons d rest ih => rw [List.map_cons, totalSize, ih]; rfl

theorem totalSize_arms (arms : List (Arm Expr)) :
    totalSize (arms.flatMap ofArm) = Expr.armsSize arms := by
  induction arms with
  | nil => rfl
  | cons a rest ih =>
    rw [List.flatMap_cons, totalSize_append, ih]
    show a.pattern.size + (a.result.size + 0) + _ = a.pattern.size + a.result.size + _
    rfl

/-- The nodes below a node are smaller than the node. -/
theorem totalSize_children (bodies : Bool) (n : Node) :
    totalSize (n.children bodies) < n.size := by
  rcases n with e | d
  · cases e <;>
      simp only [children, size, Expr.size, totalSize_items, totalSize_fields,
        totalSize_definitions, totalSize_arms, totalSize, totalSize_append] <;> omega
  · cases d <;> cases bodies <;>
      simp only [children, size, Definition.size, totalSize_fields, totalSize, totalSize_append,
        if_true, if_false, Bool.false_eq_true] <;> omega

end Node

/-- A walk through nodes that is still going on. -/
structure RefCursor where
  /-- The nodes to be looked at, the next one first. -/
  pending : List Node
  /-- Whether functions met from here on are looked into. -/
  bodies : Bool

namespace RefCursor

/-- The walk through a node, function bodies left out. -/
def ofNode (n : Node) : RefCursor := ⟨[n], false⟩

/-- The same walk, looking into the bodies of functions that it has not met yet. -/
def withBodies (c : RefCursor) : RefCursor := { c with bodies := true }

/-- The size of what is still to be looked at. -/
def remaining (c : RefCursor) : Nat := Node.totalSize c.pending

/-- Looks at the next node: its children take its place. -/
def expand (c : RefCursor) (n : Node) (rest : List Node) : RefCursor :=
  { c with pending := n.pushChildren c.bodies rest }

theorem pending_expand (c : RefCursor) (n : Node) (rest : List Node) :
    (c.expand n rest).pending = n.children c.bodies ++ rest := Node.pushChildren_eq ..

theorem remaining_expand (c : RefCursor) (n : Node) (rest : List Node) :
    (c.expand n rest).remaining < Node.totalSize (n :: rest) := by
  have := Node.totalSize_children c.bodies n
  simp only [remaining, pending_expand, Node.totalSize, Node.totalSize_append]
  omega

/-- The next name, if there is one, and the walk after it.  Nodes that mention nothing themselves
are passed over. -/
def next (c : RefCursor) : Option String × RefCursor :=
  match _h : c.pending with
  | [] => (none, c)
  | n :: rest =>
    match n.mention? with
    | some name => (some name, c.expand n rest)
    | none => (c.expand n rest).next
termination_by c.remaining
decreasing_by
  have := c.remaining_expand n rest
  simp only [remaining, _h] at this ⊢
  exact this

/-- Handing out a name leaves less to look at. -/
theorem remaining_next (c : RefCursor) {name : String} {d : RefCursor}
    (h : c.next = (some name, d)) : d.remaining < c.remaining := by
  fun_induction next c with
  | case1 => simp at h
  | case2 c n rest hp name' hm =>
    have := c.remaining_expand n rest
    simp only [Option.some.injEq, Prod.mk.injEq] at h
    rw [← h.2]
    simpa only [remaining, hp] using this
  | case3 c n rest hp hm ih =>
    have := c.remaining_expand n rest
    have := ih h
    simp only [remaining, hp] at *
    omega

/-- All names that are still to come, and the walk after them. -/
def drain (c : RefCursor) : List String × RefCursor :=
  match _h : c.next with
  | (none, d) => ([], d)
  | (some name, d) =>
    let (names, after) := d.drain
    (name :: names, after)
termination_by c.remaining
decreasing_by exact c.remaining_next _h

/-- All names that are still to come. -/
def toList (c : RefCursor) : List String := c.drain.1

/-- The next names, at most `n` of them, and the walk after them. -/
def take : Nat → RefCursor → List String × RefCursor
  | 0, c => ([], c)
  | n + 1, c =>
    match c.next with
    | (none, d) => ([], d)
    | (some name, d) =>
      let (names, after) := take n d
      (name :: names, after)

/-- Walks until right after the first mention of a name, or to the end. -/
def seek (name : String) (c : RefCursor) : Bool × RefCursor :=
  match _h : c.next with
  | (none, d) => (false, d)
  | (some found, d) => if found = name then (true, d) else d.seek name
termination_by c.remaining
decreasing_by exact c.remaining_next _h

end RefCursor

namespace Node

/-- The distinct names mentioned in a node, in order of first mention. -/
def mentionedNames (n : Node) : List String :=
  (OrderedSet.ofList (RefCursor.ofNode n).toList).toList

/-- Whether a node mentions a name. -/
def mentions (n : Node) (name : String) : Bool := ((RefCursor.ofNode n).seek name).1

end Node
end TypeGraph
