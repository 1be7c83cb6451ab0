/-
# Reading records back

A record is read through its parts, which carry a bound on their size so that readers terminate.
Here the bounds are shown not to matter: a part under a key is what the key is bound to
(`read?_keyed`), and reading the elements of an array is reading the list (`read?_elements`).
With these, a reader is followed step by step through an object that was written for it.

Documents have no infinity and no NaN.  `Json.Finite` says that a document needs none.
-/
import TypeGraph.Json.Record

namespace TypeGraph

namespace Json

variable {α : Type}

theorem lookup_map_val {j : Json} (key : String) : ∀ parts : List (String × Part j),
    (parts.lookup key).map Subtype.val = (parts.map fun m => (m.1, m.2.val)).lookup key
  | [] => rfl
  | (name, p) :: rest => by
      rw [List.map_cons, List.lookup_cons, List.lookup_cons]
      cases key == name with
      | true => rfl
      | false => exact lookup_map_val key rest

def readElements (f : Json → Except ReadFault α) (j : Json) : Except ReadFault (List α) := do
  (← j.elements).mapM fun p => f p.val

theorem readElements_arr (f : Json → Except ReadFault α) (es : List Json) :
    readElements f (.arr es) = es.mapM f := by
  have h : (elementParts es).mapM (fun p => f p.val) = es.mapM f := by
    conv => rhs; rw [← elementParts_map_val es, List.mapM_map]
    rfl
  exact h

end Json

theorem Record.read?_keyed {α : Type} {members : List (String × Json)} {key : String} {j : Json}
    (hkey : members.lookup key = some j) {f : Json → Except ReadFault α} {a : α} (hf : f j = .ok a)
    (position : Nat) :
    (Record.keyed (Json.memberParts members)).read? position key (fun p => f p.val)
      = .ok (some a) := by
  have hval := Json.lookup_map_val key (Json.memberParts members)
  rw [Json.memberParts_map_val, hkey] at hval
  obtain ⟨p, hp, rfl⟩ := Option.map_eq_some_iff.mp hval
  simp only [read?, get?, hp, hf]
  rfl

theorem Record.read?_text {members : List (String × Json)} {key s : String}
    (hkey : members.lookup key = some (.str s)) (position : Nat) :
    (Record.keyed (Json.memberParts members)).read? position key (fun p => p.val.text)
      = .ok (some s) :=
  read?_keyed (f := Json.text) hkey rfl position

theorem Record.read?_elements {α : Type} {members : List (String × Json)} {key : String}
    {es : List Json} (hkey : members.lookup key = some (.arr es)) {f : Json → Except ReadFault α}
    {as : List α} (hf : es.mapM f = .ok as) (position : Nat) :
    (Record.keyed (Json.memberParts members)).read? position key
      (fun p => Json.readElements f p.val) = .ok (some as) :=
  read?_keyed hkey ((Json.readElements_arr f es).trans hf) position

/-! ## Documents without infinities -/

def Binary64.IsFinite (x : Binary64) : Prop :=
  ∃ negative m, x = .signed negative m ∧ m.isFinite = true

/-- Every number in the document is finite. -/
inductive Json.Finite : Json → Prop where
  | null : Finite .null
  | bool (b : Bool) : Finite (.bool b)
  | num {x : Binary64} (h : x.IsFinite) : Finite (.num x)
  | str (s : String) : Finite (.str s)
  | arr {elements : List Json} (h : ∀ j ∈ elements, Finite j) : Finite (.arr elements)
  | obj {members : List (String × Json)} (h : ∀ m ∈ members, Finite m.2) : Finite (.obj members)

theorem Json.finite_tagged (tag : String) {members : List (String × Json)}
    (h : ∀ m ∈ members, m.2.Finite) : (Json.obj (("type", .str tag) :: members)).Finite := by
  refine .obj fun m hm => ?_
  rcases List.mem_cons.mp hm with rfl | hm
  · exact .str tag
  · exact h m hm

end TypeGraph
