/-
# Shapes of structs

The shape of a struct is its sequence of field names.  All structs of one name are meant to have
one shape; `Struct.sameShape` reports two that have not.
-/
import TypeGraph.Ty.Basic

namespace TypeGraph
namespace Struct

/-- The names of the fields, in order. -/
def fieldNames {α : Type} (s : Struct α) : List String := s.fields.map (·.name)

/-- Whether fields at the same place have the same name, up to the end of the shorter struct. -/
def sameNames {α : Type} (a b : Struct α) : Bool :=
  (a.fields.zip b.fields).all fun p => p.1.name == p.2.name

/-- Place by place or as a whole: between structs with as many fields it is the same comparison. -/
theorem sameNames_iff {α : Type} {a b : Struct α} (h : a.fields.length = b.fields.length) :
    a.sameNames b = true ↔ a.fieldNames = b.fieldNames := by
  rcases a with ⟨_, as, _⟩
  rcases b with ⟨_, bs, _⟩
  simp only [sameNames, fieldNames]
  induction as generalizing bs with
  | nil =>
    cases bs with
    | nil => exact ⟨fun _ => rfl, fun _ => rfl⟩
    | cons => cases h
  | cons f as ih =>
    cases bs with
    | nil => cases h
    | cons g bs =>
      rw [List.zip_cons_cons, List.all_cons, Bool.and_eq_true, beq_iff_eq,
        ih bs (Nat.succ.inj h), List.map_cons, List.map_cons, List.cons_eq_cons]

/-- Whether two structs have one name and one shape.  Structs of different names may differ; of one
name, their count of fields and then their field names must agree.  The types of the fields do not
matter. -/
def sameShape {α : Type} (a b : Struct α) : Except ShapeFault Bool :=
  if a.name ≠ b.name then .ok false
  else if a.fields.length ≠ b.fields.length then .error ⟨.fieldCount, a.name, a.key, b.key⟩
  else if !a.sameNames b then .error ⟨.fieldNames, a.name, a.key, b.key⟩
  else .ok true

/-- Whether two structs of a family with one shape per name are the same struct. -/
def sameStruct {α : Type} (a b : Struct α) : Except Breach Bool :=
  match a.sameShape b with
  | .ok answer => .ok answer
  | .error fault => .error (.shape fault)

end Struct
end TypeGraph
