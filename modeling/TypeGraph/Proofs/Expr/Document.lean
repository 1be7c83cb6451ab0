/-
# Expressions survive their documents

An expression is written as a tree of records, with the document of a type in the place of every
literal, and a definition likewise.  Reading undoes writing (`Expr.ofJson_toJson`,
`Definition.ofJson_toJson`): one case per form of node and one lemma per kind of list below it, each
of which follows the reader through the record that was written for it.

Only literals need a hypothesis.  The reader builds the type of a literal anew, and what it builds
is the type that was written only if that one was well formed.  The same hypothesis keeps infinities
out of the document (`Expr.finite_toJson`).
-/
import TypeGraph.Expr.Document
import TypeGraph.Proofs.Ty.Document

namespace TypeGraph

/-! ## Literals -/

mutual

/-- The types embedded in an expression, in order. -/
def Expr.literals : Expr → List Ty
  | .literal value => [value]
  | .named _ fields => Expr.fieldLiterals fields
  | .intersection items => Expr.itemLiterals items
  | .union items => Expr.itemLiterals items
  | .access of _ => of.literals
  | .call _ args => Expr.itemLiterals args
  | .matchOn of arms => of.literals ++ Expr.armLiterals arms
  | .scope definitions body => Definition.listLiterals definitions ++ body.literals

def Definition.literals : Definition → List Ty
  | .var _ value => value.literals
  | .struct _ fields => Expr.fieldLiterals fields
  | .function _ parameters value => Expr.fieldLiterals parameters ++ value.literals

def Expr.fieldLiterals : List (Field Expr) → List Ty
  | [] => []
  | ⟨_, e⟩ :: rest => e.literals ++ Expr.fieldLiterals rest

def Expr.itemLiterals : List Expr → List Ty
  | [] => []
  | e :: rest => e.literals ++ Expr.itemLiterals rest

def Expr.armLiterals : List (Arm Expr) → List Ty
  | [] => []
  | ⟨pattern, _, result⟩ :: rest =>
    pattern.literals ++ (result.literals ++ Expr.armLiterals rest)

def Definition.listLiterals : List Definition → List Ty
  | [] => []
  | d :: rest => d.literals ++ Definition.listLiterals rest

end

/-! ## Reading what was written -/

theorem optionalText_bindingDocument (b : Option String) :
    (bindingDocument b).optionalText = .ok b := by
  cases b with
  | none => rfl
  | some name => rfl

mutual

theorem Expr.ofJson_toJson : ∀ e : Expr, (∀ t ∈ e.literals, t.WellFormed) →
    Expr.ofJson e.toJson = .ok e
  | .literal value, h => by
      rw [Expr.literals] at h
      have hvalue := (List.forall_mem_singleton.mp h).ofJson_toJson
      rw [Expr.toJson, Expr.ofJson]
      refine bind_eq_ok rfl ?_
      exact bind_eq_ok (Record.read?_keyed rfl hvalue 0) rfl
  | .named name fields, h => by
      rw [Expr.literals] at h
      have hfields := Expr.fieldsOfJson_toJson fields h
      rw [Expr.toJson, Expr.ofJson]
      refine bind_eq_ok rfl ?_
      refine bind_eq_ok (Record.read?_text rfl 0) ?_
      exact bind_eq_ok (Record.read?_elements rfl hfields 1) rfl
  | .intersection items, h => by
      rw [Expr.literals] at h
      have hitems := Expr.itemsOfJson_toJson items h
      rw [Expr.toJson, Expr.ofJson]
      refine bind_eq_ok rfl ?_
      exact bind_eq_ok (Record.read?_elements rfl hitems 0) rfl
  | .union items, h => by
      rw [Expr.literals] at h
      have hitems := Expr.itemsOfJson_toJson items h
      rw [Expr.toJson, Expr.ofJson]
      refine bind_eq_ok rfl ?_
      exact bind_eq_ok (Record.read?_elements rfl hitems 0) rfl
  | .access of field, h => by
      rw [Expr.literals] at h
      have hof := Expr.ofJson_toJson of h
      rw [Expr.toJson, Expr.ofJson]
      refine bind_eq_ok rfl ?_
      refine bind_eq_ok (Record.read?_keyed rfl hof 0) ?_
      exact bind_eq_ok (Record.read?_text rfl 1) rfl
  | .call function args, h => by
      rw [Expr.literals] at h
      have hargs := Expr.itemsOfJson_toJson args h
      rw [Expr.toJson, Expr.ofJson]
      refine bind_eq_ok rfl ?_
      refine bind_eq_ok (Record.read?_text rfl 0) ?_
      exact bind_eq_ok (Record.read?_elements rfl hargs 1) rfl
  | .matchOn of arms, h => by
      rw [Expr.literals] at h
      obtain ⟨hof, harms⟩ := List.forall_mem_append.mp h
      have hof := Expr.ofJson_toJson of hof
      have harms := Expr.armsOfJson_toJson arms harms
      rw [Expr.toJson, Expr.ofJson]
      refine bind_eq_ok rfl ?_
      refine bind_eq_ok (Record.read?_keyed rfl hof 0) ?_
      exact bind_eq_ok (Record.read?_elements rfl harms 1) rfl
  | .scope definitions body, h => by
      rw [Expr.literals] at h
      obtain ⟨hdefinitions, hbody⟩ := List.forall_mem_append.mp h
      have hdefinitions := Definition.listOfJson_toJson definitions hdefinitions
      have hbody := Expr.ofJson_toJson body hbody
      rw [Expr.toJson, Expr.ofJson]
      refine bind_eq_ok rfl ?_
      refine bind_eq_ok (Record.read?_elements rfl hdefinitions 0) ?_
      exact bind_eq_ok (Record.read?_keyed rfl hbody 1) rfl

theorem Definition.ofJson_toJson : ∀ d : Definition, (∀ t ∈ d.literals, t.WellFormed) →
    Definition.ofJson d.toJson = .ok d
  | .var name value, h => by
      rw [Definition.literals] at h
      have hvalue := Expr.ofJson_toJson value h
      rw [Definition.toJson, Definition.ofJson]
      refine bind_eq_ok rfl ?_
      refine bind_eq_ok (Record.read?_text rfl 0) ?_
      exact bind_eq_ok (Record.read?_keyed rfl hvalue 1) rfl
  | .struct name fields, h => by
      rw [Definition.literals] at h
      have hfields := Expr.fieldsOfJson_toJson fields h
      rw [Definition.toJson, Definition.ofJson]
      refine bind_eq_ok rfl ?_
      refine bind_eq_ok (Record.read?_text rfl 0) ?_
      exact bind_eq_ok (Record.read?_elements rfl hfields 1) rfl
  | .function name parameters value, h => by
      rw [Definition.literals] at h
      obtain ⟨hparameters, hvalue⟩ := List.forall_mem_append.mp h
      have hparameters := Expr.fieldsOfJson_toJson parameters hparameters
      have hvalue := Expr.ofJson_toJson value hvalue
      rw [Definition.toJson, Definition.ofJson]
      refine bind_eq_ok rfl ?_
      refine bind_eq_ok (Record.read?_text rfl 0) ?_
      refine bind_eq_ok (Record.read?_elements rfl hparameters 1) ?_
      exact bind_eq_ok (Record.read?_keyed rfl hvalue 2) rfl

theorem Expr.fieldsOfJson_toJson : ∀ fields : List (Field Expr),
    (∀ t ∈ Expr.fieldLiterals fields, t.WellFormed) →
    (Expr.fieldsToJson fields).mapM Expr.fieldOfJson = .ok fields
  | [], _ => by rw [Expr.fieldsToJson]; rfl
  | ⟨name, e⟩ :: rest, h => by
      rw [Expr.fieldLiterals] at h
      obtain ⟨he, hrest⟩ := List.forall_mem_append.mp h
      have he := Expr.ofJson_toJson e he
      -- here `type` is a key like any other, though the value under it has a tag of that name
      have hfield : Expr.fieldOfJson (.obj [("name", .str name), ("type", e.toJson)])
          = .ok ⟨name, e⟩ := by
        rw [Expr.fieldOfJson]
        refine bind_eq_ok rfl ?_
        refine bind_eq_ok (Record.read?_text rfl 0) ?_
        exact bind_eq_ok (Record.read?_keyed rfl he 1) rfl
      rw [Expr.fieldsToJson, List.mapM_cons]
      exact bind_eq_ok hfield (bind_eq_ok (Expr.fieldsOfJson_toJson rest hrest) rfl)

theorem Expr.itemsOfJson_toJson : ∀ items : List Expr,
    (∀ t ∈ Expr.itemLiterals items, t.WellFormed) →
    (Expr.itemsToJson items).mapM Expr.ofJson = .ok items
  | [], _ => by rw [Expr.itemsToJson]; rfl
  | e :: rest, h => by
      rw [Expr.itemLiterals] at h
      obtain ⟨he, hrest⟩ := List.forall_mem_append.mp h
      have he := Expr.ofJson_toJson e he
      rw [Expr.itemsToJson, List.mapM_cons]
      exact bind_eq_ok he (bind_eq_ok (Expr.itemsOfJson_toJson rest hrest) rfl)

theorem Expr.armsOfJson_toJson : ∀ arms : List (Arm Expr),
    (∀ t ∈ Expr.armLiterals arms, t.WellFormed) →
    (Expr.armsToJson arms).mapM Expr.armOfJson = .ok arms
  | [], _ => by rw [Expr.armsToJson]; rfl
  | ⟨pattern, binding, result⟩ :: rest, h => by
      rw [Expr.armLiterals] at h
      obtain ⟨hpattern, h⟩ := List.forall_mem_append.mp h
      obtain ⟨hresult, hrest⟩ := List.forall_mem_append.mp h
      have hpattern := Expr.ofJson_toJson pattern hpattern
      have hbinding := optionalText_bindingDocument binding
      have hresult := Expr.ofJson_toJson result hresult
      have harm : Expr.armOfJson (.obj [("pattern", pattern.toJson),
          ("binding", bindingDocument binding), ("to", result.toJson)])
          = .ok ⟨pattern, binding, result⟩ := by
        rw [Expr.armOfJson]
        refine bind_eq_ok rfl ?_
        refine bind_eq_ok (Record.read?_keyed rfl hpattern 0) ?_
        refine bind_eq_ok (Record.read?_keyed rfl hbinding 1) ?_
        exact bind_eq_ok (Record.read?_keyed rfl hresult 2) rfl
      rw [Expr.armsToJson, List.mapM_cons]
      exact bind_eq_ok harm (bind_eq_ok (Expr.armsOfJson_toJson rest hrest) rfl)

theorem Definition.listOfJson_toJson : ∀ definitions : List Definition,
    (∀ t ∈ Definition.listLiterals definitions, t.WellFormed) →
    (Definition.listToJson definitions).mapM Definition.ofJson = .ok definitions
  | [], _ => by rw [Definition.listToJson]; rfl
  | d :: rest, h => by
      rw [Definition.listLiterals] at h
      obtain ⟨hd, hrest⟩ := List.forall_mem_append.mp h
      have hd := Definition.ofJson_toJson d hd
      rw [Definition.listToJson, List.mapM_cons]
      exact bind_eq_ok hd (bind_eq_ok (Definition.listOfJson_toJson rest hrest) rfl)

end

/-! ## Documents of nodes hold no infinity -/

theorem finite_bindingDocument (b : Option String) : (bindingDocument b).Finite := by
  cases b with
  | none => exact .null
  | some name => exact .str name

mutual

theorem Expr.finite_toJson : ∀ e : Expr, (∀ t ∈ e.literals, t.WellFormed) → e.toJson.Finite
  | .literal value, h => by
      rw [Expr.literals] at h
      have hvalue := (List.forall_mem_singleton.mp h).finite_toJson
      rw [Expr.toJson]
      exact Json.finite_tagged _ (List.forall_mem_singleton.mpr hvalue)
  | .named name fields, h => by
      rw [Expr.literals] at h
      have hfields := Json.Finite.arr (Expr.finite_fieldsToJson fields h)
      rw [Expr.toJson]
      exact Json.finite_tagged _ (by simp [hfields, Json.Finite.str])
  | .intersection items, h => by
      rw [Expr.literals] at h
      have hitems := Json.Finite.arr (Expr.finite_itemsToJson items h)
      rw [Expr.toJson]
      exact Json.finite_tagged _ (List.forall_mem_singleton.mpr hitems)
  | .union items, h => by
      rw [Expr.literals] at h
      have hitems := Json.Finite.arr (Expr.finite_itemsToJson items h)
      rw [Expr.toJson]
      exact Json.finite_tagged _ (List.forall_mem_singleton.mpr hitems)
  | .access of field, h => by
      rw [Expr.literals] at h
      have hof := Expr.finite_toJson of h
      rw [Expr.toJson]
      exact Json.finite_tagged _ (by simp [hof, Json.Finite.str])
  | .call function args, h => by
      rw [Expr.literals] at h
      have hargs := Json.Finite.arr (Expr.finite_itemsToJson args h)
      rw [Expr.toJson]
      exact Json.finite_tagged _ (by simp [hargs, Json.Finite.str])
  | .matchOn of arms, h => by
      rw [Expr.literals] at h
      obtain ⟨hof, harms⟩ := List.forall_mem_append.mp h
      have hof := Expr.finite_toJson of hof
      have harms := Json.Finite.arr (Expr.finite_armsToJson arms harms)
      rw [Expr.toJson]
      exact Json.finite_tagged _ (by simp [hof, harms])
  | .scope definitions body, h => by
      rw [Expr.literals] at h
      obtain ⟨hdefinitions, hbody⟩ := List.forall_mem_append.mp h
      have hdefinitions := Json.Finite.arr (Definition.finite_listToJson definitions hdefinitions)
      have hbody := Expr.finite_toJson body hbody
      rw [Expr.toJson]
      exact Json.finite_tagged _ (by simp [hdefinitions, hbody])

theorem Definition.finite_toJson : ∀ d : Definition, (∀ t ∈ d.literals, t.WellFormed) →
    d.toJson.Finite
  | .var name value, h => by
      rw [Definition.literals] at h
      have hvalue := Expr.finite_toJson value h
      rw [Definition.toJson]
      exact Json.finite_tagged _ (by simp [hvalue, Json.Finite.str])
  | .struct name fields, h => by
      rw [Definition.literals] at h
      have hfields := Json.Finite.arr (Expr.finite_fieldsToJson fields h)
      rw [Definition.toJson]
      exact Json.finite_tagged _ (by simp [hfields, Json.Finite.str])
  | .function name parameters value, h => by
      rw [Definition.literals] at h
      obtain ⟨hparameters, hvalue⟩ := List.forall_mem_append.mp h
      have hparameters := Json.Finite.arr (Expr.finite_fieldsToJson parameters hparameters)
      have hvalue := Expr.finite_toJson value hvalue
      rw [Definition.toJson]
      exact Json.finite_tagged _ (by simp [hparameters, hvalue, Json.Finite.str])

theorem Expr.finite_fieldsToJson : ∀ fields : List (Field Expr),
    (∀ t ∈ Expr.fieldLiterals fields, t.WellFormed) → ∀ j ∈ Expr.fieldsToJson fields, j.Finite
  | [], _ => by rw [Expr.fieldsToJson]; exact nofun
  | ⟨name, e⟩ :: rest, h => by
      rw [Expr.fieldLiterals] at h
      obtain ⟨he, hrest⟩ := List.forall_mem_append.mp h
      have he := Expr.finite_toJson e he
      rw [Expr.fieldsToJson]
      refine List.forall_mem_cons.mpr ⟨.obj ?_, Expr.finite_fieldsToJson rest hrest⟩
      simp [he, Json.Finite.str]

theorem Expr.finite_itemsToJson : ∀ items : List Expr,
    (∀ t ∈ Expr.itemLiterals items, t.WellFormed) → ∀ j ∈ Expr.itemsToJson items, j.Finite
  | [], _ => by rw [Expr.itemsToJson]; exact nofun
  | e :: rest, h => by
      rw [Expr.itemLiterals] at h
      obtain ⟨he, hrest⟩ := List.forall_mem_append.mp h
      rw [Expr.itemsToJson]
      exact List.forall_mem_cons.mpr ⟨Expr.finite_toJson e he, Expr.finite_itemsToJson rest hrest⟩

theorem Expr.finite_armsToJson : ∀ arms : List (Arm Expr),
    (∀ t ∈ Expr.armLiterals arms, t.WellFormed) → ∀ j ∈ Expr.armsToJson arms, j.Finite
  | [], _ => by rw [Expr.armsToJson]; exact nofun
  | ⟨pattern, binding, result⟩ :: rest, h => by
      rw [Expr.armLiterals] at h
      obtain ⟨hpattern, h⟩ := List.forall_mem_append.mp h
      obtain ⟨hresult, hrest⟩ := List.forall_mem_append.mp h
      have hpattern := Expr.finite_toJson pattern hpattern
      have hresult := Expr.finite_toJson result hresult
      rw [Expr.armsToJson]
      refine List.forall_mem_cons.mpr ⟨.obj ?_, Expr.finite_armsToJson rest hrest⟩
      simp [hpattern, finite_bindingDocument, hresult]

theorem Definition.finite_listToJson : ∀ definitions : List Definition,
    (∀ t ∈ Definition.listLiterals definitions, t.WellFormed) →
    ∀ j ∈ Definition.listToJson definitions, j.Finite
  | [], _ => by rw [Definition.listToJson]; exact nofun
  | d :: rest, h => by
      rw [Definition.listLiterals] at h
      obtain ⟨hd, hrest⟩ := List.forall_mem_append.mp h
      rw [Definition.listToJson]
      exact List.forall_mem_cons.mpr
        ⟨Definition.finite_toJson d hd, Definition.finite_listToJson rest hrest⟩

end

/-! ## Nodes come back -/

/-- Every expression and every definition whose literals were constructed has a document that JSON
can hold, and is read back from it: the same tree, with its names, its orders, its bindings and its
literals. -/
theorem expr_definition_readBack :
    (∀ e : Expr, (∀ t ∈ e.literals, t.Constructible) →
      e.toJson.Finite ∧ Expr.ofJson e.toJson = .ok e) ∧
    ∀ d : Definition, (∀ t ∈ d.literals, t.Constructible) →
      d.toJson.Finite ∧ Definition.ofJson d.toJson = .ok d := by
  constructor
  · intro e h
    have hwf : ∀ t ∈ e.literals, t.WellFormed := fun t ht => (h t ht).wellFormed
    exact ⟨e.finite_toJson hwf, e.ofJson_toJson hwf⟩
  · intro d h
    have hwf : ∀ t ∈ d.literals, t.WellFormed := fun t ht => (h t ht).wellFormed
    exact ⟨d.finite_toJson hwf, d.ofJson_toJson hwf⟩

example : Expr.toJson (.matchOn (.bare "A") [.unnamed (.bare "B") (.bare "C")])
    = .obj [("type", .str "match"), ("of", Expr.toJson (.bare "A")),
        ("arms", .arr [.obj [("pattern", Expr.toJson (.bare "B")), ("binding", .null),
          ("to", Expr.toJson (.bare "C"))]])] := rfl

/-- A scope with a definition of each form, around a match with a named and an unnamed case. -/
def mixedScope : Expr :=
  .scope [.var "v" (.literal (.union (.of [.string .all, .any]))),
      .struct "S" [⟨"type", .bare "v"⟩],
      .function "f" [⟨"p", .named "S" [⟨"type", .literal .never⟩]⟩] (.access (.bare "p") "type")]
    (.matchOn (.call "g" [.intersection [.bare "v"], .union []])
      [.unnamed (.bare "S") (.bare "v"), (Arm.unnamed (.bare "v") (.bare "x")).withBinding "x"])

def mixedFunction : Definition :=
  .function "h" [⟨"type", mixedScope⟩] (.literal (.number (.literal .infinity)))

theorem expr_definition_readBack_mixed :
    ((∀ t ∈ mixedScope.literals, t.Constructible) ∧
      ∀ t ∈ mixedFunction.literals, t.Constructible) ∧
    (mixedScope.toJson.Finite ∧ Expr.ofJson mixedScope.toJson = .ok mixedScope) ∧
      mixedFunction.toJson.Finite ∧ Definition.ofJson mixedFunction.toJson = .ok mixedFunction := by
  have hunion : (Ty.union (.of [.string .all, .any])).Constructible :=
    .union (by simp [Ty.Constructible.any, Ty.Constructible.string])
  have hinfinity : (Ty.number (.literal .infinity)).Constructible :=
    .number (.ofValue (x := .infinity) rfl)
  have hscope : ∀ t ∈ mixedScope.literals, t.Constructible := by
    have hliterals : mixedScope.literals = [.union (.of [.string .all, .any]), .never] := rfl
    simp [hliterals, hunion, Ty.Constructible.never]
  have hfunction : ∀ t ∈ mixedFunction.literals, t.Constructible := by
    have hliterals : mixedFunction.literals
        = [.union (.of [.string .all, .any]), .never, .number (.literal .infinity)] := rfl
    simp [hliterals, hunion, hinfinity, Ty.Constructible.never]
  exact ⟨⟨hscope, hfunction⟩, expr_definition_readBack.1 mixedScope hscope,
    expr_definition_readBack.2 mixedFunction hfunction⟩

end TypeGraph
