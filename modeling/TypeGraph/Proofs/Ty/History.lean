/-
# Histories of types

A program gets hold of types call by call: it makes one, or takes a part out of one that it has,
and passes earlier types on to later calls.  `Ty.obtained` gives the types that a history of calls
leaves at hand.  A call that fails leaves nothing.

`Ty.Invariant` lists what every type promises without a look into its parts: numbers in their one
spelling, bounds in order, integer bounds, a flat union whose members ascend by the bytes of their
keys, and a stored key that is the text of the type.  No call breaks the promise, given earlier
types that keep it at every depth (`Call.constructible`), so it holds at every depth of everything
that any history yields (`obtained_invariant`).
-/
import TypeGraph.Proofs.Text.Bytes
import TypeGraph.Proofs.Ty.WellFormed

namespace TypeGraph

/-! ## Integers among doubles -/

namespace Binary64

/-- Finite and a whole number of ones. -/
def IsInteger : Binary64 → Prop
  | .nan => False
  | .signed _ m => m.isFinite = true ∧ unitsPerOne ∣ m.units

theorem isInteger_or_infinite {x : Binary64} (h : NumberType.isIntBound x = true) :
    x.IsInteger ∨ x = .infinity ∨ x = .negInfinity := by
  match x with
  | .nan => cases h
  | .signed negative m =>
      rcases Bool.or_eq_true_iff.mp h with h | h
      · exact Or.inr (eq_infinity_or_negInfinity (by simpa [isInfinite] using h))
      · obtain ⟨hfinite, hwhole⟩ := Bool.and_eq_true_iff.mp h
        exact Or.inl ⟨hfinite, Nat.dvd_of_mod_eq_zero (beq_iff_eq.mp hwhole)⟩

end Binary64

/-! ## Calls -/

namespace NumberType

/-- A call that makes a type of numbers. -/
inductive Call where
  | all
  | ofValue (x : Binary64)
  | ofBounds (min max : Binary64)
  | ofIntBounds (min max : Binary64)
  | exactly (x : Binary64)
  | strictlyBetween (min max : Binary64)
  | intsStrictlyBetween (min max : Binary64)
  | between (min max : Binary64)
  | intsBetween (min max : Binary64)

/-- What a call makes, unless it reports a fault or stops. -/
def Call.result : Call → Option NumberType
  | .all => some .all
  | .ofValue x => (NumberType.ofValue x).toOption
  | .ofBounds min max => (NumberType.ofBounds min max).toOption
  | .ofIntBounds min max => (NumberType.ofIntBounds min max).toOption
  | .exactly x => (NumberType.exactly x).toOption
  | .strictlyBetween min max => (NumberType.strictlyBetween min max).toOption
  | .intsStrictlyBetween min max => (NumberType.intsStrictlyBetween min max).toOption
  | .between min max => (NumberType.between min max).toOption
  | .intsBetween min max => (NumberType.intsBetween min max).toOption

end NumberType

theorem NumberType.Call.constructible {c : NumberType.Call} {n : NumberType}
    (h : c.result = some n) : n.Constructible := by
  cases c with
  | all => cases h; exact .all
  | ofValue x => exact .ofValue (eq_ok_of_toOption h)
  | ofBounds min max => exact .ofBounds (eq_ok_of_toOption h)
  | ofIntBounds min max => exact .ofIntBounds (eq_ok_of_toOption h)
  | exactly x => exact .exactly (eq_ok_of_toOption h)
  | strictlyBetween min max => exact .strictlyBetween (eq_ok_of_toOption h)
  | intsStrictlyBetween min max => exact .intsStrictlyBetween (eq_ok_of_toOption h)
  | between min max => exact .between (eq_ok_of_toOption h)
  | intsBetween min max => exact .intsBetween (eq_ok_of_toOption h)

namespace Ty

/-- A call that yields a type.  Earlier types are given by their places among those at hand. -/
inductive Call where
  | never
  | any
  | number (call : NumberType.Call)
  | string (s : StringType)
  | struct (name : String) (fields : List (Field Nat))
  | union (items : List Nat)
  /-- The type of an unchecked description. -/
  | described (d : Description)
  /-- The first field of a name, taken out of an earlier struct. -/
  | field (source : Nat) (name : String)
  /-- The field at a position, taken out of an earlier struct. -/
  | fieldAt (source position : Nat)
  /-- The member at a position, taken out of an earlier union. -/
  | member (source position : Nat)

def fields : Ty → List (Field Ty)
  | .struct s => s.fields
  | _ => []

def members : Ty → List Ty
  | .union u => u.members
  | _ => []

/-- What a call yields, given the types at hand. -/
def Call.result (earlier : List Ty) : Call → Option Ty
  | .never => some .never
  | .any => some .any
  | .number call => call.result.map .number
  | .string s => some (.string s)
  | .struct name fields => do
    let fields ← fields.mapM fun f => earlier[f.value]?.map (Field.mk f.name)
    return .struct (.of name fields)
  | .union items => return .union (.of (← items.mapM fun i => earlier[i]?))
  | .described d => d.build.toOption
  | .field source name => do
    match ← earlier[source]? with
    | .struct s => return (← s.field? name).value
    | _ => none
  | .fieldAt source position => return (← (← earlier[source]?).fields[position]?).value
  | .member source position => do (← earlier[source]?).members[position]?

def Call.extend (earlier : List Ty) (c : Call) : List Ty := earlier ++ (c.result earlier).toList

/-- The types at hand after a history of calls, in the order in which they were obtained. -/
def obtained (history : List Call) : List Ty := history.foldl Call.extend []

/-! ## What calls yield -/

theorem constructible_of_mem_fields {t : Ty} (h : t.Constructible) {f : Field Ty}
    (hf : f ∈ t.fields) : f.value.Constructible := by
  cases t with
  | struct s => exact .field h hf
  | _ => cases hf

theorem constructible_of_mem_members {t : Ty} (h : t.Constructible) {m : Ty}
    (hm : m ∈ t.members) : m.Constructible := by
  cases t with
  | union u => exact .member h hm
  | _ => cases hm

theorem Call.constructible {earlier : List Ty} (h : ∀ t ∈ earlier, t.Constructible) {c : Call}
    {t : Ty} (hc : c.result earlier = some t) : t.Constructible := by
  cases c with
  | never => cases hc; exact .never
  | any => cases hc; exact .any
  | number call =>
      obtain ⟨n, hn, rfl⟩ := Option.map_eq_some_iff.mp hc
      exact .number (NumberType.Call.constructible hn)
  | string s => cases hc; exact .string s
  | struct name fields =>
      obtain ⟨fs, hfs, hc⟩ := Option.bind_eq_some_iff.mp hc
      cases hc
      refine .struct name fun f hf => ?_
      obtain ⟨a, -, ha⟩ := exists_of_mem_mapM hfs f hf
      obtain ⟨s, hs, rfl⟩ := Option.map_eq_some_iff.mp ha
      exact h s (List.mem_of_getElem? hs)
  | union items =>
      obtain ⟨ts, hts, hc⟩ := Option.bind_eq_some_iff.mp hc
      cases hc
      refine .union fun s hs => ?_
      obtain ⟨i, -, hi⟩ := exists_of_mem_mapM hts s hs
      exact h s (List.mem_of_getElem? hi)
  | described d => exact .described (eq_ok_of_toOption hc)
  | field source name =>
      obtain ⟨s, hs, hc⟩ := Option.bind_eq_some_iff.mp hc
      split at hc
      · next s =>
          obtain ⟨f, hf, hc⟩ := Option.bind_eq_some_iff.mp hc
          cases hc
          exact .field (h _ (List.mem_of_getElem? hs)) (List.mem_of_find?_eq_some hf)
      · cases hc
  | fieldAt source position =>
      obtain ⟨s, hs, hc⟩ := Option.bind_eq_some_iff.mp hc
      obtain ⟨f, hf, hc⟩ := Option.bind_eq_some_iff.mp hc
      cases hc
      exact constructible_of_mem_fields (h s (List.mem_of_getElem? hs)) (List.mem_of_getElem? hf)
  | member source position =>
      obtain ⟨s, hs, hc⟩ := Option.bind_eq_some_iff.mp hc
      exact constructible_of_mem_members (h s (List.mem_of_getElem? hs)) (List.mem_of_getElem? hc)

/-- From constructed types, every history leaves constructed types: by induction along the calls. -/
theorem constructible_foldl_extend : ∀ (history : List Call) {earlier : List Ty},
    (∀ t ∈ earlier, t.Constructible) → ∀ t ∈ history.foldl Call.extend earlier, t.Constructible
  | [], _, h, t, ht => h t ht
  | c :: history, earlier, h, t, ht => by
      -- what is at hand after the first call is constructed, too
      refine constructible_foldl_extend history (fun s hs => ?_) t ht
      rcases List.mem_append.mp hs with hs | hs
      · exact h s hs
      · exact c.constructible h (Option.mem_toList.mp hs)

theorem constructible_of_obtained {history : List Call} {t : Ty} (h : t ∈ obtained history) :
    t.Constructible :=
  constructible_foldl_extend history (fun _ hs => absurd hs List.not_mem_nil) t h

/-! ## The text of a type -/

def braced : List String → String
  | [] => ""
  | parts => " \x7b " ++ ", ".intercalate parts ++ " \x7d"

mutual

/-- The canonical text of a type, put together from its parts without a look at any stored key. -/
def rendered : Ty → String
  | .never => "never"
  | .any => "any"
  | .number n => n.key
  | .string s => s.key
  | .struct ⟨name, fields, _⟩ => "struct " ++ Text.label name ++ braced (renderedFields fields)
  | .union ⟨members, _⟩ => "(" ++ " | ".intercalate (renderedMembers members) ++ ")"

def renderedFields : List (Field Ty) → List String
  | [] => []
  | ⟨name, t⟩ :: rest => (Text.label name ++ ": " ++ t.rendered) :: renderedFields rest

def renderedMembers : List Ty → List String
  | [] => []
  | t :: rest => t.rendered :: renderedMembers rest

end

theorem renderedFields_eq : ∀ {fields : List (Field Ty)},
    (∀ f ∈ fields, f.value.key = f.value.rendered) → renderedFields fields = fields.map Field.keyText
  | [], _ => by rw [renderedFields, List.map_nil]
  | ⟨name, t⟩ :: rest, h => by
      have hrest := renderedFields_eq fun f hf => h f (List.mem_cons_of_mem _ hf)
      have ht : t.key = t.rendered := h _ List.mem_cons_self
      rw [renderedFields, List.map_cons, hrest, Field.keyText, ht]

theorem renderedMembers_eq : ∀ {members : List Ty},
    (∀ t ∈ members, t.key = t.rendered) → renderedMembers members = members.map key
  | [], _ => by rw [renderedMembers, List.map_nil]
  | t :: rest, h => by
      have hrest := renderedMembers_eq fun s hs => h s (List.mem_cons_of_mem _ hs)
      rw [renderedMembers, List.map_cons, hrest, h t List.mem_cons_self]

theorem WellFormed.key_eq_rendered {t : Ty} (h : t.WellFormed) : t.key = t.rendered := by
  induction h with
  | never => rw [rendered]; rfl
  | any => rw [rendered]; rfl
  | number h => rw [rendered]; rfl
  | string s => rw [rendered]; rfl
  | @struct name fields h ih =>
      rw [Struct.of, rendered, renderedFields_eq ih]
      cases fields with
      | nil => rfl
      | cons f rest => rfl
  | union h hflat hascending ih =>
      rw [rendered, renderedMembers_eq ih]
      rfl

/-! ## Types within types -/

/-- A type or what it contains, at any depth. -/
inductive Within : Ty → Ty → Prop where
  | refl (t : Ty) : Within t t
  | field {p : Ty} {s : Struct Ty} {f : Field Ty} (hf : f ∈ s.fields) (h : Within p f.value) :
      Within p (.struct s)
  | member {p : Ty} {u : Union Ty} {t : Ty} (ht : t ∈ u.members) (h : Within p t) :
      Within p (.union u)

theorem WellFormed.within {p t : Ty} (h : t.WellFormed) (hp : p.Within t) : p.WellFormed := by
  induction hp with
  | refl => exact h
  | field hf _ ih =>
      cases h with
      | struct name h => exact ih (h _ hf)
  | member ht _ ih =>
      cases h with
      | union h hflat hascending => exact ih (h _ ht)

/-! ## The invariant -/

def numbers : Ty → List Binary64
  | .number (.literal v) => [v]
  | .number (.interval min max) => [min, max]
  | .number (.intInterval min max) => [min, max]
  | _ => []

/-- What a type promises, as far as it goes without a look into its parts. -/
structure Invariant (t : Ty) : Prop where
  /-- No number is NaN or the negative zero. -/
  spelled : ∀ x ∈ t.numbers, x ≠ .nan ∧ x ≠ .signed true .zero
  interval : ∀ min max, t = .number (.interval min max) → min.Below max
  intInterval : ∀ min max, t = .number (.intInterval min max) → min.Below max
  /-- The bounds of an integer interval are integers or infinite. -/
  whole : ∀ min max, t = .number (.intInterval min max) →
    ∀ x ∈ [min, max], x.IsInteger ∨ x = .infinity ∨ x = .negInfinity
  flat : ∀ u, t = .union u → ∀ m ∈ u.members, ∀ v, m ≠ .union v
  /-- The keys of members ascend strictly in the order of their bytes. -/
  ascending : ∀ u, t = .union u → (u.members.map fun m => Text.bytes m.key).Pairwise (· < ·)
  key_eq : t.key = t.rendered

theorem spelled_numbers : ∀ {n : NumberType}, n.Valid → ∀ x ∈ (Ty.number n).numbers, x.Spelled
  | .all, _ => nofun
  | .literal _, h => List.forall_mem_singleton.mpr h
  | .interval _ _, h => forall_mem_pair h.1 h.2.1
  | .intInterval _ _, h => forall_mem_pair h.1.1 h.1.2.1

theorem WellFormed.spelled {t : Ty} (h : t.WellFormed) : ∀ x ∈ t.numbers, x.Spelled := by
  cases h with
  | number h => exact spelled_numbers h
  | _ => exact nofun

theorem WellFormed.invariant {t : Ty} (h : t.WellFormed) : t.Invariant := by
  refine ⟨h.spelled, ?_, ?_, ?_, ?_, ?_, h.key_eq_rendered⟩
  · rintro min max rfl
    cases h with
    | number h => exact h.2.2
  · rintro min max rfl
    cases h with
    | number h => exact h.1.2.2
  · rintro min max rfl
    cases h with
    | number h =>
        exact forall_mem_pair (Binary64.isInteger_or_infinite h.2.1)
          (Binary64.isInteger_or_infinite h.2.2)
  · rintro u rfl m hm v rfl
    cases h with
    | union _ hflat _ => exact hflat _ hm rfl
  · rintro u rfl
    cases h with
    | union _ _ hascending =>
        exact List.pairwise_map.mpr
          ((List.pairwise_map.mp hascending).imp Text.bytes_lt_of_lt)

/-- Whatever a history of calls yields keeps the promises of types, at every depth. -/
theorem obtained_invariant (history : List Call) {t : Ty} (ht : t ∈ obtained history) {p : Ty}
    (hp : p.Within t) : p.Invariant :=
  ((constructible_of_obtained ht).wellFormed.within hp).invariant

/-- A history that makes a zero out of the negative one, a union with it, a union of that union,
and a struct around the latter. -/
def nestedHistory : List Call :=
  [.number (.exactly (.signed true .zero)), .string .all, .union [1, 0], .union [2, 0, 2],
    .struct "S" [⟨"u", 3⟩]]

def nestedUnion : Ty :=
  .union (.of [.union (.of [.string .all, .number (.literal .zero)]), .number (.literal .zero),
    .union (.of [.string .all, .number (.literal .zero)])])

theorem obtained_invariant_nested :
    (Ty.struct (.of "S" [⟨"u", nestedUnion⟩]) ∈ obtained nestedHistory ∧
      nestedUnion.Within (.struct (.of "S" [⟨"u", nestedUnion⟩]))) ∧
    nestedUnion.Invariant := by
  have hobtained : Ty.struct (.of "S" [⟨"u", nestedUnion⟩]) ∈ obtained nestedHistory :=
    List.mem_of_getElem? (i := 4) rfl
  have hwithin : nestedUnion.Within (.struct (.of "S" [⟨"u", nestedUnion⟩])) :=
    .field List.mem_cons_self (.refl _)
  exact ⟨⟨hobtained, hwithin⟩, obtained_invariant nestedHistory hobtained hwithin⟩

end Ty
end TypeGraph
