/-
# One key, one type

`Ty.Identical` compares two types part by part and looks at no key: variants, numbers, strings,
names, and fields and members in order.  Sameness of types looks at nothing but keys.  On types
that were constructed the two agree (`key_eq_iff_identical`), because a key can be taken apart in
one way only and a stored key is the key of the parts.
-/
import TypeGraph.Proofs.Ty.Key

namespace TypeGraph
namespace Ty

mutual

/-- Alike part by part, whatever keys are stored. -/
def Identical : Ty → Ty → Prop
  | .never, .never => True
  | .any, .any => True
  | .number n, .number m => n = m
  | .string s, .string t => s = t
  | .struct ⟨name, fields, _⟩, .struct ⟨name', fields', _⟩ =>
    name = name' ∧ IdenticalFields fields fields'
  | .union ⟨members, _⟩, .union ⟨members', _⟩ => IdenticalMembers members members'
  | _, _ => False

def IdenticalFields : List (Field Ty) → List (Field Ty) → Prop
  | [], [] => True
  | ⟨name, t⟩ :: rest, ⟨name', t'⟩ :: rest' =>
    (name = name' ∧ t.Identical t') ∧ IdenticalFields rest rest'
  | _, _ => False

def IdenticalMembers : List Ty → List Ty → Prop
  | [], [] => True
  | t :: rest, t' :: rest' => t.Identical t' ∧ IdenticalMembers rest rest'
  | _, _ => False

end

mutual

theorem identical_refl : ∀ t : Ty, t.Identical t
  | .never => by rw [Identical]; trivial
  | .any => by rw [Identical]; trivial
  | .number _ => by rw [Identical]
  | .string _ => by rw [Identical]
  | .struct ⟨_, fields, _⟩ => by rw [Identical]; exact ⟨rfl, identicalFields_refl fields⟩
  | .union ⟨members, _⟩ => by rw [Identical]; exact identicalMembers_refl members

theorem identicalFields_refl : ∀ fields : List (Field Ty), IdenticalFields fields fields
  | [] => by rw [IdenticalFields]; trivial
  | ⟨_, t⟩ :: rest => by
      rw [IdenticalFields]
      exact ⟨⟨rfl, identical_refl t⟩, identicalFields_refl rest⟩

theorem identicalMembers_refl : ∀ members : List Ty, IdenticalMembers members members
  | [] => by rw [IdenticalMembers]; trivial
  | t :: rest => by
      rw [IdenticalMembers]
      exact ⟨identical_refl t, identicalMembers_refl rest⟩

end

theorem eq_of_identicalFields : ∀ {fields fields' : List (Field Ty)},
    (∀ f ∈ fields, ∀ g ∈ fields', f.value.Identical g.value → f.value = g.value) →
    IdenticalFields fields fields' → fields = fields'
  | [], [], _, _ => rfl
  | [], _ :: _, _, h => by simp [IdenticalFields] at h
  | _ :: _, [], _, h => by simp [IdenticalFields] at h
  | ⟨name, t⟩ :: rest, ⟨name', t'⟩ :: rest', hparts, h => by
      rw [IdenticalFields] at h
      obtain ⟨⟨rfl, ht⟩, hrest⟩ := h
      have hvalue : t = t' := hparts _ List.mem_cons_self _ List.mem_cons_self ht
      have htail : rest = rest' := eq_of_identicalFields
        (fun f hf g hg => hparts f (List.mem_cons_of_mem _ hf) g (List.mem_cons_of_mem _ hg)) hrest
      rw [hvalue, htail]

theorem eq_of_identicalMembers : ∀ {members members' : List Ty},
    (∀ a ∈ members, ∀ b ∈ members', a.Identical b → a = b) →
    IdenticalMembers members members' → members = members'
  | [], [], _, _ => rfl
  | [], _ :: _, _, h => by simp [IdenticalMembers] at h
  | _ :: _, [], _, h => by simp [IdenticalMembers] at h
  | a :: rest, b :: rest', hparts, h => by
      rw [IdenticalMembers] at h
      have hhead : a = b := hparts _ List.mem_cons_self _ List.mem_cons_self h.1
      have htail : rest = rest' := eq_of_identicalMembers
        (fun a ha b hb => hparts a (List.mem_cons_of_mem _ ha) b (List.mem_cons_of_mem _ hb)) h.2
      rw [hhead, htail]

theorem Identical.family_eq {a b : Ty} (h : a.Identical b) : a.family = b.family := by
  cases a <;> cases b <;> first | rfl | simp [Identical] at h

theorem WellFormed.eq_of_identical {a b : Ty} (ha : a.WellFormed) (hb : b.WellFormed)
    (h : a.Identical b) : a = b := by
  have hfamily := h.family_eq
  induction ha generalizing b with
  | never =>
      cases hb with
      | never => rfl
      | _ => cases hfamily
  | any =>
      cases hb with
      | any => rfl
      | _ => cases hfamily
  | number hn =>
      cases hb with
      | number hm =>
          rw [Identical] at h
          rw [h]
      | _ => cases hfamily
  | string u =>
      cases hb with
      | string v =>
          rw [Identical] at h
          rw [h]
      | _ => cases hfamily
  | struct name hfields ih =>
      cases hb with
      | struct name' hfields' =>
          rw [Struct.of, Struct.of, Identical] at h
          have heq := eq_of_identicalFields
            (fun f hf g hg hfg => ih f hf (hfields' g hg) hfg hfg.family_eq) h.2
          rw [h.1, heq]
      | _ => cases hfamily
  | union hmembers _ _ ih =>
      cases hb with
      | union hmembers' _ _ =>
          rw [Identical] at h
          have heq := eq_of_identicalMembers
            (fun a ha b hb hab => ih a ha (hmembers' b hb) hab hab.family_eq) h
          rw [heq]
      | _ => cases hfamily

theorem WellFormed.key_eq_iff {a b : Ty} (ha : a.WellFormed) (hb : b.WellFormed) :
    a.key = b.key ↔ a.Identical b := by
  constructor
  · intro h
    rw [ha.key_inj hb h]
    exact identical_refl b
  · intro h
    rw [ha.eq_of_identical hb h]

theorem same_iff {a b : Ty} : a.same b = true ↔ a.key = b.key := beq_iff_eq

/-- Two types that were constructed have one key exactly when they are alike part by part, and so
they are the same, equal, and hashed alike: what is hashed is the key. -/
theorem key_eq_iff_identical {a b : Ty} (ha : a.Constructible) (hb : b.Constructible) :
    (a.key = b.key ↔ a.Identical b) ∧ (a.same b = true ↔ a.Identical b) ∧
      ((a == b) = true ↔ a.Identical b) ∧ (hash a = hash a.key ∧ hash b = hash b.key) := by
  have hkey := ha.wellFormed.key_eq_iff hb.wellFormed
  exact ⟨hkey, same_iff.trans hkey, same_iff.trans hkey, rfl, rfl⟩

def plainStruct : Ty := .struct (.of "A" [⟨"x", .any⟩])

/-- A struct without fields whose name reads like the one with a field. -/
def lookalikeStruct : Ty := .struct (.of "A \x7b x: any \x7d" [])

theorem key_eq_iff_identical_lookalike :
    (plainStruct.Constructible ∧ lookalikeStruct.Constructible) ∧
    (plainStruct.key = lookalikeStruct.key ↔ plainStruct.Identical lookalikeStruct) ∧
      (plainStruct.same lookalikeStruct = true ↔ plainStruct.Identical lookalikeStruct) ∧
      ((plainStruct == lookalikeStruct) = true ↔ plainStruct.Identical lookalikeStruct) ∧
      (hash plainStruct = hash plainStruct.key ∧ hash lookalikeStruct = hash lookalikeStruct.key) := by
  have hplain : plainStruct.Constructible := .struct _ (by simp [Constructible.any])
  have hlookalike : lookalikeStruct.Constructible := .struct _ nofun
  exact ⟨⟨hplain, hlookalike⟩, key_eq_iff_identical hplain hlookalike⟩

end Ty
end TypeGraph
