/-
# Sets in order of insertion

A set that remembers the order in which its elements came, with the place of each element at
hand.  Adding an element that is there already changes nothing.
-/
import Std.Data.HashMap

namespace TypeGraph

/-- Distinct elements in order, and the place of each. -/
structure OrderedSet (α : Type) [DecidableEq α] [Hashable α] where
  items : Array α
  places : Std.HashMap α Nat
  places_iff : ∀ (a : α) (i : Nat), places[a]? = some i ↔ items[i]? = some a

namespace OrderedSet

variable {α : Type} [DecidableEq α] [Hashable α]

def empty : OrderedSet α := ⟨#[], ∅, by simp⟩

instance : Inhabited (OrderedSet α) := ⟨empty⟩

/-- The elements in order. -/
def toList (s : OrderedSet α) : List α := s.items.toList

def size (s : OrderedSet α) : Nat := s.items.size

/-- The element at a place. -/
def get? (s : OrderedSet α) (i : Nat) : Option α := s.items[i]?

/-- The place of an element. -/
def indexOf? (s : OrderedSet α) (a : α) : Option Nat := s.places[a]?

def contains (s : OrderedSet α) (a : α) : Bool := s.places.contains a

/-- Adds an element at the end, unless it is there. -/
def insert (s : OrderedSet α) (a : α) : OrderedSet α :=
  match h : s.places[a]? with
  | some _ => s
  | none =>
    let place := s.items.size
    ⟨s.items.push a, s.places.insert a place, by
      intro b i
      have hb := s.places_iff b i
      have ha := s.places_iff a i
      grind⟩

/-- Adds elements one after the other. -/
def insertAll (s : OrderedSet α) (l : List α) : OrderedSet α := l.foldl insert s

/-- The distinct elements of a list, in order of first occurrence. -/
def ofList (l : List α) : OrderedSet α := empty.insertAll l

/-! ## The elements as a list -/

theorem get?_eq (s : OrderedSet α) (i : Nat) : s.get? i = s.toList[i]? := by
  simp [get?, toList]

theorem indexOf?_eq_some_iff (s : OrderedSet α) (a : α) (i : Nat) :
    s.indexOf? a = some i ↔ s.toList[i]? = some a := by
  simp [indexOf?, toList, s.places_iff]

theorem size_eq (s : OrderedSet α) : s.size = s.toList.length := by
  simp [size, toList]

theorem contains_iff (s : OrderedSet α) (a : α) : s.contains a = true ↔ a ∈ s.toList := by
  simp only [contains, toList, Std.HashMap.contains_eq_isSome_getElem?, Option.isSome_iff_exists,
    s.places_iff, Array.mem_toList_iff, Array.mem_iff_getElem?]

theorem toList_insert (s : OrderedSet α) (a : α) :
    (s.insert a).toList = if a ∈ s.toList then s.toList else s.toList ++ [a] := by
  have hm := s.contains_iff a
  simp only [contains, Std.HashMap.contains_eq_isSome_getElem?] at hm
  unfold insert
  split
  · grind
  · grind [toList]

theorem mem_toList_insert (s : OrderedSet α) (a b : α) :
    b ∈ (s.insert a).toList ↔ b ∈ s.toList ∨ b = a := by
  rw [toList_insert]
  split
  · exact ⟨.inl, fun h => h.elim id fun e => e ▸ ‹_›⟩
  · rw [List.mem_append, List.mem_singleton]

/-- No element occurs twice. -/
theorem nodup_toList (s : OrderedSet α) : s.toList.Nodup := by
  refine List.pairwise_iff_getElem.2 fun i j hi hj hij he => ?_
  have h1 := (s.indexOf?_eq_some_iff _ i).2 (List.getElem?_eq_getElem hi)
  have h2 := (s.indexOf?_eq_some_iff _ j).2 (List.getElem?_eq_getElem hj)
  rw [he, h2] at h1
  exact absurd (Option.some.inj h1) (Nat.ne_of_gt hij)

end OrderedSet
end TypeGraph
