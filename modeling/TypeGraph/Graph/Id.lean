/-
# Definition ids

A definition of a dependency graph is known by a 32-bit handle that stands for its place in the
order of first appearance.
-/

namespace TypeGraph

/-- The handle of a definition. -/
@[ext]
structure DefId where
  raw : UInt32
deriving DecidableEq, Hashable

namespace DefId

/-- The place that an id stands for. -/
def index (id : DefId) : Nat := id.raw.toNat

/-- The id of a place.  Places are counted modulo 2^32. -/
def ofIndex (i : Nat) : DefId := ⟨i.toUInt32⟩

instance : Inhabited DefId := ⟨ofIndex 0⟩

/-- Ascending order of places. -/
def atMost (a b : DefId) : Bool := a.index ≤ b.index

theorem index_lt (id : DefId) : id.index < UInt32.size := id.raw.toNat_lt

theorem index_ofIndex {i : Nat} (h : i < UInt32.size) : (ofIndex i).index = i :=
  UInt32.toNat_ofNat_of_lt' h

theorem ofIndex_index (id : DefId) : ofIndex id.index = id :=
  congrArg DefId.mk UInt32.ofNat_toNat

theorem index_injective {a b : DefId} (h : a.index = b.index) : a = b := by
  rw [← ofIndex_index a, ← ofIndex_index b, h]

end DefId
end TypeGraph
