/-
# Lists of strongly connected components

A condensation is a list of components in which members of one component reach each other and no
component reaches a later one.  Together these two say that the components are the strongly
connected ones: members of different components never reach each other both ways
(`Condensation.shared_iff`), and a dependency that leaves its component leads to an earlier one
(`Condensation.lt_of_reaches`).

A condensation that is closed under dependencies grows at its end by a component that was not
reached before (`Condensation.concat`), which is how a depth-first search produces one.
-/
import TypeGraph.Proofs.Graph.Dependence

namespace TypeGraph
namespace DependencyGraph

/-- Components in an order in which each comes after everything it reaches. -/
structure Condensation (g : DependencyGraph) (cs : List (List DefId)) : Prop where
  nonempty : ∀ c ∈ cs, c ≠ []
  ascending : ∀ c ∈ cs, c.Pairwise fun a b => a.index < b.index
  connected : ∀ c ∈ cs, ∀ u ∈ c, ∀ v ∈ c, g.Reaches u v
  ordered : cs.Pairwise fun c d => ∀ u ∈ c, ∀ v ∈ d, ¬ g.Reaches u v

/-- Every dependency of a member of the list is in the list. -/
def Closed (g : DependencyGraph) (l : List DefId) : Prop :=
  ∀ u ∈ l, ∀ v, g.Depends u v → v ∈ l

theorem Closed.reaches {g : DependencyGraph} {l : List DefId} (hl : g.Closed l) {u v : DefId}
    (hu : u ∈ l) (h : g.Reaches u v) : v ∈ l := by
  induction h with
  | refl => exact hu
  | tail _ hd ih => exact hl _ ih _ hd

theorem nodup_of_ascending {c : List DefId} (h : c.Pairwise fun a b => a.index < b.index) :
    c.Nodup :=
  h.imp fun hlt he => absurd (congrArg DefId.index he) (Nat.ne_of_lt hlt)

namespace Condensation

variable {g : DependencyGraph} {cs : List (List DefId)}

theorem nil (g : DependencyGraph) : g.Condensation [] :=
  ⟨fun _ h => absurd h List.not_mem_nil, fun _ h => absurd h List.not_mem_nil,
    fun _ h => absurd h List.not_mem_nil, List.Pairwise.nil⟩

/-- A new component goes to the end: what is listed so far is closed, so it does not reach it. -/
theorem concat (h : g.Condensation cs) (hcl : g.Closed cs.flatten) {c : List DefId}
    (hne : c ≠ []) (hasc : c.Pairwise fun a b => a.index < b.index)
    (hcon : ∀ u ∈ c, ∀ v ∈ c, g.Reaches u v) (hnew : ∀ v ∈ c, v ∉ cs.flatten) :
    g.Condensation (cs ++ [c]) := by
  have hcase : ∀ d ∈ cs ++ [c], d ∈ cs ∨ d = c := by
    intro d hd
    rcases List.mem_append.mp hd with hd | hd
    · exact Or.inl hd
    · exact Or.inr (List.mem_singleton.mp hd)
  refine ⟨?_, ?_, ?_, ?_⟩
  · intro d hd
    rcases hcase d hd with hd | rfl
    · exact h.nonempty d hd
    · exact hne
  · intro d hd
    rcases hcase d hd with hd | rfl
    · exact h.ascending d hd
    · exact hasc
  · intro d hd
    rcases hcase d hd with hd | rfl
    · exact h.connected d hd
    · exact hcon
  · refine List.pairwise_append.mpr ⟨h.ordered, List.pairwise_singleton _ _, ?_⟩
    intro d hd e he u hu v hv hr
    rw [List.mem_singleton.mp he] at hv
    exact hnew v hv (hcl.reaches (List.mem_flatten.mpr ⟨d, hd, hu⟩) hr)

theorem filter (h : g.Condensation cs) (p : List DefId → Bool) : g.Condensation (cs.filter p) :=
  ⟨fun c hc => h.nonempty c (List.mem_of_mem_filter hc),
    fun c hc => h.ascending c (List.mem_of_mem_filter hc),
    fun c hc => h.connected c (List.mem_of_mem_filter hc),
    h.ordered.sublist List.filter_sublist⟩

theorem nodup_flatten (h : g.Condensation cs) : cs.flatten.Nodup := by
  refine List.pairwise_flatten.mpr ⟨fun c hc => nodup_of_ascending (h.ascending c hc), ?_⟩
  refine h.ordered.imp fun {c d} hcd u hu v hv huv => ?_
  subst huv
  exact hcd u hu u hv .refl

/-- Where one component reaches a different one, the reached one comes earlier. -/
theorem lt_of_reaches (h : g.Condensation cs) {i j : Nat} (hi : i < cs.length)
    (hj : j < cs.length) (hij : i ≠ j) {u v : DefId} (hu : u ∈ cs[i]) (hv : v ∈ cs[j])
    (hr : g.Reaches u v) : j < i := by
  rcases Nat.lt_or_gt_of_ne hij with hlt | hgt
  · exact absurd hr (List.pairwise_iff_getElem.mp h.ordered i j hi hj hlt u hu v hv)
  · exact hgt

theorem mem_of_reaches (h : g.Condensation cs) {c : List DefId} (hc : c ∈ cs) {u v : DefId}
    (hu : u ∈ c) (hv : v ∈ cs.flatten) (huv : g.Reaches u v) (hvu : g.Reaches v u) : v ∈ c := by
  obtain ⟨d, hd, hvd⟩ := List.mem_flatten.mp hv
  obtain ⟨i, hi, rfl⟩ := List.mem_iff_getElem.mp hc
  obtain ⟨j, hj, rfl⟩ := List.mem_iff_getElem.mp hd
  by_cases hij : i = j
  · subst hij
    exact hvd
  · have hji := h.lt_of_reaches hi hj hij hu hvd huv
    exact absurd (h.lt_of_reaches hj hi (Ne.symm hij) hvd hu hvu) (Nat.lt_asymm hji)

theorem shared_iff (h : g.Condensation cs) {u v : DefId} (hu : u ∈ cs.flatten)
    (hv : v ∈ cs.flatten) :
    (∃ c ∈ cs, u ∈ c ∧ v ∈ c) ↔ g.Reaches u v ∧ g.Reaches v u := by
  constructor
  · rintro ⟨c, hc, huc, hvc⟩
    exact ⟨h.connected c hc u huc v hvc, h.connected c hc v hvc u huc⟩
  · rintro ⟨huv, hvu⟩
    obtain ⟨c, hc, huc⟩ := List.mem_flatten.mp hu
    exact ⟨c, hc, huc, h.mem_of_reaches hc huc hv huv hvu⟩

end Condensation
end DependencyGraph
end TypeGraph
