/-
# The analysis of a graph ends and stays within its tables

The search for components looks up marks by id, and cycles, order and text look up names and
mentions by id.  The lookups of names and mentions answer for the places of the graph only
(`nameOf_ok_iff`, `mentionsOf_ok_iff`) and their failure is the failure of the analysis, so for them
it is enough that the analysis has an answer.

Marks are another matter, since changing a mark that is not there changes nothing and does not fail.
Two things are said of them.  Every id that the search has at hand is a place of the graph
(`Sweeping.index_lt`).  And the steps of the search stay the same when its table of marks is given
more places, whatever these hold, and leave them as they are (`Advance.withRoom`): a step that read
or wrote a place beyond the table would show there.

With the account of moves this gives `EndsInBounds`: the analysis of the graph of any definitions
ends, in bounds, after each move that the graph calls for has been made once.
-/
import TypeGraph.Proofs.Graph.Names
import TypeGraph.Proofs.Search.LoopInvariant
import TypeGraph.Proofs.Search.Moves

namespace TypeGraph
namespace Search

/-! ## A longer table of marks -/

def withRoom (s : Search) (extra : Array (Option Mark)) : Search :=
  { s with marks := s.marks ++ extra }

section WithRoom

variable {s : Search} {v w : DefId} (extra : Array (Option Mark))

theorem getElem?_withRoom (hv : v.index < s.marks.size) :
    (s.withRoom extra).marks[v.index]? = s.marks[v.index]? :=
  Array.getElem?_append_left hv

theorem mark?_withRoom (hv : v.index < s.marks.size) :
    (s.withRoom extra).mark? v = s.mark? v := by
  rw [mark?, getElem?_withRoom extra hv, mark?]

theorem setMark_withRoom (hv : v.index < s.marks.size) (m : Mark) :
    (s.withRoom extra).setMark v m = (s.setMark v m).withRoom extra := by
  simp only [setMark, withRoom, Array.setIfInBounds_append_left hv]

theorem amend_withRoom (hv : v.index < s.marks.size) (change : Mark → Mark) :
    (s.withRoom extra).amend v change = (s.amend v change).withRoom extra := by
  rw [amend, amend, mark?_withRoom extra hv]
  cases s.mark? v with
  | none => rfl
  | some m => exact setMark_withRoom extra hv (change m)

theorem lower_withRoom (hv : v.index < s.marks.size) (k : Nat) :
    (s.withRoom extra).lower v k = (s.lower v k).withRoom extra :=
  amend_withRoom extra hv _

theorem foldl_settle_withRoom : ∀ {l : List DefId} {s : Search},
    (∀ v ∈ l, v.index < s.marks.size) →
      l.foldl settle (s.withRoom extra) = (l.foldl settle s).withRoom extra
  | [], _, _ => rfl
  | v :: l, s, h => by
      obtain ⟨hv, hl⟩ := List.forall_mem_cons.mp h
      rw [List.foldl_cons, List.foldl_cons, settle_eq, settle_eq, amend_withRoom extra hv]
      exact foldl_settle_withRoom fun u hu => (size_amend s v _).symm ▸ hl u hu

theorem emit_withRoom (h : ∀ v ∈ s.stack, v.index < s.marks.size) (root : DefId) :
    (s.withRoom extra).emit root = (s.emit root).withRoom extra := by
  have hcomponent : ∀ v ∈ s.stack.takeWhile (· ≠ root) ++ (s.stack.dropWhile (· ≠ root)).take 1,
      v.index < s.marks.size := by
    intro v hv
    refine h v ?_
    rcases List.mem_append.mp hv with hv | hv
    · exact (List.takeWhile_sublist _).subset hv
    · exact (List.dropWhile_sublist _).subset (List.mem_of_mem_take hv)
  have hstack : (s.withRoom extra).stack = s.stack := rfl
  simp only [emit, hstack, foldl_settle_withRoom extra hcomponent]
  rfl

theorem raise_withRoom (h : ∀ f ∈ s.frames, f.id.index < s.marks.size) (low : Nat) :
    (s.withRoom extra).raise low = (s.raise low).withRoom extra := by
  have hframes : (s.withRoom extra).frames = s.frames := rfl
  rw [raise, raise, hframes]
  cases hf : s.frames with
  | nil => rfl
  | cons parent path => exact lower_withRoom extra (h parent (hf ▸ List.mem_cons_self)) low

/-- From "the same with more room" to what the operation comes to. -/
theorem ok_withRoom {r r' : Except Breach Search} {t : Search} {extra : Array (Option Mark)}
    (h : r' = r.map (withRoom · extra)) (ht : r = .ok t) : r' = .ok (t.withRoom extra) := by
  rw [h, ht]
  rfl

theorem visit_withRoom (g : DependencyGraph) (hv : v.index < s.marks.size) :
    (s.withRoom extra).visit g v = (s.visit g v).map (withRoom · extra) := by
  cases hdeps : g.dependencies v with
  | error b => simp only [visit, hdeps, bind, Except.bind, Except.map]
  | ok deps =>
      rw [visit_eq hdeps, visit_eq hdeps, meet, setMark_withRoom extra hv]
      rfl

theorem follow_withRoom (g : DependencyGraph) (hv : v.index < s.marks.size)
    (hw : w.index < s.marks.size) :
    (s.withRoom extra).follow g v w = (s.follow g v w).map (withRoom · extra) := by
  rw [follow, follow, getElem?_withRoom extra hw]
  cases s.marks[w.index]? with
  | none => rfl
  | some mark =>
      cases mark with
      | none => exact visit_withRoom extra g hw
      | some m =>
          simp only [Except.map]
          split
          · rw [lower_withRoom extra hv]
          · rfl

theorem leave_withRoom (hv : v.index < s.marks.size)
    (hstack : ∀ u ∈ s.stack, u.index < s.marks.size)
    (hframes : ∀ f ∈ s.frames, f.id.index < s.marks.size) :
    (s.withRoom extra).leave v = (s.leave v).map (withRoom · extra) := by
  rw [leave, leave, mark?_withRoom extra hv]
  cases s.mark? v with
  | none => rfl
  | some m =>
      have hraised : ∀ u ∈ (s.raise m.low).stack, u.index < (s.raise m.low).marks.size := by
        rwa [stack_raise, size_raise]
      simp only [Except.map, raise_withRoom extra hframes]
      split
      · rw [emit_withRoom extra hraised]
      · rfl

end WithRoom

/-! ## The ids at hand -/

/-- The ids that a state holds: those on the stack, those on the path with the dependencies that are
still to be followed, and those of the settled components. -/
def held (s : Search) : List DefId :=
  s.stack ++ s.frames.flatMap (fun f => f.id :: f.rest) ++ s.settled

section Held

variable {g : DependencyGraph} {roots roots' : List DefId} {moves : List Move} {s t : Search}

theorem Sweeping.index_lt (hg : g.WellFormed) (hs : s.Sweeping g roots) :
    ∀ v ∈ roots ++ s.held, v.index < g.size := by
  have hmet : ∀ {u}, s.Met u → u.index < g.size := fun hu => hs.marks_size ▸ lt_size_of_met hu
  intro v hv
  simp only [held, List.mem_append, List.mem_flatMap, List.mem_cons] at hv
  rcases hv with hroot | (hstack | ⟨f, hf, rfl | hrest⟩) | hsettled
  · exact hs.roots_lt v hroot
  · exact hmet (hs.met_of_mem hstack)
  · exact hmet (hs.met_of_mem (hs.segments.mem_stack hf))
  · exact (hg.depends_lt (hs.rest_depends f hf v hrest)).2
  · exact hmet ((hs.settled_iff v).mp hsettled).1

theorem Ledger.counter_le (hg : g.WellFormed) (hs : s.Ledger g) : s.counter ≤ g.size := by
  calc s.counter
    _ = s.numbers.length := by rw [(hs.numbers_perm hg).length_eq, List.length_range]
    _ ≤ s.marks.toList.length := List.length_filterMap_le _ _
    _ = g.size := hs.marks_size

/-- With more places in the table of marks a step is the same step, and leaves these places as they
are. -/
theorem Advance.withRoom (hlt : ∀ v ∈ roots ++ s.held, v.index < s.marks.size)
    (h : Advance g roots s moves roots' t) (extra : Array (Option Mark)) :
    Advance g roots (s.withRoom extra) moves roots' (t.withRoom extra) := by
  have hroots : ∀ v ∈ roots, v.index < s.marks.size := fun v hv =>
    hlt v (List.mem_append_left _ hv)
  have hstack : ∀ v ∈ s.stack, v.index < s.marks.size := fun v hv =>
    hlt v (by simp [held, hv])
  have hframes : ∀ f ∈ s.frames, ∀ v ∈ f.id :: f.rest, v.index < s.marks.size := fun f hf v hv =>
    hlt v (List.mem_append_right _ (by grind [held]))
  cases h with
  | skip hf hroot =>
      have hlt := hroots _ List.mem_cons_self
      exact .skip hf ((getElem?_withRoom extra hlt).trans hroot)
  | enter hf hroot ht =>
      have hlt := hroots _ List.mem_cons_self
      refine .enter hf ((getElem?_withRoom extra hlt).trans hroot) ?_
      exact ok_withRoom (visit_withRoom extra g hlt) ht
  | @descend _ rest _ _ v w path hf hw ht =>
      have hlt : w.index < s.marks.size := hframes _ (hf ▸ List.mem_cons_self) w (by simp)
      refine .descend hf ((getElem?_withRoom extra hlt).trans hw) ?_
      exact ok_withRoom
        (visit_withRoom (s := { s with frames := ⟨v, rest⟩ :: path }) extra g hlt) ht
  | @pass _ rest _ _ v w path _ hf hw ht =>
      have hvlt : v.index < s.marks.size := hframes _ (hf ▸ List.mem_cons_self) v (by simp)
      have hlt : w.index < s.marks.size := hframes _ (hf ▸ List.mem_cons_self) w (by simp)
      refine .pass hf ((getElem?_withRoom extra hlt).trans hw) ?_
      exact ok_withRoom
        (follow_withRoom (s := { s with frames := ⟨v, rest⟩ :: path }) extra g hvlt hlt) ht
  | @leave _ _ _ v path hf ht =>
      have hvlt : v.index < s.marks.size := hframes _ (hf ▸ List.mem_cons_self) v (by simp)
      have hpath : ∀ f ∈ path, f.id.index < s.marks.size := fun f hfm =>
        hframes f (hf ▸ List.mem_cons_of_mem _ hfm) _ List.mem_cons_self
      refine .leave hf ?_
      exact ok_withRoom (leave_withRoom (s := { s with frames := path }) extra hvlt hstack hpath) ht

end Held

/-- At this point of the search, with these ids still to be started from, nothing leads out of the
tables. -/
structure InBounds (g : DependencyGraph) (roots : List DefId) (s : Search) : Prop where
  /-- There is a mark for every definition of the graph. -/
  marks_size : s.marks.size = g.size
  /-- Every id at hand is a place of the graph. -/
  index_lt : ∀ v ∈ roots ++ s.held, v.index < g.size
  /-- No more numbers are given out than there are definitions. -/
  counter_le : s.counter ≤ g.size
  /-- Unless the search is over, a step can be taken: no lookup in it fails. -/
  goes_on : ¬ (roots = [] ∧ s.frames = []) → ∃ moves roots' t, Advance g roots s moves roots' t
  /-- A step neither reads nor writes beyond the table of marks: more places there make no
  difference to it, and it leaves them as they are. -/
  within_table : ∀ moves roots' t, Advance g roots s moves roots' t → ∀ extra,
    Advance g roots (s.withRoom extra) moves roots' (t.withRoom extra)

theorem Sweeping.inBounds {g : DependencyGraph} {roots : List DefId} {s : Search}
    (hg : g.WellFormed) (hs : s.Sweeping g roots) : s.InBounds g roots where
  marks_size := hs.marks_size
  index_lt := hs.index_lt hg
  counter_le := hs.toLedger.counter_le hg
  goes_on := hs.exists_advance hg
  within_table := fun _ _ _ h => h.withRoom (hs.marks_size ▸ hs.index_lt hg)

end Search

namespace DependencyGraph

open Search

/-! ## Lookups by id -/

variable {g : DependencyGraph}

theorem nameOf_ok_iff {v : DefId} : (∃ name, g.nameOf v = .ok name) ↔ v.index < g.size :=
  ⟨fun ⟨_, h⟩ => lt_size_of_nameOf h, exists_nameOf⟩

theorem mentionsOf_ok_iff (hg : g.WellFormed) {v : DefId} :
    (∃ m, g.mentionsOf v = .ok m) ↔ v.index < g.size := by
  rw [← hg.mentions_size]
  constructor
  · rintro ⟨m, hm⟩
    rw [mentionsOf] at hm
    split at hm
    · next hget => exact (Array.getElem?_eq_some_iff.mp hget).1
    · cases hm
  · intro hv
    exact ⟨g.mentions[v.index], by rw [mentionsOf, Array.getElem?_eq_getElem hv]⟩

/-! ## Text -/

theorem exists_line (hg : g.WellFormed) {v : DefId} (hv : v.index < g.size) :
    ∃ line, g.line v = .ok line := by
  obtain ⟨name, hname⟩ := exists_nameOf hv
  obtain ⟨m, hm⟩ := (mentionsOf_ok_iff hg).mpr hv
  have hdeps : g.dependencies v = .ok m.dependencies.toList := by
    simp only [dependencies, hm, bind, Except.bind, pure, Except.pure]
  have hunknown : g.unknownNames v = .ok m.unknown.toList := by
    simp only [unknownNames, hm, bind, Except.bind, pure, Except.pure]
  obtain ⟨names, hnames, -⟩ := exists_mapM_eq_ok (f := g.nameOf) (l := m.dependencies.toList)
    fun w hw => exists_nameOf (hg.depends_lt ⟨_, hdeps, hw⟩).2
  simp only [line, hname, hdeps, hnames, hunknown, bind, Except.bind, pure, Except.pure]
  exact ⟨_, rfl⟩

theorem exists_text (hg : g.WellFormed) : ∃ text, g.text = .ok text := by
  obtain ⟨lines, hlines, -⟩ := exists_mapM_eq_ok (f := g.line) (l := g.ids)
    fun v hv => exists_line hg (hg.mem_ids.mp hv)
  simp only [text, hlines, bind, Except.bind, pure, Except.pure]
  exact ⟨_, rfl⟩

/-! ## The analysis -/

/-- Every analysis of the graph comes to an answer, and on the way looks up places of the graph
only. -/
structure EndsInBounds (g : DependencyGraph) : Prop where
  /-- Components, cycles, evaluation order and text are there: no lookup fails. -/
  answers : ∃ cs cycles order text, g.components = .ok cs ∧ g.cycles = .ok cycles ∧
    g.evaluationOrder = .ok order ∧ g.text = .ok text
  /-- An id has a name exactly if it is a place of the graph … -/
  nameOf_iff : ∀ v, (∃ name, g.nameOf v = .ok name) ↔ v.index < g.size
  /-- … and mentions exactly if it is one. -/
  mentionsOf_iff : ∀ v, (∃ m, g.mentionsOf v = .ok m) ↔ v.index < g.size
  /-- Every dependency is a place of the graph. -/
  depends_lt : ∀ v w, g.Depends v w → w.index < g.size
  /-- Numbers up to the size of the graph fit into 32 bits. -/
  size_lt : g.size < UInt32.size
  /-- The search for components cannot go on forever. -/
  ends : Acc (StepAfter g) (g.ids, start g.size)
  /-- Wherever the search stands, nothing leads out of the tables. -/
  in_bounds : ∀ roots moves s, Performed g roots moves s → s.InBounds g roots
  /-- Going on from wherever it stands leads to the components. -/
  leads_on : ∀ roots moves s, Performed g roots moves s →
    g.components = (return (← resume g roots s).components.toList)
  /-- The search comes to its end … -/
  completes : ∃ moves t, Performed g [] moves t ∧ t.frames = []
  /-- … and then it has the components, has met every definition once, has followed every dependency
  of every definition once, has left every definition once, and has done nothing else. -/
  each_once : ∀ moves t, Performed g [] moves t → t.frames = [] →
    g.components = .ok t.components.toList ∧
      (∀ move, move.CalledFor g → moves.count move = 1) ∧ ∀ move ∈ moves, move.CalledFor g

/-- The analysis of the graph of any definitions with fewer than 2^32 distinct names ends and stays
within the tables of the graph. -/
theorem build_endsInBounds (options : GraphOptions) (definitions : List Definition)
    (h : (definitions.map Definition.name).toFinset.card < UInt32.size) :
    (build options definitions).EndsInBounds := by
  have hg : (build options definitions).WellFormed := build_wellFormed h
  obtain ⟨cs, hcs, -⟩ := components_condensation hg
  obtain ⟨cycles, hcycles, -⟩ := cycles_condensation hg
  obtain ⟨order, horder, -⟩ := evaluationOrder_eq_ok hg
  obtain ⟨text, htext⟩ := exists_text hg
  exact {
    answers := ⟨cs, cycles, order, text, hcs, hcycles, horder, htext⟩
    nameOf_iff := fun _ => nameOf_ok_iff
    mentionsOf_iff := fun _ => mentionsOf_ok_iff hg
    depends_lt := fun _ _ hvw => (hg.depends_lt hvw).2
    size_lt := size_build options definitions ▸ h
    ends := (sweeping_start hg).acc hg
    in_bounds := fun _ _ _ hs => (hs.account hg).1.inBounds hg
    leads_on := fun _ _ _ hs => hs.components
    completes := Performed.start.exists_complete hg
    each_once := fun _ _ ht hf => ht.complete hg hf }

theorem build_endsInBounds_mutual :
    (mutualDefinitions.map Definition.name).toFinset.card < UInt32.size ∧
    (build {} mutualDefinitions).EndsInBounds ∧
    ∃ moves t u v, Performed (build {} mutualDefinitions) [] moves t ∧ t.frames = [] ∧
      t.InBounds (build {} mutualDefinitions) [] ∧
      (build {} mutualDefinitions).nameOf u = .ok "A" ∧
      (build {} mutualDefinitions).nameOf v = .ok "B" ∧
      moves.count (.meet u) = 1 ∧
      moves.count (.follow u v) = 1 ∧ moves.count (.follow v u) = 1 := by
  have hcard : (mutualDefinitions.map Definition.name).toFinset.card < UInt32.size := by decide
  have hg : (build {} mutualDefinitions).WellFormed := build_wellFormed hcard
  have hends := build_endsInBounds {} mutualDefinitions hcard
  obtain ⟨moves, t, ht, hf⟩ := hends.completes
  obtain ⟨-, honce, -⟩ := hends.each_once moves t ht hf
  obtain ⟨u, v, hu, hv, huv⟩ := (nameDepends_build (a := "A") (b := "B") hg).mpr (by decide)
  have hvu := (nameDepends_iff hv hu).mp ((nameDepends_build hg).mpr (by decide))
  have hmet : u ∈ (build {} mutualDefinitions).ids := hg.mem_ids.mpr (lt_size_of_nameOf hu)
  exact ⟨hcard, hends, moves, t, u, v, ht, hf, hends.in_bounds _ _ _ ht, hu, hv,
    honce (.meet u) hmet, honce (.follow u v) huv, honce (.follow v u) hvu⟩

end DependencyGraph
end TypeGraph
