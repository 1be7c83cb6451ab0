/-
# The moves of the search

The search for components meets definitions, follows dependencies and leaves definitions.
`Advance` is one step of the whole search, the sweep over the ids included, together with the moves
that it makes: an id that has been met is skipped, the search enters at one that has not, descends
along a dependency to a definition that has not been met, passes a dependency on one that has, or
leaves a definition.  `Performed g roots moves s` says that the search has made the moves `moves`
and stands at `s`, with the ids `roots` still to be started from.

A graph calls for a fixed list of moves (`courses`): every definition is met, its dependencies are
followed one by one, and it is left.  The account of the search is exact at every point: the moves
made and those outstanding are together the moves called for (`Performed.account`).  A step makes a
move or skips an id, so what is outstanding, with the ids to come, bounds the steps to come
(`Sweeping.acc`).  Until the search is over a step can be taken (`Sweeping.exists_advance`); when it
is over nothing is outstanding and every move has been made once (`Performed.complete`).

That these steps are those of the search, and of nothing else, is `Advance.resume`: a step does not
change what the search comes to from there.
-/
import TypeGraph.Proofs.Graph.Components

namespace TypeGraph

/-! ## The moves that a graph calls for -/

inductive Move where
  /-- The definition is met. -/
  | meet (v : DefId)
  /-- The dependency of `v` on `w` is followed. -/
  | follow (v w : DefId)
  /-- The definition is left, after all its dependencies have been followed. -/
  | leave (v : DefId)
deriving DecidableEq

/-- The move has to be made for the graph. -/
def Move.CalledFor (g : DependencyGraph) : Move → Prop
  | .meet v => v ∈ g.ids
  | .follow v w => g.Depends v w
  | .leave v => v ∈ g.ids

def Frame.outstanding (f : Frame) : List Move := f.rest.map (.follow f.id) ++ [.leave f.id]

namespace DependencyGraph

def course (g : DependencyGraph) (v : DefId) : List Move :=
  match g.dependencies v with
  | .ok deps => .meet v :: Frame.outstanding ⟨v, deps⟩
  | .error _ => []

def courses (g : DependencyGraph) : List Move := g.ids.flatMap g.course

theorem course_eq {g : DependencyGraph} {v : DefId} {deps : List DefId}
    (h : g.dependencies v = .ok deps) : g.course v = .meet v :: Frame.outstanding ⟨v, deps⟩ := by
  simp only [course, h]

section Courses

variable {g : DependencyGraph} {v : DefId} {deps : List DefId}

theorem mem_course_iff (h : g.dependencies v = .ok deps) {move : Move} :
    move ∈ g.course v ↔ move = .meet v ∨ (∃ w ∈ deps, move = .follow v w) ∨ move = .leave v := by
  simp only [course_eq h, Frame.outstanding, List.mem_cons, List.mem_append, List.mem_map,
    List.not_mem_nil, or_false, eq_comm]

theorem nodup_course (h : g.dependencies v = .ok deps) : (g.course v).Nodup := by
  obtain ⟨m, -, rfl⟩ := dependencies_eq_ok_iff.mp h
  have hfollow : (m.dependencies.toList.map (Move.follow v)).Nodup :=
    m.dependencies.nodup_toList.map fun _ _ he => (Move.follow.inj he).2
  simp only [course_eq h, Frame.outstanding, List.nodup_cons, List.nodup_append, hfollow]
  simp

variable (hg : g.WellFormed)

include hg

theorem mem_courses_iff {move : Move} : move ∈ g.courses ↔ move.CalledFor g := by
  rw [courses, List.mem_flatMap]
  constructor
  · rintro ⟨v, hv, hmove⟩
    obtain ⟨deps, hdeps⟩ := hg.dependencies_ok (hg.mem_ids.mp hv)
    rcases (mem_course_iff hdeps).mp hmove with rfl | ⟨w, hw, rfl⟩ | rfl
    · exact hv
    · exact ⟨deps, hdeps, hw⟩
    · exact hv
  · intro hmove
    match move, hmove with
    | .meet v, hv =>
        obtain ⟨deps, hdeps⟩ := hg.dependencies_ok (hg.mem_ids.mp hv)
        exact ⟨v, hv, (mem_course_iff hdeps).mpr (Or.inl rfl)⟩
    | .follow v w, hvw =>
        obtain ⟨deps, hdeps, hw⟩ := id hvw
        exact ⟨v, hg.mem_ids.mpr (hg.depends_lt hvw).1,
          (mem_course_iff hdeps).mpr (Or.inr (Or.inl ⟨w, hw, rfl⟩))⟩
    | .leave v, hv =>
        obtain ⟨deps, hdeps⟩ := hg.dependencies_ok (hg.mem_ids.mp hv)
        exact ⟨v, hv, (mem_course_iff hdeps).mpr (Or.inr (Or.inr rfl))⟩

theorem nodup_courses : g.courses.Nodup := by
  refine List.nodup_flatMap.mpr ⟨fun v hv => ?_, ?_⟩
  · obtain ⟨deps, hdeps⟩ := hg.dependencies_ok (hg.mem_ids.mp hv)
    exact nodup_course hdeps
  · refine List.Pairwise.imp_of_mem (fun {u v} hu hv hne => ?_) hg.nodup_ids
    obtain ⟨deps, hdeps⟩ := hg.dependencies_ok (hg.mem_ids.mp hu)
    obtain ⟨deps', hdeps'⟩ := hg.dependencies_ok (hg.mem_ids.mp hv)
    intro move hmu hmv
    rcases (mem_course_iff hdeps).mp hmu with rfl | ⟨w, -, rfl⟩ | rfl <;>
      simp [mem_course_iff hdeps', hne] at hmv

end Courses

end DependencyGraph

namespace Search

/-! ## The steps of the search -/

/-- One step of the search: the ids to be started from and the state before it, the moves that it
makes, and the ids and the state after it. -/
inductive Advance (g : DependencyGraph) :
    List DefId → Search → List Move → List DefId → Search → Prop where
  /-- The next id of the sweep has been met. -/
  | skip {root : DefId} {roots : List DefId} {s : Search} {m : Mark} (hf : s.frames = [])
      (hroot : s.marks[root.index]? = some (some m)) : Advance g (root :: roots) s [] roots s
  /-- The search starts from the next id of the sweep, which has not been met. -/
  | enter {root : DefId} {roots : List DefId} {s t : Search} (hf : s.frames = [])
      (hroot : s.marks[root.index]? = some none) (ht : s.visit g root = .ok t) :
      Advance g (root :: roots) s [.meet root] roots t
  /-- The next dependency leads to a definition that has not been met. -/
  | descend {roots rest : List DefId} {s t : Search} {v w : DefId} {path : List Frame}
      (hf : s.frames = ⟨v, w :: rest⟩ :: path) (hw : s.marks[w.index]? = some none)
      (ht : visit g { s with frames := ⟨v, rest⟩ :: path } w = .ok t) :
      Advance g roots s [.follow v w, .meet w] roots t
  /-- The next dependency leads to a definition that has been met. -/
  | pass {roots rest : List DefId} {s t : Search} {v w : DefId} {path : List Frame} {m : Mark}
      (hf : s.frames = ⟨v, w :: rest⟩ :: path) (hw : s.marks[w.index]? = some (some m))
      (ht : follow g { s with frames := ⟨v, rest⟩ :: path } v w = .ok t) :
      Advance g roots s [.follow v w] roots t
  /-- No dependency is left. -/
  | leave {roots : List DefId} {s t : Search} {v : DefId} {path : List Frame}
      (hf : s.frames = ⟨v, []⟩ :: path) (ht : leave { s with frames := path } v = .ok t) :
      Advance g roots s [.leave v] roots t

/-- The search for components has made these moves and has come to this state, with these ids still
to be started from. -/
inductive Performed (g : DependencyGraph) : List DefId → List Move → Search → Prop where
  | start : Performed g g.ids [] (start g.size)
  | advance {roots roots' : List DefId} {moves more : List Move} {s t : Search}
      (h : Performed g roots moves s) (ha : Advance g roots s more roots' t) :
      Performed g roots' (moves ++ more) t

/-- The rest of the search: the path is followed to its end, and then the sweep goes on. -/
def resume (g : DependencyGraph) (roots : List DefId) (s : Search) : Except Breach Search := do
  roots.foldlM (connect g) (← s.run g)

section Resume

variable {g : DependencyGraph} {roots roots' : List DefId} {moves : List Move} {s t : Search}

theorem resume_of_nil (hf : s.frames = []) : resume g roots s = roots.foldlM (connect g) s := by
  simp only [resume, run_nil hf, bind, Except.bind]

theorem resume_of_step {f : Frame} {path : List Frame} (hf : s.frames = f :: path)
    (ht : step g { s with frames := path } f = .ok t) : resume g roots s = resume g roots t := by
  simp only [resume, run_cons hf ht]

theorem Advance.resume (h : Advance g roots s moves roots' t) :
    Search.resume g roots s = Search.resume g roots' t := by
  cases h with
  | skip hf hroot =>
      rw [resume_of_nil hf, resume_of_nil hf, List.foldlM_cons]
      simp only [connect, hroot, bind, Except.bind]
  | enter hf hroot ht =>
      rw [resume_of_nil hf, List.foldlM_cons]
      simp only [connect, hroot, ht, Search.resume, bind, Except.bind]
  | descend hf hw ht =>
      refine resume_of_step hf ?_
      simp only [step, Search.follow, hw]
      exact ht
  | pass hf _ ht => exact resume_of_step hf ht
  | leave hf ht => exact resume_of_step hf ht

theorem Performed.components (h : Performed g roots moves s) :
    g.components = (return (← Search.resume g roots s).components.toList) := by
  induction h with
  | start =>
      rw [resume_of_nil rfl]
      rfl
  | advance _ ha ih => rw [ih, ha.resume]

end Resume

/-! ## The account -/

def unmetIds (g : DependencyGraph) (s : Search) : List DefId :=
  g.ids.filter fun v => !(s.mark? v).isSome

/-- The moves that the frames and the definitions that have not been met call for. -/
def outstanding (g : DependencyGraph) (s : Search) : List Move :=
  s.frames.flatMap Frame.outstanding ++ (s.unmetIds g).flatMap g.course

/-- Between two steps the invariant holds, and what has not been met is still to come in the
sweep. -/
structure Sweeping (g : DependencyGraph) (roots : List DefId) (s : Search) : Prop extends
    Inv g s where
  roots_lt : ∀ v ∈ roots, v.index < g.size
  to_come : ∀ v ∈ s.unmetIds g, v ∈ roots

section Account

variable {g : DependencyGraph} {roots roots' : List DefId} {moves : List Move} {s t : Search}

theorem mem_unmetIds {v : DefId} : v ∈ s.unmetIds g ↔ v ∈ g.ids ∧ ¬ s.Met v := by
  simp only [unmetIds, List.mem_filter, Met, Bool.not_eq_eq_eq_not, Bool.not_true,
    Bool.not_eq_true]

theorem unmetIds_congr (hmet : ∀ u, t.Met u ↔ s.Met u) : t.unmetIds g = s.unmetIds g := by
  have hmark : ∀ u, (t.mark? u).isSome = (s.mark? u).isSome := fun u => Bool.eq_iff_iff.mpr (hmet u)
  simp only [unmetIds, hmark]

theorem nodup_unmetIds (hg : g.WellFormed) : (s.unmetIds g).Nodup := hg.nodup_ids.filter _

section Meet

variable (hg : g.WellFormed) (hsize : s.marks.size = g.size) {w : DefId} (hw : w.index < g.size)

include hsize hw

theorem mem_unmetIds_meet (deps : List DefId) (frames : List Frame) {v : DefId} :
    v ∈ (s.meet w deps frames).unmetIds g ↔ v ≠ w ∧ v ∈ s.unmetIds g := by
  rw [mem_unmetIds, mem_unmetIds, met_meet (hsize ▸ hw)]
  grind

include hg

theorem unmetIds_meet (hnew : ¬ s.Met w) (deps : List DefId) (frames : List Frame) :
    (s.unmetIds g).Perm (w :: (s.meet w deps frames).unmetIds g) := by
  have hnodup : (w :: (s.meet w deps frames).unmetIds g).Nodup :=
    List.nodup_cons.mpr ⟨fun h => ((mem_unmetIds_meet hsize hw deps frames).mp h).1 rfl,
      nodup_unmetIds hg⟩
  refine (List.perm_ext_iff_of_nodup (nodup_unmetIds hg) hnodup).mpr fun v => ?_
  rw [List.mem_cons, mem_unmetIds_meet hsize hw]
  have hmem : w ∈ s.unmetIds g := mem_unmetIds.mpr ⟨hg.mem_ids.mpr hw, hnew⟩
  grind

/-- The course of a definition that is met stays in the account: its meeting is made, and the rest
is what its frame calls for. -/
theorem outstanding_meet (hnew : ¬ s.Met w) {deps : List DefId}
    (hdeps : g.dependencies w = .ok deps) (frames : List Frame) :
    (outstanding g { s with frames := frames }).Perm
      (.meet w :: (s.meet w deps frames).outstanding g) := by
  have hcourses : ((s.unmetIds g).flatMap g.course).Perm
      (g.course w ++ ((s.meet w deps frames).unmetIds g).flatMap g.course) :=
    (unmetIds_meet hg hsize hw hnew deps frames).flatMap_right g.course
  have hframes : (s.meet w deps frames).outstanding g =
      (Frame.outstanding ⟨w, deps⟩ ++ frames.flatMap Frame.outstanding) ++
        ((s.meet w deps frames).unmetIds g).flatMap g.course := rfl
  -- the meeting and the new frame are the course of `w`, which comes before the other frames
  rw [hframes, List.append_assoc, ← List.cons_append, ← DependencyGraph.course_eq hdeps]
  exact (hcourses.append_left _).trans (List.perm_append_comm_assoc _ _ _)

end Meet

theorem outstanding_congr {frames : List Frame} (hf : t.frames = frames)
    (hmet : ∀ u, t.Met u ↔ s.Met u) :
    t.outstanding g = outstanding g { s with frames := frames } := by
  rw [outstanding, hf, unmetIds_congr hmet]
  rfl

theorem outstanding_follow {v w : DefId} {rest : List DefId} {path : List Frame}
    (hf : s.frames = ⟨v, w :: rest⟩ :: path) :
    s.outstanding g = .follow v w :: outstanding g { s with frames := ⟨v, rest⟩ :: path } := by
  rw [outstanding, hf]
  rfl

theorem outstanding_leave {v : DefId} {path : List Frame} (hf : s.frames = ⟨v, []⟩ :: path) :
    s.outstanding g = .leave v :: outstanding g { s with frames := path } := by
  rw [outstanding, hf]
  rfl

theorem Sweeping.of_inv (hs : s.Sweeping g roots) (ht : t.Inv g) (hmet : ∀ u, s.Met u → t.Met u) :
    t.Sweeping g roots := by
  refine ⟨ht, hs.roots_lt, fun v hv => hs.to_come v ?_⟩
  rw [mem_unmetIds] at hv ⊢
  exact ⟨hv.1, mt (hmet v) hv.2⟩

theorem Sweeping.tail {root : DefId} (hs : s.Sweeping g (root :: roots)) (hmet : s.Met root) :
    s.Sweeping g roots := by
  refine ⟨hs.toInv, fun v hv => hs.roots_lt v (List.mem_cons_of_mem _ hv), fun v hv => ?_⟩
  rcases List.mem_cons.mp (hs.to_come v hv) with rfl | hroots
  · exact absurd hmet (mem_unmetIds.mp hv).2
  · exact hroots

/-- A step keeps the sweep in order, and what was outstanding before it are its moves and what is
outstanding after it. -/
theorem Advance.account (hg : g.WellFormed) (hs : s.Sweeping g roots)
    (h : Advance g roots s moves roots' t) :
    t.Sweeping g roots' ∧ (s.outstanding g).Perm (moves ++ t.outstanding g) := by
  cases h with
  | skip hf hroot => exact ⟨hs.tail (met_of_mark (mark?_of_getElem? hroot)), .refl _⟩
  | @enter root _ _ _ hf hroot ht =>
      have hlt : root.index < g.size := hs.roots_lt root List.mem_cons_self
      have hsize : root.index < s.marks.size := by rwa [hs.marks_size]
      have hnew : ¬ s.Met root := not_met_of_getElem? hroot
      obtain ⟨deps, hdeps⟩ := hg.dependencies_ok hlt
      rw [visit_eq hdeps, hf] at ht
      cases ht
      -- the id that the search enters at has been met by now, and goes off the sweep
      have hmet : ∀ u, (s.meet root deps []).Met u ↔ u = root ∨ s.Met u := met_meet hsize deps []
      have hsweep := hs.of_inv (hs.meet_root hf hlt hnew hdeps) fun u hu => (hmet u).mpr (Or.inr hu)
      refine ⟨hsweep.tail ((hmet root).mpr (Or.inl rfl)), ?_⟩
      rw [outstanding_congr hf fun _ => Iff.rfl]
      exact outstanding_meet hg hs.marks_size hlt hnew hdeps []
  | @descend _ rest _ _ v w path hf hw ht =>
      have hlt : w.index < g.size := (hg.depends_lt (hs.depends_next hf rfl)).2
      have hsize : w.index < s.marks.size := by rwa [hs.marks_size]
      have hnew : ¬ s.Met w := not_met_of_getElem? hw
      obtain ⟨deps, hdeps⟩ := hg.dependencies_ok hlt
      rw [visit_eq hdeps] at ht
      cases ht
      refine ⟨hs.of_inv (hs.meet_next hf rfl hlt hnew hdeps) fun u hu => ?_, ?_⟩
      · exact (met_meet hsize deps _ u).mpr (Or.inr hu)
      · rw [outstanding_follow hf]
        exact (outstanding_meet hg hs.marks_size hlt hnew hdeps _).cons _
  | pass hf hw ht =>
      obtain ⟨t', ht', hinv, hframes, hmet, -⟩ :=
        hs.step_met hf rfl (met_of_mark (mark?_of_getElem? hw))
      cases ht.symm.trans ht'
      refine ⟨hs.of_inv hinv fun u => (hmet u).mpr, ?_⟩
      rw [outstanding_follow hf, outstanding_congr hframes hmet]
      exact .refl _
  | leave hf ht =>
      obtain ⟨t', ht', hinv, hframes, hmet, -⟩ := hs.step_leave hf rfl
      cases ht.symm.trans ht'
      refine ⟨hs.of_inv hinv fun u => (hmet u).mpr, ?_⟩
      rw [outstanding_leave hf, outstanding_congr hframes hmet]
      exact .refl _

theorem sweeping_start (hg : g.WellFormed) : (start g.size).Sweeping g g.ids :=
  ⟨inv_start g, fun _ hv => hg.mem_ids.mp hv, fun _ hv => (mem_unmetIds.mp hv).1⟩

theorem outstanding_start (g : DependencyGraph) : (start g.size).outstanding g = g.courses := by
  have hnone : ∀ v, ((start g.size).mark? v).isSome = false := fun v =>
    Bool.eq_false_iff.mpr fun hmet => absurd ((inv_start g).number_lt v hmet) (Nat.not_lt_zero _)
  simp only [outstanding, unmetIds, hnone, Bool.not_false, List.filter_true]
  rfl

/-- The moves made and the moves outstanding are together the moves called for: by induction on the
steps so far. -/
theorem Performed.account (hg : g.WellFormed) (h : Performed g roots moves s) :
    s.Sweeping g roots ∧ (moves ++ s.outstanding g).Perm g.courses := by
  induction h with
  | start => exact ⟨sweeping_start hg, by rw [outstanding_start, List.nil_append]⟩
  | advance _ ha ih =>
      obtain ⟨hs, hperm⟩ := ih
      obtain ⟨ht, hstep⟩ := ha.account hg hs
      refine ⟨ht, ?_⟩
      rw [List.append_assoc]
      exact (hstep.symm.append_left _).trans hperm

end Account

/-! ## The search ends -/

def StepAfter (g : DependencyGraph) (b a : List DefId × Search) : Prop :=
  ∃ moves, Advance g a.1 a.2 moves b.1 b.2

section Ends

variable {g : DependencyGraph} {roots roots' : List DefId} {moves : List Move} {s t : Search}

theorem Sweeping.exists_advance (hg : g.WellFormed) (hs : s.Sweeping g roots)
    (hmore : ¬ (roots = [] ∧ s.frames = [])) :
    ∃ moves roots' t, Advance g roots s moves roots' t := by
  match hf : s.frames with
  | [] =>
      match roots, hs with
      | [], _ => exact absurd ⟨rfl, hf⟩ hmore
      | root :: roots, hs =>
          have hlt : root.index < g.size := hs.roots_lt root List.mem_cons_self
          by_cases hmet : s.Met root
          · obtain ⟨m, hm⟩ := met_iff.mp hmet
            exact ⟨_, _, _, .skip hf (getElem?_of_mark hm)⟩
          · obtain ⟨deps, hdeps⟩ := hg.dependencies_ok hlt
            exact ⟨_, _, _, .enter hf (getElem?_of_not_met (hs.marks_size ▸ hlt) hmet)
              (visit_eq hdeps s)⟩
  | ⟨v, []⟩ :: path =>
      obtain ⟨t, ht, -⟩ := hs.step_leave hf rfl
      exact ⟨_, _, t, .leave hf ht⟩
  | ⟨v, w :: rest⟩ :: path =>
      by_cases hmet : s.Met w
      · obtain ⟨t, ht, -⟩ := hs.step_met hf rfl hmet
        obtain ⟨m, hm⟩ := met_iff.mp hmet
        exact ⟨_, _, t, .pass hf (getElem?_of_mark hm) ht⟩
      · have hlt : w.index < g.size := (hg.depends_lt (hs.depends_next hf rfl)).2
        obtain ⟨deps, hdeps⟩ := hg.dependencies_ok hlt
        exact ⟨_, _, _, .descend hf (getElem?_of_not_met (hs.marks_size ▸ hlt) hmet)
          (visit_eq hdeps _)⟩

theorem Advance.length_lt (h : Advance g roots s moves roots' t) :
    roots'.length < roots.length + moves.length := by
  cases h <;> simp only [List.length_cons, List.length_nil] <;> omega

/-- From anywhere in the search only finitely many steps can be taken: each leaves fewer ids to come
or fewer moves outstanding. -/
theorem Sweeping.acc (hg : g.WellFormed) (hs : s.Sweeping g roots) :
    Acc (StepAfter g) (roots, s) := by
  -- a skip leaves the account alone and shortens the sweep, any other step shortens the account
  generalize hn : roots.length + (s.outstanding g).length = n
  induction n using Nat.strongRecOn generalizing roots s with
  | ind n ih =>
      refine .intro _ ?_
      rintro ⟨roots', t⟩ ⟨moves, ha⟩
      replace ha : Advance g roots s moves roots' t := ha
      obtain ⟨ht, hperm⟩ := ha.account hg hs
      have hlen := hperm.length_eq
      have hlt := ha.length_lt
      rw [List.length_append] at hlen
      exact ih _ (by omega) ht rfl

theorem Performed.exists_complete (hg : g.WellFormed) (h : Performed g roots moves s) :
    ∃ moves t, Performed g [] moves t ∧ t.frames = [] := by
  have hacc := (h.account hg).1.acc hg
  generalize hpoint : (roots, s) = point at hacc
  induction hacc generalizing roots moves s with
  | intro point _ ih =>
      subst hpoint
      by_cases hend : roots = [] ∧ s.frames = []
      · obtain ⟨rfl, hf⟩ := hend
        exact ⟨moves, s, h, hf⟩
      · obtain ⟨more, roots', t, ha⟩ := (h.account hg).1.exists_advance hg hend
        exact ih (roots', t) ⟨more, ha⟩ (h.advance ha) rfl

theorem Sweeping.outstanding_eq_nil (hs : s.Sweeping g []) (hf : s.frames = []) :
    s.outstanding g = [] := by
  have hunmet : s.unmetIds g = [] :=
    List.eq_nil_iff_forall_not_mem.mpr fun v hv => absurd (hs.to_come v hv) List.not_mem_nil
  rw [outstanding, hf, hunmet]
  rfl

/-- A search that is over has the components, and has made every move that the graph calls for
exactly once and no other. -/
theorem Performed.complete (hg : g.WellFormed) (h : Performed g [] moves s) (hf : s.frames = []) :
    g.components = .ok s.components.toList ∧
      (∀ move, move.CalledFor g → moves.count move = 1) ∧ ∀ move ∈ moves, move.CalledFor g := by
  obtain ⟨hs, hperm⟩ := h.account hg
  rw [hs.outstanding_eq_nil hf, List.append_nil] at hperm
  refine ⟨?_, fun move hmove => ?_, fun move hmove => ?_⟩
  · rw [h.components, resume_of_nil hf]
    rfl
  · rw [hperm.count_eq]
    exact List.count_eq_one_of_mem (DependencyGraph.nodup_courses hg)
      ((DependencyGraph.mem_courses_iff hg).mpr hmove)
  · exact (DependencyGraph.mem_courses_iff hg).mp (hperm.mem_iff.mp hmove)

end Ends

end Search
end TypeGraph
