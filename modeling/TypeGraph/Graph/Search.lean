/-
# Strongly connected components

A depth-first search that numbers the definitions in the order in which it meets them, keeps
those whose component is not settled on a stack, and settles a component when its first-met
member is left.  Components come out after everything they depend on.  The definitions whose
dependencies are still being followed form a list of frames, so the search is a loop over
explicit states: `Search.step` is one turn of it and `Search.run` goes on until no frame is left.
-/
import TypeGraph.Graph.Basic

namespace TypeGraph

/-- What the search knows of a definition that it has met. -/
structure Mark where
  /-- The number of the definition, in order of meeting. -/
  index : Nat
  /-- The least number on the stack that the definition is known to reach. -/
  low : Nat
  onStack : Bool

/-- A definition whose dependencies are being followed. -/
structure Frame where
  id : DefId
  /-- The dependencies that are still to be followed. -/
  rest : List DefId

/-- A state of the search. -/
structure Search where
  /-- How many definitions have been met. -/
  counter : Nat
  /-- The mark of each definition, none if it has not been met. -/
  marks : Array (Option Mark)
  /-- The definitions whose component is not settled, the last met first. -/
  stack : List DefId
  /-- The path of definitions being followed, the innermost first. -/
  frames : List Frame
  /-- The settled components, in order. -/
  components : Array (List DefId)

namespace Search

/-- Before anything is met. -/
def start (size : Nat) : Search := ⟨0, Array.replicate size none, [], [], #[]⟩

/-- The mark of a definition that has been met. -/
def mark? (s : Search) (v : DefId) : Option Mark := s.marks[v.index]?.join

/-- Changes the mark of a definition. -/
def setMark (s : Search) (v : DefId) (m : Mark) : Search :=
  { s with marks := s.marks.setIfInBounds v.index (some m) }

/-- Meets a definition: it gets the next number and goes on the stack and on the path. -/
def visit (g : DependencyGraph) (s : Search) (v : DefId) : Except Breach Search := do
  let rest ← g.dependencies v
  let met := s.setMark v ⟨s.counter, s.counter, true⟩
  return { met with
    counter := met.counter + 1
    stack := v :: met.stack
    frames := ⟨v, rest⟩ :: met.frames }

/-- Notes that a definition reaches a number on the stack. -/
def lower (s : Search) (v : DefId) (number : Nat) : Search :=
  match s.mark? v with
  | some m => s.setMark v { m with low := min m.low number }
  | none => s

/-- Follows the dependency of `v` on `w`. -/
def follow (g : DependencyGraph) (s : Search) (v w : DefId) : Except Breach Search :=
  match s.marks[w.index]? with
  | none => .error (.unknownId w)
  | some none => s.visit g w
  | some (some m) => .ok (if m.onStack then s.lower v m.index else s)

/-- Takes a definition off the stack. -/
def settle (s : Search) (v : DefId) : Search :=
  match s.mark? v with
  | some m => s.setMark v { m with onStack := false }
  | none => s

/-- Settles the component of `root`: all that is on the stack down to it, in order of ids. -/
def emit (s : Search) (root : DefId) : Search :=
  let below := s.stack.dropWhile (· ≠ root)
  let component := s.stack.takeWhile (· ≠ root) ++ below.take 1
  let settled := component.foldl settle s
  { settled with
    stack := below.drop 1
    components := settled.components.push (component.mergeSort DefId.atMost) }

/-- What a definition reaches is reached by the one that is followed before it. -/
def raise (s : Search) (low : Nat) : Search :=
  match s.frames with
  | parent :: _ => s.lower parent.id low
  | [] => s

/-- Leaves a definition whose dependencies are all followed.  If it reaches nothing met before it
that is still on the stack, its component is complete. -/
def leave (s : Search) (v : DefId) : Except Breach Search :=
  match s.mark? v with
  | none => .error (.unknownId v)
  | some m =>
    let s := s.raise m.low
    .ok (if m.low = m.index then s.emit v else s)

/-- One turn with the innermost frame, which has been taken off the path: its next dependency is
followed, or its definition is left. -/
def step (g : DependencyGraph) (s : Search) (frame : Frame) : Except Breach Search :=
  match frame.rest with
  | w :: rest => follow g { s with frames := ⟨frame.id, rest⟩ :: s.frames } frame.id w
  | [] => s.leave frame.id

/-! ## The search ends -/

/-- How many definitions have not been met. -/
def unmet (s : Search) : Nat := s.marks.countP Option.isNone

/-- How many turns the present frames call for. -/
def turns : List Frame → Nat
  | [] => 0
  | frame :: below => frame.rest.length + 1 + turns below

theorem unmet_setMark_of_met {s : Search} {v : DefId} {old : Mark} (h : s.mark? v = some old)
    (new : Mark) : (s.setMark v new).unmet = s.unmet := by
  simp only [mark?, Option.join_eq_some_iff, Array.getElem?_eq_some_iff] at h
  obtain ⟨hv, hm⟩ := h
  unfold unmet setMark
  rw [Array.setIfInBounds, dif_pos hv]
  show (s.marks.set v.index (some new) hv).countP Option.isNone = _
  rw [Array.countP_set, hm]
  rfl

theorem unmet_setMark_of_unmet {s : Search} {v : DefId} (h : s.marks[v.index]? = some none)
    (new : Mark) : (s.setMark v new).unmet < s.unmet := by
  obtain ⟨hv, hm⟩ := Array.getElem?_eq_some_iff.1 h
  have : 0 < s.marks.countP Option.isNone :=
    Array.countP_pos_iff.2 ⟨none, hm ▸ Array.getElem_mem hv, rfl⟩
  unfold unmet setMark
  rw [Array.setIfInBounds, dif_pos hv]
  show (s.marks.set v.index (some new) hv).countP Option.isNone < _
  rw [Array.countP_set, hm]
  show s.marks.countP Option.isNone - 1 + 0 < s.marks.countP Option.isNone
  omega

@[simp]
theorem frames_setMark (s : Search) (v : DefId) (m : Mark) :
    (s.setMark v m).frames = s.frames := rfl

@[simp]
theorem frames_lower (s : Search) (v : DefId) (number : Nat) :
    (s.lower v number).frames = s.frames := by
  unfold lower
  split <;> rfl

@[simp]
theorem unmet_lower (s : Search) (v : DefId) (number : Nat) :
    (s.lower v number).unmet = s.unmet := by
  unfold lower
  split
  · exact unmet_setMark_of_met (by assumption) _
  · rfl

@[simp]
theorem frames_settle (s : Search) (v : DefId) : (s.settle v).frames = s.frames := by
  unfold settle
  split <;> rfl

@[simp]
theorem unmet_settle (s : Search) (v : DefId) : (s.settle v).unmet = s.unmet := by
  unfold settle
  split
  · exact unmet_setMark_of_met (by assumption) _
  · rfl

theorem frames_foldl_settle (l : List DefId) (s : Search) :
    (l.foldl settle s).frames = s.frames := by
  induction l generalizing s with
  | nil => rfl
  | cons v rest ih => simp [ih]

theorem unmet_foldl_settle (l : List DefId) (s : Search) :
    (l.foldl settle s).unmet = s.unmet := by
  induction l generalizing s with
  | nil => rfl
  | cons v rest ih => simp [ih]

@[simp]
theorem frames_emit (s : Search) (root : DefId) : (s.emit root).frames = s.frames :=
  frames_foldl_settle _ s

@[simp]
theorem unmet_emit (s : Search) (root : DefId) : (s.emit root).unmet = s.unmet :=
  unmet_foldl_settle _ s

@[simp]
theorem frames_raise (s : Search) (low : Nat) : (s.raise low).frames = s.frames := by
  unfold raise
  split <;> simp

@[simp]
theorem unmet_raise (s : Search) (low : Nat) : (s.raise low).unmet = s.unmet := by
  unfold raise
  split <;> simp

theorem leave_frames_unmet {s t : Search} {v : DefId} (h : s.leave v = .ok t) :
    t.frames = s.frames ∧ t.unmet = s.unmet := by
  unfold leave at h
  split at h
  · simp at h
  · simp only [Except.ok.injEq] at h
    rw [← h]
    split <;> simp

theorem unmet_visit {g : DependencyGraph} {s t : Search} {w : DefId}
    (hw : s.marks[w.index]? = some none) (h : s.visit g w = .ok t) : t.unmet < s.unmet := by
  unfold visit at h
  cases hd : g.dependencies w with
  | error b => simp [hd, bind, Except.bind] at h
  | ok rest =>
    simp only [hd, bind, Except.bind, pure, Except.pure, Except.ok.injEq] at h
    rw [← h]
    exact unmet_setMark_of_unmet hw _

/-- Following a dependency meets a definition, or meets none and adds no frame. -/
theorem follow_lt {g : DependencyGraph} {s t : Search} {v w : DefId}
    (h : s.follow g v w = .ok t) :
    t.unmet < s.unmet ∨ t.unmet = s.unmet ∧ t.frames = s.frames := by
  unfold follow at h
  split at h
  · simp at h
  · exact .inl (unmet_visit (by assumption) h)
  · simp only [Except.ok.injEq] at h
    rw [← h]
    split <;> simp

/-- Each turn meets a definition or uses up one of the turns that the frames call for. -/
theorem step_lt {g : DependencyGraph} {s t : Search} {frame : Frame}
    (h : s.step g frame = .ok t) :
    t.unmet < s.unmet ∨ t.unmet = s.unmet ∧ turns t.frames < turns (frame :: s.frames) := by
  unfold step at h
  split at h
  · next w rest hr =>
    rcases follow_lt h with h | ⟨hu, hf⟩
    · exact .inl h
    · refine .inr ⟨hu, ?_⟩
      rw [hf]
      simp only [turns, hr, List.length_cons]
      omega
  · next hr =>
    obtain ⟨hf, hu⟩ := leave_frames_unmet h
    refine .inr ⟨hu, ?_⟩
    rw [hf]
    simp only [turns, hr, List.length_nil]
    omega

/-- Turns until no frame is left. -/
def run (g : DependencyGraph) (s : Search) : Except Breach Search :=
  match _hf : s.frames with
  | [] => .ok s
  | frame :: below =>
    match _ht : step g { s with frames := below } frame with
    | .error b => .error b
    | .ok t => t.run g
termination_by (s.unmet, turns s.frames)
decreasing_by
  rcases step_lt _ht with h | ⟨h, h'⟩
  · exact Prod.Lex.left _ _ h
  · have h : t.unmet = s.unmet := h
    rw [h, _hf]
    exact Prod.Lex.right _ h'

/-- Searches everything that a definition reaches, unless it has been met. -/
def connect (g : DependencyGraph) (s : Search) (root : DefId) : Except Breach Search :=
  match s.marks[root.index]? with
  | none => .error (.unknownId root)
  | some none => do (← s.visit g root).run g
  | some (some _) => .ok s

end Search

/-- The strongly connected components of a graph, each in order of ids, each after the ones it
depends on. -/
def DependencyGraph.components (g : DependencyGraph) : Except Breach (List (List DefId)) := do
  let s ← g.ids.foldlM (Search.connect g) (Search.start g.size)
  return s.components.toList

end TypeGraph
