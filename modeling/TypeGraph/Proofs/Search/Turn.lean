/-
# Every turn of the search keeps the invariant

A turn follows one dependency of the innermost frame or leaves its definition.  There is one
lemma per kind of turn: the dependency leads to a definition that has not been met
(`Inv.meet_next`), to one on the stack (`Inv.note`), or to a settled one (`Inv.skip`); the
definition that is left has an incomplete component (`Inv.leave_incomplete`) or completes it
(`Inv.leave_complete`).  `Inv.step_met`, `Inv.step_unmet` and `Inv.step_leave` say what the turn does
in these cases to the path, to what has been met and to the components, and `Inv.step` puts them
together.
-/
import TypeGraph.Proofs.Search.Invariant

namespace TypeGraph
namespace Search

/-! ## Carrying segments over to a later state -/

/-- `t` knows at least what `s` knows: its numbers are those of `s`, its low numbers are no larger,
and nothing new is on its stack. -/
structure Refines (s t : Search) : Prop where
  met : ∀ u, s.Met u → t.Met u
  stack : ∀ u ∈ t.stack, u ∈ s.stack
  number : ∀ u, t.number u = s.number u
  low : ∀ u, t.low u ≤ s.low u

namespace Refines

theorem withFrames (s : Search) (frames : List Frame) :
    Refines s { s with frames := frames } :=
  ⟨fun _ h => h, fun _ h => h, fun _ => rfl, fun _ => Nat.le_refl _⟩

theorem trans {s t r : Search} (h : Refines s t) (h' : Refines t r) : Refines s r :=
  ⟨fun u hu => h'.met u (h.met u hu), fun u hu => h.stack u (h'.stack u hu),
    fun u => (h'.number u).trans (h.number u), fun u => Nat.le_trans (h'.low u) (h.low u)⟩

theorem lower (s : Search) (v : DefId) (k : Nat) : Refines s (s.lower v k) := by
  refine ⟨?_, ?_, s.number_lower v k, s.low_lower_le v k⟩
  · intro u hu
    exact (met_lower s v k u).mpr hu
  · intro u hu
    rwa [stack_lower] at hu

theorem emit {s : Search} {root : DefId} {above below : List DefId}
    (hstack : s.stack = above ++ root :: below) (hroot : root ∉ above) :
    Refines s (s.emit root) := by
  refine ⟨?_, ?_, s.number_emit root, ?_⟩
  · intro u hu
    exact (met_emit s root u).mpr hu
  · intro u hu
    rw [stack_emit hstack hroot] at hu
    rw [hstack]
    exact List.mem_append_right _ (List.mem_cons_of_mem _ hu)
  · intro u
    rw [low_emit]

end Refines

section Segments

variable {g : DependencyGraph} {s t : Search}

theorem Noted.of_le {v p w : DefId} (h : s.Noted v w) (hr : Refines s t)
    (hle : t.low p ≤ s.low v) : t.Noted p w := by
  refine ⟨hr.met w h.1, fun hw => ?_⟩
  rw [hr.number]
  exact Nat.le_trans hle (h.2 (hr.stack w hw))

/-- A finished definition of the segment of `v` goes over to the segment of a `p` that reaches `v`
and has taken over its low number. -/
theorem Finished.of_le {v p x : DefId} (h : s.Finished g v x) (hr : Refines s t)
    (hp : g.Reaches p v) (hle : t.low p ≤ s.low v) : t.Finished g p x := by
  refine ⟨hp.trans h.reached, ?_, fun w hw => (h.noted w hw).of_le hr hle⟩
  rw [hr.number]
  exact Nat.lt_of_le_of_lt (hr.low x) h.low_lt

theorem Segments.mono {path : List Frame} {stack : List DefId} (h : s.Segments g path stack)
    (hn : ∀ f ∈ path, ∀ w, s.Noted f.id w → t.Noted f.id w)
    (hl : ∀ x ∈ stack, s.low x < s.number x → t.low x < t.number x) :
    t.Segments g path stack := by
  induction h with
  | nil => exact .nil
  | @cons f path above below hf ha _ ih =>
      have hnoted := hn f List.mem_cons_self
      refine .cons ?_ ?_ (ih ?_ ?_)
      · intro w hw
        exact (hf w hw).imp_right (hnoted w)
      · intro x hx
        have hfin := ha x hx
        exact ⟨hfin.reached, hl x (List.mem_append_left _ hx) hfin.low_lt,
          fun w hw => hnoted w (hfin.noted w hw)⟩
      · intro f' hf'
        exact hn f' (List.mem_cons_of_mem _ hf')
      · intro x hx
        exact hl x (List.mem_append_right _ (List.mem_cons_of_mem _ hx))

theorem Segments.of_refines {path : List Frame} {stack : List DefId}
    (h : s.Segments g path stack) (hr : Refines s t) : t.Segments g path stack := by
  refine h.mono ?_ ?_
  · intro f _ w hw
    exact hw.of_le hr (hr.low f.id)
  · intro x _ hx
    rw [hr.number]
    exact Nat.lt_of_le_of_lt (hr.low x) hx

theorem Segments.sublist {path : List Frame} {stack : List DefId}
    (h : s.Segments g path stack) : (path.map Frame.id).Sublist stack := by
  induction h with
  | nil => exact .slnil
  | cons _ _ _ ih =>
      rw [List.map_cons]
      exact List.Sublist.trans (ih.cons_cons _) (List.sublist_append_right _ _)

theorem Segments.mem_stack {path : List Frame} {stack : List DefId}
    (h : s.Segments g path stack) {f : Frame} (hf : f ∈ path) : f.id ∈ stack :=
  h.sublist.subset (List.mem_map.mpr ⟨f, hf, rfl⟩)

end Segments

/-! ## Meeting a definition -/

section Meet

variable {g : DependencyGraph} {s : Search} {w : DefId}

/-- Meeting a definition spoils no note: its number is larger than every low number. -/
theorem noted_meet (hs : s.Ledger g) (hw : w.index < g.size) (hnew : ¬ s.Met w)
    (deps : List DefId) (frames : List Frame) {v : DefId} (hv : v ∈ s.stack) {u : DefId}
    (hu : u = w ∨ s.Noted v u) : (s.meet w deps frames).Noted v u := by
  have hlt : w.index < s.marks.size := by rwa [hs.marks_size]
  have hvne : v ≠ w := fun he => hnew (he ▸ hs.met_of_mem hv)
  have hlow : s.low v < s.counter :=
    Nat.lt_of_le_of_lt (hs.low_le v hv) (hs.number_lt v (hs.met_of_mem hv))
  by_cases huw : u = w
  · subst huw
    refine ⟨(met_meet hlt _ _ u).mpr (Or.inl rfl), fun _ => ?_⟩
    rw [low_meet_of_ne hlt _ _ hvne, number_meet_self hlt]
    exact Nat.le_of_lt hlow
  · obtain ⟨hmet, hle⟩ := hu.resolve_left huw
    refine ⟨(met_meet hlt _ _ u).mpr (Or.inr hmet), fun hmem => ?_⟩
    rw [low_meet_of_ne hlt _ _ hvne, number_meet_of_ne hlt _ _ huw]
    exact hle ((List.mem_cons.mp hmem).resolve_left huw)

theorem Segments.meet (hs : s.Ledger g) (hw : w.index < g.size) (hnew : ¬ s.Met w)
    (deps : List DefId) (frames : List Frame) {path : List Frame} {stack : List DefId}
    (h : s.Segments g path stack) (hsub : ∀ x ∈ stack, x ∈ s.stack) :
    (s.meet w deps frames).Segments g path stack := by
  have hlt : w.index < s.marks.size := by rwa [hs.marks_size]
  refine h.mono ?_ ?_
  · intro f hf u hu
    exact noted_meet hs hw hnew deps frames (hsub _ (h.mem_stack hf)) (Or.inr hu)
  · intro x hx hl
    have hne : x ≠ w := fun he => hnew (he ▸ hs.met_of_mem (hsub x hx))
    rwa [low_meet_of_ne hlt _ _ hne, number_meet_of_ne hlt _ _ hne]

theorem Segments.meet_cons {deps : List DefId} {frames path : List Frame} {stack : List DefId}
    (hdeps : g.dependencies w = .ok deps) (h : (s.meet w deps frames).Segments g path stack) :
    (s.meet w deps frames).Segments g (⟨w, deps⟩ :: path) (w :: stack) := by
  show (s.meet w deps frames).Segments g (⟨w, deps⟩ :: path) ([] ++ w :: stack)
  refine .cons ?_ (fun x hx => absurd hx List.not_mem_nil) h
  intro u hu
  exact Or.inl ((DependencyGraph.depends_iff_mem hdeps).mp hu)

theorem Inv.meet_root (hs : s.Inv g) (hf : s.frames = []) (hw : w.index < g.size)
    (hnew : ¬ s.Met w) {deps : List DefId} (hdeps : g.dependencies w = .ok deps) :
    (s.meet w deps []).Inv g := by
  have hseg := hs.segments
  rw [hf] at hseg
  refine ⟨hs.toLedger.meet hw hnew deps [], ?_, ?_, ?_⟩
  · exact (hseg.meet hs.toLedger hw hnew deps [] fun _ hx => hx).meet_cons hdeps
  · exact .singleton _
  · intro f hfm u hu
    rw [List.mem_singleton.mp hfm] at hu ⊢
    exact (DependencyGraph.depends_iff_mem hdeps).mpr hu

end Meet

/-! ## Following a dependency

The innermost frame `f` has `w` as its next dependency; afterwards `rest` is left.  The three
cases differ in the state that they go to, and share what happens to the frame. -/

section Follow

variable {g : DependencyGraph} {s : Search} {f : Frame} {path : List Frame} {w : DefId}
  {rest : List DefId}

theorem Segments.advance {stack : List DefId} (h : s.Segments g (f :: path) stack)
    (hrest : f.rest = w :: rest) (hw : s.Noted f.id w) :
    s.Segments g (⟨f.id, rest⟩ :: path) stack := by
  cases h with
  | cons hfd ha hb =>
      refine Segments.cons (f := ⟨f.id, rest⟩) ?_ ha hb
      intro u hu
      rcases hfd u hu with hu | hu
      · rw [hrest] at hu
        rcases List.mem_cons.mp hu with rfl | hu
        · exact Or.inr hw
        · exact Or.inl hu
      · exact Or.inr hu

theorem rest_depends_advance (h : ∀ f' ∈ f :: path, ∀ u ∈ f'.rest, g.Depends f'.id u)
    (hrest : f.rest = w :: rest) :
    ∀ f' ∈ (⟨f.id, rest⟩ : Frame) :: path, ∀ u ∈ f'.rest, g.Depends f'.id u := by
  intro f' hf' u hu
  rcases List.mem_cons.mp hf' with rfl | hf'
  · exact h f List.mem_cons_self u (hrest ▸ List.mem_cons_of_mem _ hu)
  · exact h f' (List.mem_cons_of_mem _ hf') u hu

theorem Inv.depends_next (hs : s.Inv g) (hf : s.frames = f :: path) (hrest : f.rest = w :: rest) :
    g.Depends f.id w :=
  hs.rest_depends f (hf ▸ List.mem_cons_self) w (hrest ▸ List.mem_cons_self)

/-- The dependency leads to a definition that has not been met, which becomes the innermost
frame. -/
theorem Inv.meet_next (hs : s.Inv g) (hf : s.frames = f :: path) (hrest : f.rest = w :: rest)
    (hw : w.index < g.size) (hnew : ¬ s.Met w) {deps : List DefId}
    (hdeps : g.dependencies w = .ok deps) :
    (s.meet w deps (⟨f.id, rest⟩ :: path)).Inv g := by
  have hseg := hs.segments
  have hchain := hs.path
  have hdep := hs.rest_depends
  have hmem := hseg.mem_stack (f := f) (hf ▸ List.mem_cons_self)
  rw [hf] at hseg hchain hdep
  refine ⟨hs.toLedger.meet hw hnew deps _, ?_, ?_, ?_⟩
  · have hnoted := noted_meet hs.toLedger hw hnew deps (⟨f.id, rest⟩ :: path) hmem (Or.inl rfl)
    have hseg' := hseg.meet hs.toLedger hw hnew deps (⟨f.id, rest⟩ :: path) fun _ hx => hx
    exact Segments.meet_cons hdeps (hseg'.advance hrest hnoted)
  · refine List.IsChain.cons_cons ?_ (List.IsChain.cons_of_imp (a := f) (fun _ hp => hp) hchain)
    exact hdep f List.mem_cons_self w (hrest ▸ List.mem_cons_self)
  · intro f' hf' u hu
    rcases List.mem_cons.mp hf' with rfl | hf'
    · exact (DependencyGraph.depends_iff_mem hdeps).mpr hu
    · exact rest_depends_advance hdep hrest f' hf' u hu

/-- The dependency leads to a definition that has been met: the frame moves on once the state
accounts for it. -/
theorem Inv.advance (hs : s.Inv g) (hf : s.frames = f :: path) (hrest : f.rest = w :: rest)
    {t : Search} (ht : t.Ledger g) (hr : Refines s t) (hframes : t.frames = ⟨f.id, rest⟩ :: path)
    (hstack : t.stack = s.stack) (hw : t.Noted f.id w) : t.Inv g := by
  have hseg := hs.segments.of_refines hr
  have hchain := hs.path
  have hdep := hs.rest_depends
  rw [hf] at hseg hchain hdep
  refine ⟨ht, ?_, ?_, ?_⟩
  · rw [hframes, hstack]
    exact hseg.advance hrest hw
  · rw [hframes]
    exact List.IsChain.cons_of_imp (a := f) (fun _ hp => hp) hchain
  · rw [hframes]
    exact rest_depends_advance hdep hrest

/-- A dependency on something that is on the stack lowers the low number of the frame. -/
theorem Inv.note (hs : s.Inv g) (hf : s.frames = f :: path) (hrest : f.rest = w :: rest)
    (hw : w ∈ s.stack) :
    (lower { s with frames := ⟨f.id, rest⟩ :: path } f.id (s.number w)).Inv g := by
  have hdep : g.Depends f.id w := hs.depends_next hf hrest
  have hr := (Refines.withFrames s (⟨f.id, rest⟩ :: path)).trans
    (Refines.lower _ f.id (s.number w))
  refine hs.advance hf hrest ?_ hr ?_ ?_ ?_
  · exact (hs.toLedger.withFrames _).lower hw (.single hdep)
  · exact frames_lower _ _ _
  · exact stack_lower _ _ _
  · refine ⟨hr.met w (hs.met_of_mem hw), fun _ => ?_⟩
    rw [hr.number]
    exact low_lower_self_le _ _ _

theorem Inv.skip (hs : s.Inv g) (hf : s.frames = f :: path) (hrest : f.rest = w :: rest)
    (hmet : s.Met w) (hw : w ∉ s.stack) :
    Inv g { s with frames := ⟨f.id, rest⟩ :: path } :=
  hs.advance hf hrest (hs.toLedger.withFrames _) (Refines.withFrames s _) rfl rfl
    ⟨hmet, fun h => absurd h hw⟩

end Follow

/-! ## Leaving a definition -/

theorem Segments.uncons {g : DependencyGraph} {s : Search} {f : Frame} {path : List Frame}
    {stack : List DefId} (h : s.Segments g (f :: path) stack) :
    ∃ above below, stack = above ++ f.id :: below ∧
      (∀ w, g.Depends f.id w → w ∈ f.rest ∨ s.Noted f.id w) ∧
      (∀ x ∈ above, Finished g s f.id x) ∧ s.Segments g path below := by
  cases h with
  | cons hfd ha hb => exact ⟨_, _, rfl, hfd, ha, hb⟩

section Raise

variable (s : Search) (low : Nat)

@[simp]
theorem stack_raise : (s.raise low).stack = s.stack := by
  unfold raise
  split
  · exact stack_lower _ _ _
  · rfl

@[simp]
theorem components_raise : (s.raise low).components = s.components := by
  unfold raise
  split
  · exact components_lower _ _ _
  · rfl

@[simp]
theorem size_raise : (s.raise low).marks.size = s.marks.size := by
  unfold raise
  split
  · exact size_lower _ _ _
  · rfl

@[simp]
theorem met_raise (u : DefId) : (s.raise low).Met u ↔ s.Met u := by
  unfold raise
  split
  · exact met_lower _ _ _ u
  · exact Iff.rfl

theorem Refines.raise : Refines s (s.raise low) := by
  unfold Search.raise
  split
  · exact .lower _ _ _
  · exact .withFrames s s.frames

variable {s} in
theorem low_raise_le {p : Frame} {path : List Frame} (hp : s.frames = p :: path) :
    (s.raise low).low p.id ≤ low := by
  unfold Search.raise
  simp only [hp]
  exact low_lower_self_le _ _ _

end Raise

section Leave

variable {g : DependencyGraph} {s : Search} {f : Frame} {path : List Frame}

/-- The definition below on the path reaches what the left one reaches. -/
theorem Inv.ledger_raise (hs : s.Inv g) (hf : s.frames = f :: path) :
    (raise { s with frames := path } (s.low f.id)).Ledger g := by
  cases path with
  | nil => exact hs.toLedger.withFrames []
  | cons p path' =>
      have hchain := hs.path
      rw [hf] at hchain
      have hdep : g.Depends p.id f.id := (List.isChain_cons_cons.mp hchain).1
      have hmem : f.id ∈ s.stack := hs.segments.mem_stack (hf ▸ List.mem_cons_self)
      obtain ⟨w, hw, hnum, hr⟩ := hs.low_reached f.id hmem
      rw [← hnum]
      exact (hs.toLedger.withFrames (p :: path')).lower hw (.head hdep hr)

/-- The outermost frame has nothing below it on the stack to reach. -/
theorem Inv.low_eq_of_outermost (hs : s.Inv g) (hf : s.frames = [f]) :
    s.low f.id = s.number f.id := by
  have hseg := hs.segments
  have hdesc := hs.descending
  rw [hf] at hseg
  obtain ⟨above, below, hst, -, -, hb⟩ := hseg.uncons
  cases hb
  rw [hst] at hdesc
  have hmem : f.id ∈ s.stack := hst ▸ List.mem_append_right _ List.mem_cons_self
  obtain ⟨w, hw, hnum, -⟩ := hs.low_reached f.id hmem
  have hle : s.number f.id ≤ s.number w := by
    rw [hst] at hw
    rcases List.mem_append.mp hw with hw | hw
    · exact Nat.le_of_lt ((List.pairwise_append.mp hdesc).2.2 w hw f.id List.mem_cons_self)
    · rw [List.mem_singleton.mp hw]
  exact Nat.le_antisymm (hs.low_le f.id hmem) (hnum ▸ hle)

/-- The segment of a definition that is left joins the segment below it, whose frame reaches it and
takes over its low number. -/
theorem Segments.join {t : Search} {p : Frame} {stack : List DefId}
    (h : s.Segments g (f :: p :: path) stack) (hrest : f.rest = []) (hr : Refines s t)
    (hpf : g.Reaches p.id f.id) (hle : t.low p.id ≤ s.low f.id)
    (hlt : s.low f.id < s.number f.id) : t.Segments g (p :: path) stack := by
  obtain ⟨above, below, rfl, hfd, ha, hb⟩ := h.uncons
  obtain ⟨above', below', rfl, hpd, ha', hb'⟩ := hb.uncons
  rw [← List.cons_append, ← List.append_assoc]
  refine .cons ?_ ?_ (hb'.of_refines hr)
  · intro w hw
    exact (hpd w hw).imp_right fun hn => hn.of_le hr (hr.low p.id)
  · intro x hx
    rcases List.mem_append.mp hx with hx | hx
    · exact (ha x hx).of_le hr hpf hle
    · rcases List.mem_cons.mp hx with rfl | hx
      · refine ⟨hpf, ?_, fun w hw => ?_⟩
        · rw [hr.number]
          exact Nat.lt_of_le_of_lt (hr.low f.id) hlt
        · have hnoted := (hfd w hw).resolve_left (hrest ▸ List.not_mem_nil)
          exact hnoted.of_le hr hle
      · exact (ha' x hx).of_le hr .refl (hr.low p.id)

/-- The definition reaches something below it on the stack: its component is not complete. -/
theorem Inv.leave_incomplete (hs : s.Inv g) (hf : s.frames = f :: path) (hrest : f.rest = [])
    (hlow : s.low f.id ≠ s.number f.id) :
    (raise { s with frames := path } (s.low f.id)).Inv g := by
  have hledger := hs.ledger_raise hf
  have hseg := hs.segments
  have hchain := hs.path
  have hdep := hs.rest_depends
  have hmem : f.id ∈ s.stack := hseg.mem_stack (hf ▸ List.mem_cons_self)
  cases path with
  | nil => exact absurd (hs.low_eq_of_outermost hf) hlow
  | cons p path' =>
      rw [hf] at hseg hchain hdep
      have hr := (Refines.withFrames s (p :: path')).trans (.raise _ (s.low f.id))
      obtain ⟨hpf, hchain'⟩ := List.isChain_cons_cons.mp hchain
      refine ⟨hledger, ?_, ?_, ?_⟩
      · rw [frames_raise, stack_raise]
        exact hseg.join hrest hr (.single hpf) (low_raise_le _ rfl)
          (Nat.lt_of_le_of_ne (hs.low_le f.id hmem) hlow)
      · rw [frames_raise]
        exact hchain'
      · rw [frames_raise]
        exact fun f' hf' => hdep f' (List.mem_cons_of_mem _ hf')

/-- The definition reaches nothing below it on the stack: its segment is complete. -/
theorem Inv.complete (hs : s.Inv g) (hf : s.frames = f :: path) (hrest : f.rest = [])
    (hlow : s.low f.id = s.number f.id) :
    ∃ above below,
      Complete g (raise { s with frames := path } (s.low f.id)) f.id above below ∧
        s.Segments g path below := by
  have hseg := hs.segments
  rw [hf] at hseg
  have hr := (Refines.withFrames s path).trans (.raise _ (s.low f.id))
  obtain ⟨above, below, hst, hfd, ha, hb⟩ := hseg.uncons
  have hnoted : ∀ x ∈ above ++ [f.id], ∀ w, g.Depends x w → s.Noted f.id w := by
    intro x hx w hw
    rcases List.mem_append.mp hx with hx | hx
    · exact (ha x hx).noted w hw
    · rw [List.mem_singleton.mp hx] at hw
      exact (hfd w hw).resolve_left (hrest ▸ List.not_mem_nil)
  refine ⟨above, below, ⟨(stack_raise _ _).trans hst, ?_, ?_, ?_⟩, hb⟩
  · exact fun x hx => (ha x hx).reached
  · intro x hx
    rw [hr.number]
    exact Nat.lt_of_le_of_lt (hr.low x) (ha x hx).low_lt
  · -- the low number of the root is its own, so what was noted lies in the segment
    intro x hx w hw
    obtain ⟨hmet, hle⟩ := hnoted x hx w hw
    refine ⟨hr.met w hmet, fun hm => ?_⟩
    rw [hr.number, hr.number, ← hlow]
    exact hle (hr.stack w hm)

/-- A complete segment is a component. -/
theorem Inv.leave_complete (hs : s.Inv g) (hf : s.frames = f :: path) (hrest : f.rest = [])
    (hlow : s.low f.id = s.number f.id) :
    (emit (raise { s with frames := path } (s.low f.id)) f.id).Inv g := by
  have hledger := hs.ledger_raise hf
  have hchain := hs.path
  have hdep := hs.rest_depends
  rw [hf] at hchain hdep
  have hr := (Refines.withFrames s path).trans (.raise _ (s.low f.id))
  obtain ⟨above, below, hcomplete, hb⟩ := hs.complete hf hrest hlow
  have hst := hcomplete.stack_eq
  have hroot := hcomplete.root_notMem hledger
  refine ⟨hledger.emit hcomplete, ?_, ?_, ?_⟩
  · rw [frames_emit, frames_raise, stack_emit hst hroot]
    exact hb.of_refines (hr.trans (.emit hst hroot))
  · rw [frames_emit, frames_raise]
    exact hchain.of_cons
  · rw [frames_emit, frames_raise]
    exact fun f' hf' => hdep f' (List.mem_cons_of_mem _ hf')

end Leave

/-! ## Any turn -/

section Turn

variable {g : DependencyGraph} {s : Search} {f : Frame} {path : List Frame}

theorem Inv.step_met (hs : s.Inv g) (hf : s.frames = f :: path) {w : DefId} {rest : List DefId}
    (hrest : f.rest = w :: rest) (hmet : s.Met w) :
    ∃ t, Search.step g { s with frames := path } f = .ok t ∧ t.Inv g ∧
      t.frames = ⟨f.id, rest⟩ :: path ∧ (∀ u, t.Met u ↔ s.Met u) ∧
      t.components = s.components := by
  obtain ⟨m, hm⟩ := met_iff.mp hmet
  have hstep : Search.step g { s with frames := path } f = .ok (if m.onStack
      then lower { s with frames := ⟨f.id, rest⟩ :: path } f.id m.index
      else { s with frames := ⟨f.id, rest⟩ :: path }) := by
    simp only [Search.step, hrest, follow, getElem?_of_mark hm]
  by_cases hon : m.onStack = true
  · have hws : w ∈ s.stack := (hs.flagged_iff w).mp ((flagged_of_mark hm).trans hon)
    rw [if_pos hon, ← number_of_mark hm] at hstep
    exact ⟨_, hstep, hs.note hf hrest hws, frames_lower _ _ _, fun u => met_lower _ _ _ u,
      components_lower _ _ _⟩
  · have hws : w ∉ s.stack := by
      rw [← hs.flagged_iff, flagged_of_mark hm]
      exact hon
    rw [if_neg hon] at hstep
    exact ⟨_, hstep, hs.skip hf hrest hmet hws, rfl, fun _ => Iff.rfl, rfl⟩

theorem Inv.step_unmet (hs : s.Inv g) (hf : s.frames = f :: path) {w : DefId} {rest : List DefId}
    (hrest : f.rest = w :: rest) (hw : w.index < g.size) (hnew : ¬ s.Met w) {deps : List DefId}
    (hdeps : g.dependencies w = .ok deps) :
    Search.step g { s with frames := path } f = .ok (s.meet w deps (⟨f.id, rest⟩ :: path)) ∧
      (s.meet w deps (⟨f.id, rest⟩ :: path)).Inv g := by
  have hlt : w.index < s.marks.size := by rwa [hs.marks_size]
  refine ⟨?_, hs.meet_next hf hrest hw hnew hdeps⟩
  simp only [Search.step, hrest, follow, getElem?_of_not_met hlt hnew]
  exact visit_eq hdeps _

/-- The turn that leaves a definition passes its low number on, and settles its component if the
definition reaches nothing below it on the stack. -/
theorem Inv.step_leave_eq (hs : s.Inv g) (hf : s.frames = f :: path) (hrest : f.rest = []) :
    Search.step g { s with frames := path } f = .ok (if s.low f.id = s.number f.id
      then emit (raise { s with frames := path } (s.low f.id)) f.id
      else raise { s with frames := path } (s.low f.id)) := by
  have hmem : f.id ∈ s.stack := hs.segments.mem_stack (hf ▸ List.mem_cons_self)
  obtain ⟨m, hm⟩ := met_iff.mp (hs.met_of_mem hmem)
  have hm' : mark? { s with frames := path } f.id = some m := hm
  simp only [Search.step, hrest, leave, hm', low_of_mark hm, number_of_mark hm]

theorem Inv.step_leave (hs : s.Inv g) (hf : s.frames = f :: path) (hrest : f.rest = []) :
    ∃ t, Search.step g { s with frames := path } f = .ok t ∧ t.Inv g ∧ t.frames = path ∧
      (∀ u, t.Met u ↔ s.Met u) ∧
      (t.components = s.components ∨
        ∃ above below, s.stack = above ++ f.id :: below ∧ s.Segments g path below ∧
          t.components.toList =
            s.components.toList ++ [(above ++ [f.id]).mergeSort DefId.atMost]) := by
  have hstep := hs.step_leave_eq hf hrest
  by_cases hlow : s.low f.id = s.number f.id
  · rw [if_pos hlow] at hstep
    obtain ⟨above, below, hcomplete, hb⟩ := hs.complete hf hrest hlow
    have hst := hcomplete.stack_eq
    have hroot := hcomplete.root_notMem (hs.ledger_raise hf)
    refine ⟨_, hstep, hs.leave_complete hf hrest hlow, by simp, fun u => ?_, Or.inr ?_⟩
    · exact (met_emit _ _ u).trans (met_raise _ _ u)
    · rw [components_emit hst hroot, components_raise]
      rw [stack_raise] at hst
      exact ⟨above, below, hst, hb, rfl⟩
  · rw [if_neg hlow] at hstep
    exact ⟨_, hstep, hs.leave_incomplete hf hrest hlow, by simp, fun u => met_raise _ _ u,
      Or.inl (components_raise _ _)⟩

/-- A turn succeeds, keeps the invariant, and forgets no definition that has been met. -/
theorem Inv.step (hg : g.WellFormed) (hs : s.Inv g) (hf : s.frames = f :: path) :
    ∃ t, Search.step g { s with frames := path } f = .ok t ∧ t.Inv g ∧
      ∀ u, s.Met u → t.Met u := by
  cases hrest : f.rest with
  | cons w rest =>
      by_cases hmet : s.Met w
      · obtain ⟨t, ht, hinv, -, hiff, -⟩ := hs.step_met hf hrest hmet
        exact ⟨t, ht, hinv, fun u => (hiff u).mpr⟩
      · have hw : w.index < g.size := (hg.depends_lt (hs.depends_next hf hrest)).2
        have hlt : w.index < s.marks.size := by rwa [hs.marks_size]
        obtain ⟨deps, hdeps⟩ := hg.dependencies_ok hw
        obtain ⟨ht, hinv⟩ := hs.step_unmet hf hrest hw hmet hdeps
        exact ⟨_, ht, hinv, fun u hu => (met_meet hlt _ _ u).mpr (Or.inr hu)⟩
  | nil =>
      obtain ⟨t, ht, hinv, -, hiff, -⟩ := hs.step_leave hf hrest
      exact ⟨t, ht, hinv, fun u => (hiff u).mpr⟩

end Turn

end Search
end TypeGraph
