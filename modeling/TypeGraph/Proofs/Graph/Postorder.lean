/-
# Components come in postorder

`explore` is depth-first search by plain recursion: it goes through a list of definitions, skips
those that have been visited, and lists each of the others after everything that was visited from
it.  `postorder` starts it at all ids in order.

The search for components walks the same way with an explicit path.  A frame of the path is a call
of `explore` that has not returned: following a dependency that leads to something new is a call,
and leaving a definition is the return from it.  So from a frame with dependencies still to follow,
the search gets to the same frame with none left, and on the way it leaves what `explore` lists, in
that order (`HasLeft.explore`).

A component is complete when its last definition is left (`CompletedAlong`).  Hence components come
out in the order of their last definitions in the postorder (`CompletedAlong.increasing`), and if
each is a single definition they are the postorder (`CompletedAlong.flatten_sublist`).
-/
import TypeGraph.Proofs.Graph.RootCause

namespace TypeGraph

/-! ## Depth-first search by recursion -/

namespace DependencyGraph

def unvisited (visited : List DefId) : Nat :=
  UInt32.size - (visited.map DefId.index).toFinset.card

theorem unvisited_lt {visited more : List DefId} (hsub : visited ⊆ more) {v : DefId}
    (hv : v ∉ visited) (hmore : v ∈ more) : unvisited more < unvisited visited := by
  have hlt : (visited.map DefId.index).toFinset.card < (more.map DefId.index).toFinset.card := by
    refine Finset.card_lt_card ((Finset.ssubset_iff_of_subset ?_).mpr ⟨v.index, ?_, ?_⟩)
    · intro i hi
      rw [List.mem_toFinset] at hi ⊢
      exact List.map_subset _ hsub hi
    · exact List.mem_toFinset.mpr (List.mem_map_of_mem hmore)
    · intro hi
      obtain ⟨u, hu, hui⟩ := List.mem_map.mp (List.mem_toFinset.mp hi)
      exact hv (DefId.index_injective hui ▸ hu)
  have hle : (more.map DefId.index).toFinset.card ≤ UInt32.size := by
    rw [← Finset.card_range UInt32.size]
    refine Finset.card_le_card fun i hi => ?_
    obtain ⟨u, -, rfl⟩ := List.mem_map.mp (List.mem_toFinset.mp hi)
    exact Finset.mem_range.mpr u.index_lt
  unfold unvisited
  omega

/-- The definitions of the list `todo` and what is visited from them, each after everything that is
visited from it.  The definitions of `visited` are skipped. -/
def explore (g : DependencyGraph) (visited todo : List DefId) : Except Breach (List DefId) :=
  match todo with
  | [] => return []
  | v :: rest =>
    if v ∈ visited then g.explore visited rest
    else do
      let inner ← g.explore (v :: visited) (← g.dependencies v)
      -- all that has been visited from `v` is done by now
      return inner ++ v :: (← g.explore (inner ++ v :: visited) rest)
termination_by (unvisited visited, todo.length)
decreasing_by
  · exact Prod.Lex.right _ (Nat.lt_succ_self _)
  · exact Prod.Lex.left _ _ (unvisited_lt (List.subset_cons_self _ _) ‹_› List.mem_cons_self)
  · refine Prod.Lex.left _ _ (unvisited_lt (v := v) ?_ ‹_› (by simp))
    intro u hu
    simp [hu]

/-- The definitions of a graph in the order in which a depth-first search is done with them. -/
def postorder (g : DependencyGraph) : Except Breach (List DefId) := g.explore [] g.ids

section Explore

variable {g : DependencyGraph} {visited rest : List DefId} {v : DefId}

theorem explore_nil (visited : List DefId) : g.explore visited [] = .ok [] := by
  rw [explore]
  rfl

theorem explore_of_mem (h : v ∈ visited) :
    g.explore visited (v :: rest) = g.explore visited rest := by
  rw [explore, if_pos h]

theorem explore_of_notMem (h : v ∉ visited) {deps inner out : List DefId}
    (hdeps : g.dependencies v = .ok deps) (hinner : g.explore (v :: visited) deps = .ok inner)
    (hout : g.explore (inner ++ v :: visited) rest = .ok out) :
    g.explore visited (v :: rest) = .ok (inner ++ v :: out) := by
  rw [explore, if_neg h]
  simp only [hdeps, hinner, hout, bind, Except.bind, pure, Except.pure]

end Explore

end DependencyGraph

/-! ## Completing components while leaving definitions -/

/-- The components `cs` were completed while the definitions `post` were left, in this order.  A
component is completed by leaving the last of its members. -/
inductive CompletedAlong : List (List DefId) → List DefId → Prop where
  | nil : CompletedAlong [] []
  | leave {cs : List (List DefId)} {post : List DefId} (h : CompletedAlong cs post) (v : DefId) :
      CompletedAlong cs (post ++ [v])
  | complete {cs : List (List DefId)} {post : List DefId} (h : CompletedAlong cs post)
      {c : List DefId} {v : DefId} (hv : v ∈ c) (hc : ∀ u ∈ c, u ∈ post ++ [v]) :
      CompletedAlong (cs ++ [c]) (post ++ [v])

def lastPlace (post c : List DefId) : Nat := (c.map post.idxOf).max?.getD 0

theorem lastPlace_append {post c : List DefId} (h : ∀ u ∈ c, u ∈ post) (more : List DefId) :
    lastPlace (post ++ more) c = lastPlace post c := by
  have hplaces : c.map (post ++ more).idxOf = c.map post.idxOf :=
    List.map_congr_left fun u hu => List.idxOf_append_of_mem (h u hu)
  rw [lastPlace, hplaces, lastPlace]

theorem lastPlace_lt_length {post c : List DefId} (h : ∀ u ∈ c, u ∈ post) (hc : c ≠ []) :
    lastPlace post c < post.length := by
  cases hmax : (c.map post.idxOf).max? with
  | none => exact absurd (List.map_eq_nil_iff.mp (List.max?_eq_none_iff.mp hmax)) hc
  | some place =>
      obtain ⟨u, hu, rfl⟩ := List.mem_map.mp (List.max?_mem hmax)
      rw [lastPlace, hmax, Option.getD_some]
      exact List.idxOf_lt_length_of_mem (h u hu)

namespace CompletedAlong

variable {cs : List (List DefId)} {post : List DefId}

theorem mem_post (h : CompletedAlong cs post) : ∀ c ∈ cs, c ≠ [] ∧ ∀ u ∈ c, u ∈ post := by
  induction h with
  | nil => exact fun _ hc => absurd hc List.not_mem_nil
  | leave _ v ih =>
      intro c hc
      exact ⟨(ih c hc).1, fun u hu => List.mem_append_left _ ((ih c hc).2 u hu)⟩
  | complete _ hv hmem ih =>
      intro c hc
      rcases List.mem_append.mp hc with hc | hc
      · exact ⟨(ih c hc).1, fun u hu => List.mem_append_left _ ((ih c hc).2 u hu)⟩
      · rw [List.mem_singleton.mp hc]
        exact ⟨List.ne_nil_of_mem hv, hmem⟩

theorem increasing (h : CompletedAlong cs post) (hnodup : post.Nodup) :
    cs.Pairwise fun c d => lastPlace post c < lastPlace post d := by
  -- leaving one more definition keeps the places of what has been completed
  have hkeep : ∀ {cs post} (v : DefId), CompletedAlong cs post →
      cs.Pairwise (fun c d => lastPlace post c < lastPlace post d) →
      cs.Pairwise fun c d => lastPlace (post ++ [v]) c < lastPlace (post ++ [v]) d := by
    intro cs post v h hlt
    refine hlt.imp_of_mem fun {c d} hc hd hcd => ?_
    rwa [lastPlace_append (h.mem_post c hc).2, lastPlace_append (h.mem_post d hd).2]
  induction h with
  | nil => exact .nil
  | leave h v ih => exact hkeep v h (ih (List.nodup_append.mp hnodup).1)
  | @complete cs post h c v hv hc ih =>
      obtain ⟨hpost, -, hdisjoint⟩ := List.nodup_append.mp hnodup
      refine List.pairwise_append.mpr ⟨hkeep v h (ih hpost), List.pairwise_singleton _ _, ?_⟩
      intro b hb d hd
      rw [List.mem_singleton.mp hd]
      obtain ⟨hne, hmem⟩ := h.mem_post b hb
      have hnew : v ∉ post := fun hm => hdisjoint v hm v List.mem_cons_self rfl
      calc lastPlace (post ++ [v]) b
        _ = lastPlace post b := lastPlace_append hmem [v]
        _ < post.length := lastPlace_lt_length hmem hne
        _ = (post ++ [v]).idxOf v := by rw [List.idxOf_append_of_notMem hnew]; simp
        _ ≤ lastPlace (post ++ [v]) c := List.le_max?_getD_of_mem (List.mem_map_of_mem hv)

/-- Components of one member each are listed in the order in which the members are left. -/
theorem flatten_sublist (h : CompletedAlong cs post) (hsingle : ∀ c ∈ cs, ∃ v, c = [v]) :
    cs.flatten.Sublist post := by
  induction h with
  | nil => exact .slnil
  | leave _ v ih => exact (ih hsingle).trans (List.sublist_append_left _ _)
  | complete _ hv _ ih =>
      obtain ⟨hcs, hc⟩ := List.forall_mem_append.mp hsingle
      obtain ⟨w, rfl⟩ := hc _ List.mem_cons_self
      rw [List.mem_singleton.mp hv, List.flatten_append, List.flatten_singleton]
      exact (ih hcs).append (.refl _)

end CompletedAlong

/-! ## What the search has left -/

namespace Search

/-- The definitions that the search has left so far are `post`, in this order.  All else that it has
met is on the path. -/
structure HasLeft (g : DependencyGraph) (s : Search) (post : List DefId) : Prop extends
    Inv g s where
  nodup : (s.frames.map Frame.id ++ post).Nodup
  met_iff : ∀ u, s.Met u ↔ u ∈ s.frames.map Frame.id ++ post
  completed : CompletedAlong s.components.toList post

variable {g : DependencyGraph} {s t : Search} {post : List DefId}

theorem hasLeft_start (g : DependencyGraph) : (start g.size).HasLeft g [] := by
  refine ⟨inv_start g, List.nodup_nil, fun u => ⟨fun hu => ?_, fun hu => nomatch hu⟩, .nil⟩
  have hlt := (inv_start g).number_lt u hu
  exact absurd hlt (Nat.not_lt_zero _)

namespace HasLeft

/-- The path stands as it was, and nothing but marks has changed. -/
theorem of_frames (hs : s.HasLeft g post) (ht : t.Inv g)
    (hids : t.frames.map Frame.id = s.frames.map Frame.id) (hmet : ∀ u, t.Met u ↔ s.Met u)
    (hcomponents : t.components = s.components) : t.HasLeft g post := by
  refine ⟨ht, ?_, fun u => ?_, ?_⟩
  · rw [hids]
    exact hs.nodup
  · rw [hids, hmet u, hs.met_iff u]
  · rw [hcomponents]
    exact hs.completed

theorem meet (hs : s.HasLeft g post) {w : DefId} (hw : w.index < g.size) (hnew : ¬ s.Met w)
    {deps : List DefId} {frames : List Frame} (hinv : (s.meet w deps frames).Inv g)
    (hids : frames.map Frame.id = s.frames.map Frame.id) :
    (s.meet w deps frames).HasLeft g post := by
  have hlt : w.index < s.marks.size := by rwa [hs.marks_size]
  have hframes : (s.meet w deps frames).frames.map Frame.id = w :: s.frames.map Frame.id :=
    congrArg (w :: ·) hids
  refine ⟨hinv, ?_, fun u => ?_, hs.completed⟩
  · rw [hframes, List.cons_append]
    exact List.nodup_cons.mpr ⟨fun hmem => hnew ((hs.met_iff w).mpr hmem), hs.nodup⟩
  · rw [hframes, met_meet hlt, hs.met_iff u, List.cons_append, List.mem_cons]

/-- Whatever stands above a definition on the stack has been left before it. -/
theorem mem_of_above (hs : s.HasLeft g post) {f : Frame} {path : List Frame}
    (hf : s.frames = f :: path) {above below : List DefId} (hst : s.stack = above ++ f.id :: below)
    (hb : s.Segments g path below) {u : DefId} (hu : u ∈ above) : u ∈ post := by
  have hdisjoint := (List.nodup_append.mp (hst ▸ hs.nodup_stack)).2.2
  have hmet : s.Met u := hs.met_of_mem (hst ▸ List.mem_append_left _ hu)
  rcases List.mem_append.mp ((hs.met_iff u).mp hmet) with hpath | hpost
  · -- the path runs through the stack from `f` downwards
    have hbelow : u ∈ f.id :: below := by
      rw [hf, List.map_cons] at hpath
      exact (hb.sublist.cons_cons f.id).subset hpath
    exact absurd rfl (hdisjoint u hu u hbelow)
  · exact hpost

theorem leave (hs : s.HasLeft g post) {v : DefId} {path : List Frame}
    (hf : s.frames = ⟨v, []⟩ :: path) :
    ∃ t : Search, s.run g = t.run g ∧ t.HasLeft g (post ++ [v]) ∧ t.frames = path := by
  obtain ⟨t, hstep, hinv, htf, hmet, hcomponents⟩ := hs.step_leave hf rfl
  have hperm : (t.frames.map Frame.id ++ (post ++ [v])).Perm (s.frames.map Frame.id ++ post) := by
    rw [htf, hf, List.map_cons, List.cons_append, ← List.append_assoc]
    exact List.perm_append_singleton v _
  refine ⟨t, run_cons hf hstep, ⟨hinv, ?_, fun u => ?_, ?_⟩, htf⟩
  · exact hperm.nodup_iff.mpr hs.nodup
  · rw [hmet u, hs.met_iff u, hperm.mem_iff]
  · rcases hcomponents with hsame | ⟨above, below, hst, hb, hnew⟩
    · rw [hsame]
      exact hs.completed.leave v
    · rw [hnew]
      refine hs.completed.complete (List.mem_mergeSort.mpr (by simp)) fun u hu => ?_
      rcases List.mem_append.mp (List.mem_mergeSort.mp hu) with hu | hu
      · exact List.mem_append_left _ (hs.mem_of_above hf hst hb hu)
      · exact List.mem_append_right _ hu

theorem visited_iff (hs : s.HasLeft g post) {w : DefId} {inner visited : List DefId}
    (ht : t.HasLeft g (post ++ inner ++ [w]))
    (hids : t.frames.map Frame.id = s.frames.map Frame.id)
    (hvisited : ∀ u, u ∈ visited ↔ s.Met u) (u : DefId) :
    u ∈ inner ++ w :: visited ↔ t.Met u := by
  rw [ht.met_iff u, hids, List.mem_append, List.mem_cons, hvisited u, hs.met_iff u]
  simp only [List.mem_append, List.mem_singleton]
  grind

/-- From a frame with dependencies still to follow, the search gets to the frame with none left, and
leaves on the way what is explored from those dependencies: by induction along the recursion of
`explore`. -/
theorem explore (hg : g.WellFormed) (visited todo : List DefId) :
    ∀ {s : Search} {post : List DefId} {v : DefId} {path : List Frame}, s.HasLeft g post →
      s.frames = ⟨v, todo⟩ :: path → (∀ u, u ∈ visited ↔ s.Met u) →
      ∃ (out : List DefId) (t : Search), g.explore visited todo = .ok out ∧ s.run g = t.run g ∧
        t.HasLeft g (post ++ out) ∧ t.frames = ⟨v, []⟩ :: path := by
  induction visited, todo using DependencyGraph.explore.induct with
  | case1 visited =>
      intro s post v path hs hf _
      refine ⟨[], s, DependencyGraph.explore_nil visited, rfl, ?_, hf⟩
      rwa [List.append_nil]
  | case2 visited w rest hw ih =>
      intro s post v path hs hf hvisited
      obtain ⟨t, hstep, hinv, htf, hmet, hcomponents⟩ :=
        hs.step_met hf rfl ((hvisited w).mp hw)
      have ht : t.HasLeft g post := hs.of_frames hinv (by rw [htf, hf]; rfl) hmet hcomponents
      obtain ⟨out, r, hout, hrun, hr, hrf⟩ :=
        ih ht htf fun u => (hvisited u).trans (hmet u).symm
      refine ⟨out, r, ?_, (run_cons hf hstep).trans hrun, hr, hrf⟩
      rw [DependencyGraph.explore_of_mem hw, hout]
  | case3 visited w rest hw ihInner ihRest =>
      intro s post v path hs hf hvisited
      have hnew : ¬ s.Met w := mt (hvisited w).mpr hw
      have hlt : w.index < g.size := (hg.depends_lt (hs.depends_next hf rfl)).2
      obtain ⟨deps, hdeps⟩ := hg.dependencies_ok hlt
      -- the call: the definition is met
      obtain ⟨hstep, hinv⟩ := hs.step_unmet hf rfl hlt hnew hdeps
      have hmeet := hs.meet hlt hnew hinv (by rw [hf]; rfl)
      obtain ⟨inner, t, hinner, hrunInner, ht, htf⟩ := ihInner deps hmeet rfl fun u => by
        rw [List.mem_cons, hvisited u, met_meet (by rwa [hs.marks_size])]
      -- the return: the definition is left
      obtain ⟨r, hrunLeave, hr, hrf⟩ := ht.leave htf
      have hids : r.frames.map Frame.id = s.frames.map Frame.id := by rw [hrf, hf]; rfl
      obtain ⟨out, q, hout, hrunRest, hq, hqf⟩ :=
        ihRest inner hr hrf (hs.visited_iff hr hids hvisited)
      refine ⟨inner ++ w :: out, q, DependencyGraph.explore_of_notMem hw hdeps hinner hout, ?_, ?_,
        hqf⟩
      · rw [run_cons hf hstep, hrunInner, hrunLeave, hrunRest]
      · simpa using hq

theorem sweep (hg : g.WellFormed) : ∀ (roots visited : List DefId) {s : Search} {post : List DefId},
    s.HasLeft g post → s.frames = [] → (∀ u, u ∈ visited ↔ s.Met u) →
    (∀ v ∈ roots, v.index < g.size) →
    ∃ out t, g.explore visited roots = .ok out ∧ roots.foldlM (Search.connect g) s = .ok t ∧
      t.HasLeft g (post ++ out) ∧ t.frames = []
  | [], visited, s, post, hs, hf, _, _ => by
      refine ⟨[], s, DependencyGraph.explore_nil visited, rfl, ?_, hf⟩
      rwa [List.append_nil]
  | root :: roots, visited, s, post, hs, hf, hvisited, hlt => by
      obtain ⟨hroot, hroots⟩ := List.forall_mem_cons.mp hlt
      by_cases hmet : s.Met root
      · obtain ⟨m, hm⟩ := Search.met_iff.mp hmet
        obtain ⟨out, t, hout, ht, hleft, htf⟩ := sweep hg roots visited hs hf hvisited hroots
        refine ⟨out, t, ?_, ?_, hleft, htf⟩
        · rw [DependencyGraph.explore_of_mem ((hvisited root).mpr hmet), hout]
        · simp only [List.foldlM_cons, Search.connect, getElem?_of_mark hm, bind, Except.bind, ht]
      · have hsize : root.index < s.marks.size := by rwa [hs.marks_size]
        obtain ⟨deps, hdeps⟩ := hg.dependencies_ok hroot
        have hmeet := hs.meet hroot hmet (hs.meet_root hf hroot hmet hdeps) (by rw [hf])
        obtain ⟨inner, t, hinner, hrunInner, ht, htf⟩ :=
          HasLeft.explore hg (root :: visited) deps hmeet rfl fun u => by
            rw [List.mem_cons, hvisited u, met_meet hsize]
        obtain ⟨r, hrunLeave, hr, hrf⟩ := ht.leave htf
        have hids : r.frames.map Frame.id = s.frames.map Frame.id := by rw [hrf, hf]
        obtain ⟨out, q, hout, hq, hleft, hqf⟩ :=
          sweep hg roots (inner ++ root :: visited) hr hrf (hs.visited_iff hr hids hvisited) hroots
        have hconnect : s.connect g root = .ok r := by
          simp only [Search.connect, getElem?_of_not_met hsize hmet, visit_eq hdeps, hf, bind,
            Except.bind]
          rw [hrunInner, hrunLeave, run_nil hrf]
        refine ⟨inner ++ root :: out, q,
          DependencyGraph.explore_of_notMem (mt (hvisited root).mp hmet) hdeps hinner hout, ?_, ?_,
          hqf⟩
        · simp only [List.foldlM_cons, hconnect, bind, Except.bind, hq]
        · simpa using hleft

end HasLeft
end Search

/-! ## Components in postorder -/

namespace DependencyGraph

variable {g : DependencyGraph}

theorem completedAlong_postorder (hg : g.WellFormed) {cs : List (List DefId)}
    (hcs : g.components = .ok cs) :
    ∃ post, g.postorder = .ok post ∧ post.Perm g.ids ∧ CompletedAlong cs post := by
  have hroots : ∀ v ∈ g.ids, v.index < g.size := fun v hv => hg.mem_ids.mp hv
  have hstart := Search.hasLeft_start g
  obtain ⟨post, t, hpost, ht, hleft, hf⟩ :=
    hstart.sweep hg g.ids [] rfl (fun u => (hstart.met_iff u).symm) hroots
  obtain ⟨t', ht', -, -, hids, -⟩ := Search.Inv.sweep hg g.ids (Search.inv_start g) rfl hroots
  rw [ht] at ht'
  cases ht'
  simp only [components, ht, bind, Except.bind, pure, Except.pure] at hcs
  cases hcs
  refine ⟨post, hpost, ?_, hleft.completed⟩
  have hmet := hleft.met_iff
  have hnodup := hleft.nodup
  simp only [hf, List.map_nil, List.nil_append] at hmet hnodup
  refine (List.perm_ext_iff_of_nodup hnodup hg.nodup_ids).mpr fun v => ?_
  rw [← hmet v]
  refine ⟨fun h => ?_, hids v⟩
  rw [hg.mem_ids, ← hleft.marks_size]
  exact Search.lt_size_of_met h

theorem eq_singleton_of_isCycle : ∀ {c : List DefId}, g.isCycle c = .ok false → ∃ v, c = [v]
  | [v], _ => ⟨v, rfl⟩
  | [], h => nomatch h
  | _ :: _ :: _, h => nomatch h

theorem WellFormed.postorder_of_evaluationOrder (hg : g.WellFormed)
    {order : List DefId} (h : g.evaluationOrder = .ok (.ok order)) :
    g.postorder = .ok order ∧ order.Perm g.ids := by
  obtain ⟨cs, hcs, hcond, hall⟩ := components_condensation hg
  obtain ⟨cycles, hcycles, -, -⟩ := cycles_condensation hg
  obtain ⟨post, hpost, hplaces, halong⟩ := completedAlong_postorder hg hcs
  rcases evaluationOrder_cases hg hcs hcycles with ⟨-, hr, hcycle⟩ | ⟨_, _, _, -, -, hr⟩
  · rw [hr] at h
    cases h
    have hmembers := hcond.flatten_perm hg hall
    have hsub : cs.flatten.Sublist post :=
      halong.flatten_sublist fun c hc => eq_singleton_of_isCycle (hcycle c hc)
    rw [hsub.eq_of_length (hmembers.trans hplaces.symm).length_eq]
    exact ⟨hpost, hplaces⟩
  · rw [hr] at h
    cases h

/-- `cs` lists the strongly connected components of `g` by the places of their last members in the
list `post` of all definitions. -/
structure ListsAlong (g : DependencyGraph) (cs : List (List DefId)) (post : List DefId) :
    Prop where
  nonempty : ∀ c ∈ cs, c ≠ []
  /-- Every definition is in one component, once. -/
  members : cs.flatten.Perm g.ids
  /-- Sharing a component is reaching each other. -/
  shared_iff : ∀ u ∈ g.ids, ∀ v ∈ g.ids,
    (∃ c ∈ cs, u ∈ c ∧ v ∈ c) ↔ g.Reaches u v ∧ g.Reaches v u
  /-- Every definition has one place. -/
  places : post.Perm g.ids
  increasing : cs.Pairwise fun c d => lastPlace post c < lastPlace post d

/-- For the graph of any definitions with fewer than 2^32 distinct names, the components come in the
order in which depth-first search is done with their last members, and an evaluation order is the
postorder. -/
theorem components_listsAlongPostorder (options : GraphOptions) (definitions : List Definition)
    (h : (definitions.map Definition.name).toFinset.card < UInt32.size) :
    ∃ cs post, (build options definitions).components = .ok cs ∧
      (build options definitions).postorder = .ok post ∧
      (build options definitions).ListsAlong cs post ∧
      ∀ order, (build options definitions).evaluationOrder = .ok (.ok order) → order = post := by
  have hg : (build options definitions).WellFormed := build_wellFormed h
  obtain ⟨cs, hcs, hcond, hall⟩ := components_condensation hg
  obtain ⟨post, hpost, hplaces, halong⟩ := completedAlong_postorder hg hcs
  have hmembers := hcond.flatten_perm hg hall
  refine ⟨cs, post, hcs, hpost, ⟨hcond.nonempty, hmembers, ?_, hplaces, ?_⟩, ?_⟩
  · exact fun u hu v hv => hcond.shared_iff ((hall u).mpr hu) ((hall v).mpr hv)
  · exact halong.increasing (hplaces.nodup_iff.mpr hg.nodup_ids)
  · intro order horder
    have hpost' := (hg.postorder_of_evaluationOrder horder).1
    rw [hpost] at hpost'
    exact (Except.ok.inj hpost').symm

/-- Two definitions that share a dependency, one of them with a mention of itself, and two roots. -/
def sharedDefinitions : List Definition :=
  [.var "A" (.union [.bare "C", .bare "B"]), .var "B" (.bare "D"),
    .struct "C" [⟨"d", .bare "D"⟩, ⟨"c", .bare "C"⟩], .var "D" (.bare "X"),
    .var "E" (.union [.bare "A", .bare "D"])]

theorem components_listsAlongPostorder_shared_mutual :
    (sharedDefinitions.map Definition.name).toFinset.card < UInt32.size ∧
    (∃ cs post, (build { allowSelfReferences := true } sharedDefinitions).components = .ok cs ∧
      (build { allowSelfReferences := true } sharedDefinitions).postorder = .ok post ∧
      (build { allowSelfReferences := true } sharedDefinitions).ListsAlong cs post ∧
      (build { allowSelfReferences := true } sharedDefinitions).evaluationOrder = .ok (.ok post)) ∧
    (mutualDefinitions.map Definition.name).toFinset.card < UInt32.size ∧
    ∃ cs post, (build {} mutualDefinitions).components = .ok cs ∧
      (build {} mutualDefinitions).postorder = .ok post ∧
      (build {} mutualDefinitions).ListsAlong cs post ∧ ∃ c ∈ cs, ⟨0⟩ ∈ c ∧ ⟨1⟩ ∈ c := by
  refine ⟨by decide, ?_, by decide, ?_⟩
  · have hg : (build { allowSelfReferences := true } sharedDefinitions).WellFormed :=
      build_wellFormed (by decide)
    obtain ⟨cs, post, hcs, hpost, hlists, horder⟩ :=
      components_listsAlongPostorder { allowSelfReferences := true } sharedDefinitions (by decide)
    obtain ⟨r, hr, hiff, -⟩ := evaluationOrder_eq_ok hg
    obtain ⟨order, rfl⟩ := hiff.mpr
      (not_onCycle_build hg ["D", "C", "B", "A", "E"].idxOf (by decide))
    exact ⟨cs, post, hcs, hpost, hlists, horder order hr ▸ hr⟩
  · have hg : (build {} mutualDefinitions).WellFormed := build_wellFormed (by decide)
    have hAB : (build {} mutualDefinitions).Depends ⟨0⟩ ⟨1⟩ :=
      depends_of_places hg rfl rfl (by decide)
    have hBA : (build {} mutualDefinitions).Depends ⟨1⟩ ⟨0⟩ :=
      depends_of_places hg rfl rfl (by decide)
    obtain ⟨cs, post, hcs, hpost, hlists, -⟩ :=
      components_listsAlongPostorder {} mutualDefinitions (by decide)
    have hshared := (hlists.shared_iff ⟨0⟩ (hg.mem_ids.mpr (hg.depends_lt hAB).1) ⟨1⟩
      (hg.mem_ids.mpr (hg.depends_lt hAB).2)).mpr ⟨.single hAB, .single hBA⟩
    exact ⟨cs, post, hcs, hpost, hlists, hshared⟩

end DependencyGraph
end TypeGraph
