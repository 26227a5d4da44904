import MyChat.SyncPoints
import MyChat.ViewEvents
import MyChat.ViewContents

/-!
# MyChat.SyncTraversal

How an operation is taken down the tree of sync points. Every view gets what is left of
the operation at its location, with the writes and the server's data from there, so that
all views that show what is true show it afterwards (`traversed_applyOperationHelper`).
No view is reached twice, and the events come in the order of the views.
-/

namespace MyChat

open PathTree FUtilities FCompoundWrite NetChange

/-- What happened at one of the views. -/
structure ViewStep where
  place : Path
  before : FView
  after : FView
  events : List FDataEvent

/-- The view went on to what is true at its place, and told its registrations. -/
structure ViewStep.Turned (precise : Prop) (c' : Contents) (s : ViewStep) : Prop where
  shows : s.after.viewCache.Shows (c'.below s.place)
  updated : FView.Updated precise s.before s.after s.events

/-- All of the views, at their places, went on. -/
def Traversed (precise : Prop) (c' : Contents) (views views' : List (Path × FView))
    (events : List FDataEvent) : Prop :=
  ∃ steps : List ViewStep, views = steps.map (fun s => (s.place, s.before)) ∧
    views' = steps.map (fun s => (s.place, s.after)) ∧ events = steps.flatMap ViewStep.events ∧
    ∀ s ∈ steps, s.Turned precise c'

section Traversed

variable {precise precise' : Prop} {c c' : Contents} {views views' us us' : List (Path × FView)}
  {events es : List FDataEvent}

theorem FView.Updated.mono {view view' : FView} (h : FView.Updated precise view view' events)
    (himp : precise' → precise) : FView.Updated precise' view view' events where
  path := h.path
  eventRegistrations := h.eventRegistrations
  wellFormed := h.wellFormed
  told := by
    obtain ⟨changeMap, hs, htracks, hrun, hdiffer⟩ := h.told
    exact ⟨changeMap, hs, htracks, hrun, fun hp => hdiffer (himp hp)⟩

theorem Traversed.mono (h : Traversed precise c' views views' events) (himp : precise' → precise) :
    Traversed precise' c' views views' events := by
  obtain ⟨steps, hbefore, hafter, hevents, hturned⟩ := h
  exact ⟨steps, hbefore, hafter, hevents, fun s hs =>
    ⟨(hturned s hs).shows, (hturned s hs).updated.mono himp⟩⟩

theorem Traversed.append (h : Traversed precise c' views views' events)
    (h' : Traversed precise c' us us' es) :
    Traversed precise c' (views ++ us) (views' ++ us') (events ++ es) := by
  obtain ⟨steps, rfl, rfl, rfl, hturned⟩ := h
  obtain ⟨steps', rfl, rfl, rfl, hturned'⟩ := h'
  refine ⟨steps ++ steps', by simp, by simp, by simp, fun s hs => ?_⟩
  exact (List.mem_append.mp hs).elim (hturned s) (hturned' s)

/-- The views under a key. -/
theorem Traversed.under {k : String} (h : Traversed precise (c'.below [k]) views views' events) :
    Traversed precise c' (views.map fun x => (k :: x.1, x.2)) (views'.map fun x => (k :: x.1, x.2))
      events := by
  obtain ⟨steps, rfl, rfl, rfl, hturned⟩ := h
  refine ⟨steps.map fun s => { s with place := k :: s.place }, by simp, by simp, ?_, fun s hs => ?_⟩
  · simp [List.flatMap_map]
  · obtain ⟨s', hs', rfl⟩ := List.mem_map.mp hs
    obtain ⟨hshows, hupdated⟩ := hturned s' hs'
    rw [Contents.below_below, List.singleton_append] at hshows
    exact ⟨hshows, hupdated⟩

/-- Views that the operation does not concern. -/
theorem traversed_refl (h : ∀ x ∈ views, x.2.viewCache.Shows (c'.below x.1)) :
    Traversed precise c' views views [] := by
  refine ⟨views.map fun x => ⟨x.1, x.2, x.2, []⟩, by simp [Function.comp_def], by simp [Function.comp_def],
    by simp [List.flatMap_map], fun s hs => ?_⟩
  obtain ⟨x, hx, rfl⟩ := List.mem_map.mp hs
  exact ⟨h x hx, FView.updated_refl (h x hx).toWellFormed precise⟩

theorem traversed_singleton {view view' : FView} (hshows : view'.viewCache.Shows c')
    (hupdated : FView.Updated precise view view' events) :
    Traversed precise c' [([], view)] [([], view')] events := by
  refine ⟨[⟨[], view, view', events⟩], rfl, rfl, by simp, fun s hs => ?_⟩
  obtain rfl := List.mem_singleton.mp hs
  exact ⟨by rwa [Contents.below_nil], hupdated⟩

/-- The places stay. -/
theorem Traversed.places (h : Traversed precise c' views views' events) :
    views'.map Prod.fst = views.map Prod.fst := by
  obtain ⟨steps, rfl, rfl, -, -⟩ := h
  simp

/-- At its place an observer hears what the view there tells. -/
theorem heard_flatMap_events {steps : List ViewStep} (hnodup : (steps.map ViewStep.place).Nodup)
    (hpaths : ∀ s ∈ steps, ∀ event ∈ s.events, event.path = s.place) {s : ViewStep} (hs : s ∈ steps)
    (registration : FEventRegistration) :
    heard s.place registration (steps.flatMap ViewStep.events) = heard s.place registration s.events := by
  induction steps with
  | nil => cases hs
  | cons t steps ih =>
      obtain ⟨hnotin, hnodup⟩ := List.nodup_cons.mp hnodup
      rw [List.flatMap_cons, heard_append]
      rcases List.mem_cons.mp hs with rfl | hs
      · rw [@heard_eq_nil s.place registration (steps.flatMap ViewStep.events), List.append_nil]
        intro event hevent hplace
        obtain ⟨u, hu, hmem⟩ := List.mem_flatMap.mp hevent
        rw [hpaths u (List.mem_cons_of_mem s hu) event hmem] at hplace
        exact absurd (List.mem_map.mpr ⟨u, hu, hplace⟩) hnotin
      · rw [@heard_eq_nil s.place registration t.events, List.nil_append]
        · exact ih hnodup (fun u hu => hpaths u (List.mem_cons_of_mem t hu)) hs
        · intro event hevent hplace
          rw [hpaths t List.mem_cons_self event hevent] at hplace
          exact absurd (List.mem_map.mpr ⟨s, hs, hplace.symm⟩) hnotin

/-- A view at its place, before and after, with what observers there hear. -/
theorem Traversed.exists_updated (h : Traversed precise c' views views' events)
    (hnodup : (views.map Prod.fst).Nodup) (hpaths : ∀ x ∈ views, x.2.path = x.1) {x : Path × FView}
    (hx : x ∈ views') :
    ∃ view es, (x.1, view) ∈ views ∧ view.path = x.1 ∧ FView.Updated precise view x.2 es ∧
      ∀ r, heard x.1 r events = heard view.path r es := by
  obtain ⟨steps, rfl, rfl, rfl, hturned⟩ := h
  have hbefore : ∀ s ∈ steps, (s.place, s.before) ∈ steps.map fun s => (s.place, s.before) :=
    fun s hs => List.mem_map_of_mem hs
  have hevents : ∀ s ∈ steps, ∀ event ∈ s.events, event.path = s.place := fun s hs event hevent =>
    ((hturned s hs).updated.heard_spec.1 event hevent).1.trans (hpaths _ (hbefore s hs))
  have hplaces : (steps.map ViewStep.place).Nodup := by simpa [Function.comp_def] using hnodup
  obtain ⟨s, hs, rfl⟩ := List.mem_map.mp hx
  have hpath := hpaths _ (hbefore s hs)
  exact ⟨s.before, s.events, hbefore s hs, hpath, (hturned s hs).updated, fun r => by
    rw [hpath, heard_flatMap_events hplaces hevents hs]⟩

/-- **Observers who know what their views show**, know it after all of them went on. -/
theorem Traversed.informed (h : Traversed precise c' views views' events)
    (hnodup : (views.map Prod.fst).Nodup) (hpaths : ∀ x ∈ views, x.2.path = x.1)
    (hwf : ∀ x ∈ views, x.2.viewCache.WellFormed)
    (hregistered : ∀ x ∈ views, x.2.eventRegistrations.Nodup) {raised : List FDataEvent}
    (hinformed : ∀ x ∈ views, ∀ r ∈ x.2.eventRegistrations, Informed x.2 r (heard x.1 r raised)) :
    ∀ x ∈ views', x.2.eventRegistrations.Nodup ∧
      ∀ r ∈ x.2.eventRegistrations, Informed x.2 r (heard x.1 r (raised ++ events)) := by
  intro x hx
  obtain ⟨view, es, hview, hpath, hupdated, hheard⟩ := h.exists_updated hnodup hpaths hx
  have hregs := hregistered _ hview
  refine ⟨hupdated.eventRegistrations ▸ hregs, fun r hr => ?_⟩
  have hmem : r ∈ view.eventRegistrations := hupdated.eventRegistrations ▸ hr
  have hknows := (hinformed _ hview r hmem).of_updated (hwf _ hview) hupdated hmem hregs
  rwa [heard_append, hheard]

/-- **Observers are told a value** exactly when what their view shows is complete, and was
not or is another one. -/
theorem Traversed.value_mem_iff (h : Traversed True c' views views' events)
    (hnodup : (views.map Prod.fst).Nodup) (hpaths : ∀ x ∈ views, x.2.path = x.1)
    (hwf : ∀ x ∈ views, x.2.viewCache.WellFormed)
    (hregistered : ∀ x ∈ views, x.2.eventRegistrations.Nodup) {x : Path × FView} (hx : x ∈ views') :
    ∃ view, (x.1, view) ∈ views ∧ view.eventRegistrations = x.2.eventRegistrations ∧
      ∀ r ∈ view.eventRegistrations, r.responseTo .value = true → ∀ node,
        (node ∈ FChange.values (heard x.1 r events) ↔ node = x.2.viewCache.cachedEventSnap.node ∧
          FViewProcessor.ValueChanged view.viewCache x.2.viewCache) := by
  obtain ⟨view, es, hview, hpath, hupdated, hheard⟩ := h.exists_updated hnodup hpaths hx
  refine ⟨view, hview, hupdated.eventRegistrations.symm, fun r hr hresponds node => ?_⟩
  rw [hheard]
  exact hupdated.value_mem_iff trivial (hwf _ hview) hr (hregistered _ hview) hresponds

theorem Contents.Keeps.below (h : c.Keeps c') (p : Path) : (c.below p).Keeps (c'.below p) where
  server := congrArg (PathTree.subtree · p) h.server
  shown := congrArg (PathTree.subtree · p) h.shown
  hides := fun _ hq => Contents.hides_below.mpr (h.hides _ (Contents.hides_below.mp hq))

end Traversed

/-! ### One view -/

/-- Where a listen is complete, and below, the views have been sent all there is. -/
def Heard (operation : FOperation) (views : List (Path × FView)) (c : Contents) : Prop :=
  ∀ path, operation = .listenComplete path → ∀ x ∈ views, path <+: x.1 →
    x.2.viewCache.cachedServerSnap.node.data = c.server.subtree x.1

namespace FSyncTree

open FImmutableTree FViewProcessor

variable {operation op : FOperation} {c c' : Contents} {writes : FWriteTreeRef} {cache : Option FNode}
  {view : FView} {k : String} {p : Path}

theorem turned_applyOperation (h : view.viewCache.Shows c) (hw : writes.Valid)
    (hwrites : writes.overlay = c'.writes) (hop : operation.WellFormed)
    (hcache : ∀ n, cache = some n → n.WellFormed) (hturns : operation.Turns c c')
    (hheard : Heard operation [([], view)] c) :
    ∃ view' events, view.applyOperation operation writes cache = .ok (view', events) ∧
      Traversed (¬ IsUserMerge operation) c' [([], view)] [([], view')] events := by
  have hheard' : operation = .listenComplete [] →
      view.viewCache.cachedServerSnap.node.data = c.server := fun heq => by
    have := hheard [] heq _ (List.mem_singleton.mpr rfl) List.nil_prefix
    rwa [subtree_nil] at this
  have hprocess := fun r => shows_process (r := r) h hw hwrites hop hcache hturns hheard'
  obtain ⟨view', events, tracked, hrun, hr, hupdated⟩ := FView.exists_updated h.toWellFormed hw hop hcache
    fun r hr => (hprocess r hr).2
  exact ⟨view', events, hrun, traversed_singleton (hprocess _ hr).1 hupdated⟩

theorem wellFormed_completeServerCacheFor (h : view.viewCache.WellFormed) (p : Path) {n : FNode}
    (hn : view.completeServerCacheFor p = some n) : n.WellFormed := by
  unfold FView.completeServerCacheFor FViewCache.completeServerSnap at hn
  obtain ⟨m, hm, rfl⟩ := Option.map_eq_some_iff.mp hn
  split at hm
  · cases hm
    exact h.server.getChild p
  · cases hm

/-! ### The operation for a child -/

theorem isUserMerge_of_operationForChild (h : operation.operationForChild k = some op)
    (hmerge : IsUserMerge op) : IsUserMerge operation := by
  cases operation with
  | overwrite fromUser path snap =>
      rw [FOperation.operationForChild] at h
      split at h <;> cases h <;> exact hmerge
  | merge fromUser path children =>
      cases fromUser with
      | true => trivial
      | false =>
          rw [FOperation.operationForChild] at h
          dsimp only at h
          split at h
          · split at h
            · cases h
            · split at h <;> cases h <;> exact hmerge
          · cases h
            exact hmerge
  | ackUserWrite path affectedTree revert =>
      rw [FOperation.operationForChild] at h
      split at h
      · cases h
        exact hmerge
      · split at h <;> cases h <;> exact hmerge
  | listenComplete path =>
      cases h
      exact hmerge

/-- A listen that is complete for a child is one that is complete. -/
theorem eq_listenComplete_of_operationForChild (h : operation.operationForChild k = some op)
    (hop : op = .listenComplete p) : ∃ path, operation = .listenComplete path ∧ path.drop 1 = p := by
  subst hop
  cases operation with
  | overwrite fromUser path snap =>
      rw [FOperation.operationForChild] at h
      split at h <;> cases h
  | merge fromUser path children =>
      rw [FOperation.operationForChild] at h
      dsimp only at h
      split at h
      · split at h
        · cases h
        · split at h <;> cases h
      · cases h
  | ackUserWrite path affectedTree revert =>
      rw [FOperation.operationForChild] at h
      split at h
      · cases h
      · split at h <;> cases h
  | listenComplete path =>
      cases h
      exact ⟨path, rfl, rfl⟩

theorem path_operationForChild (hpath : operation.path = k :: p)
    (h : operation.operationForChild k = some op) : op.path = p := by
  cases operation with
  | overwrite fromUser path snap =>
      obtain rfl : path = k :: p := hpath
      cases h
      rfl
  | merge fromUser path children =>
      obtain rfl : path = k :: p := hpath
      cases h
      rfl
  | ackUserWrite path affectedTree revert =>
      obtain rfl : path = k :: p := hpath
      cases h
      rfl
  | listenComplete path =>
      obtain rfl : path = k :: p := hpath
      cases h
      rfl

theorem Heard.child {t : FImmutableTree FView} {children : List (String × FImmutableTree FView)}
    (h : Heard operation (forEachChild children) c) (ht : (k, t) ∈ children)
    (hforChild : operation.operationForChild k = some op)
    (hpath : operation.path = [] ∨ ∃ p, operation.path = k :: p) :
    Heard op t.forEach (c.below [k]) := by
  rintro p rfl x hx hprefix
  obtain ⟨path, rfl, hdrop⟩ := eq_listenComplete_of_operationForChild hforChild rfl
  have hmem : (k :: x.1, x.2) ∈ forEachChild children := by
    rw [forEachChild_eq]
    exact List.mem_flatMap.mpr ⟨(k, t), ht, List.mem_map.mpr ⟨x, hx, rfl⟩⟩
  have hle : path <+: k :: x.1 := by
    rcases hpath with hnil | ⟨q, hq⟩
    · obtain rfl : path = [] := hnil
      exact List.nil_prefix
    · obtain rfl : path = k :: q := hq
      obtain rfl : q = p := hdrop
      exact List.cons_prefix_cons.mpr ⟨rfl, hprefix⟩
  have hdata := h path rfl _ hmem hle
  show x.2.viewCache.cachedServerSnap.node.data = (c.server.subtree [k]).subtree x.1
  rw [subtree_subtree]
  exact hdata

/-- The writes from a child. -/
theorem valid_childWriteTreeRef (hw : writes.Valid) (hk : Plain k) :
    (writes.childWriteTreeRef k).Valid :=
  ⟨hw.tree, plainPath_append.mpr ⟨hw.plain, by simpa using hk⟩⟩

theorem overlay_childWriteTreeRef (hwrites : writes.overlay = c'.writes) :
    (writes.childWriteTreeRef k).overlay = (c'.below [k]).writes := by
  show (FCompoundWrite.overlay _).below (writes.path ++ [k]) = c'.writes.below [k]
  rw [← hwrites, FWriteTreeRef.overlay, Overlay.below_below]
  rfl

theorem wellFormed_childCache (hcache : ∀ n, cache = some n → n.WellFormed) :
    ∀ n, (cache.map fun cache => cache.getImmediateChild k) = some n → n.WellFormed := by
  intro n hn
  obtain ⟨m, hm, rfl⟩ := Option.map_eq_some_iff.mp hn
  exact (hcache m hm).getImmediateChild k

/-! ### The children -/

/-- The views under a key, from those of all children. -/
theorem shows_child {t : FImmutableTree FView} {children : List (String × FImmutableTree FView)}
    (h : ∀ x ∈ forEachChild children, x.2.viewCache.Shows (c.below x.1)) (ht : (k, t) ∈ children) :
    ∀ x ∈ t.forEach, x.2.viewCache.Shows ((c.below [k]).below x.1) := by
  intro x hx
  have hmem : (k :: x.1, x.2) ∈ forEachChild children := by
    rw [forEachChild_eq]
    exact List.mem_flatMap.mpr ⟨(k, t), ht, List.mem_map.mpr ⟨x, hx, rfl⟩⟩
  rw [Contents.below_below]
  exact h _ hmem

/-- The operation for one child, or nothing. -/
def applyToChild (operation : FOperation) (resolvedServerCache : Option FNode)
    (writesCache : FWriteTreeRef) (x : String × FImmutableTree FView) :
    Except String (FImmutableTree FView × List FDataEvent) :=
  match operation.operationForChild x.1 with
  | some childOperation =>
      applyOperationDescendantsHelper childOperation
        (resolvedServerCache.map fun cache => cache.getImmediateChild x.1)
        (writesCache.childWriteTreeRef x.1) x.2
  | none => .ok (x.2, [])

theorem traversed_applyOperationToChildren {precise : Prop}
    {children : List (String × FImmutableTree FView)}
    (hall : ∀ x ∈ children, ∃ tree' events, applyToChild operation cache writes x = .ok (tree', events) ∧
      tree'.Keyed Plain ∧ Traversed precise (c'.below [x.1]) x.2.forEach tree'.forEach events) :
    ∃ children' events, applyOperationToChildren operation cache writes children =
        .ok (children', events) ∧ children'.map Prod.fst = children.map Prod.fst ∧
      (∀ x ∈ children', x.2.Keyed Plain) ∧
      Traversed precise c' (forEachChild children) (forEachChild children') events := by
  induction children with
  | nil => exact ⟨[], [], rfl, rfl, by simp, [], rfl, rfl, rfl, by simp⟩
  | cons x children ih =>
      obtain ⟨hx, hchildren⟩ := List.forall_mem_cons.mp hall
      obtain ⟨tree', es, hrun, hkeyed, htraversed⟩ := hx
      obtain ⟨children', es', hrun', hkeys, hkeyed', htraversed'⟩ := ih hchildren
      refine ⟨(x.1, tree') :: children', es ++ es', ?_, by simp [hkeys],
        List.forall_mem_cons.mpr ⟨hkeyed, hkeyed'⟩, ?_⟩
      · obtain ⟨k, t⟩ := x
        unfold applyToChild at hrun
        rw [applyOperationToChildren]
        dsimp only at hrun ⊢
        cases hchild : operation.operationForChild k with
        | some childOperation =>
            rw [hchild] at hrun
            simp only [hrun, bind, Except.bind, hrun']
            rfl
        | none =>
            rw [hchild] at hrun
            cases hrun
            simp only [bind, Except.bind, hrun']
            rfl
      · rw [forEachChild, forEachChild]
        exact htraversed.under.append htraversed'

theorem keyed_of_keys {value : Option FView} {children children' : List (String × FImmutableTree FView)}
    (h : (FImmutableTree.node value children).Keyed Plain) (hkeys : children'.map Prod.fst = children.map Prod.fst)
    (hkeyed : ∀ x ∈ children', x.2.Keyed Plain) (value' : Option FView) :
    (FImmutableTree.node value' children').Keyed Plain := by
  cases h with
  | mk sorted keys keyed =>
      have hsorted : (children.map Prod.fst).Pairwise fun a b => stringComparator a b = .lt :=
        List.pairwise_map.mpr sorted
      rw [← hkeys, List.pairwise_map] at hsorted
      refine .mk hsorted (fun x hx => ?_) hkeyed
      have hmem : x.1 ∈ children.map Prod.fst := hkeys ▸ List.mem_map_of_mem hx
      obtain ⟨y, hy, heq⟩ := List.mem_map.mp hmem
      exact heq ▸ keys y hy

theorem wellFormed_resolvedServerCache {value : Option FView}
    (hcache : ∀ n, cache = some n → n.WellFormed)
    (hview : ∀ view, value = some view → view.viewCache.WellFormed) :
    ∀ n, resolveServerCache cache value = some n → n.WellFormed := by
  intro n hn
  cases cache with
  | some m => exact hcache n hn
  | none =>
      cases value with
      | none => cases hn
      | some view => exact wellFormed_completeServerCacheFor (hview view rfl) [] hn

theorem mem_forEach_root {value : Option FView} {children : List (String × FImmutableTree FView)}
    {view : FView} (hvalue : value = some view) :
    ([], view) ∈ (FImmutableTree.node value children).forEach := by
  rw [forEach_node, hvalue]
  simp

theorem mem_forEach_of_child {value : Option FView} {children : List (String × FImmutableTree FView)}
    {x : Path × FView} (hx : x ∈ forEachChild children) :
    x ∈ (FImmutableTree.node value children).forEach := by
  rw [forEach_node]
  exact List.mem_append_left _ hx

/-- **Below the path of an operation**, every view gets its part. -/
theorem traversed_applyOperationDescendantsHelper {tree : FImmutableTree FView}
    (hkeyed : tree.Keyed Plain) (hshows : ∀ x ∈ tree.forEach, x.2.viewCache.Shows (c.below x.1))
    (hw : writes.Valid) (hwrites : writes.overlay = c'.writes) (hop : operation.WellFormed)
    (hpath : operation.path = []) (hcache : ∀ n, cache = some n → n.WellFormed)
    (hturns : operation.Turns c c') (hheard : Heard operation tree.forEach c) :
    ∃ tree' events, applyOperationDescendantsHelper operation cache writes tree = .ok (tree', events) ∧
      tree'.Keyed Plain ∧
      Traversed (¬ IsUserMerge operation) c' tree.forEach tree'.forEach events := by
  induction hkeyed generalizing operation c c' cache writes with
  | @mk value children sorted keys keyed ih =>
      have hresolved := wellFormed_resolvedServerCache hcache fun view hview =>
        (hshows _ (mem_forEach_root hview)).toWellFormed
      generalize hcache' : resolveServerCache cache value = resolved at hresolved
      have hall : ∀ x ∈ children, ∃ tree' events,
          applyToChild operation resolved writes x = .ok (tree', events) ∧ tree'.Keyed Plain ∧
          Traversed (¬ IsUserMerge operation) (c'.below [x.1]) x.2.forEach tree'.forEach events := by
        rintro ⟨k, t⟩ ht
        have hk : Plain k := keys _ ht
        have hshows' := shows_child (fun x hx => hshows x (mem_forEach_of_child hx)) ht
        have hchild := hturns.operationForChild_of_nil hop hpath hk
        unfold applyToChild
        dsimp only
        cases hforChild : operation.operationForChild k with
        | none =>
            rw [hforChild] at hchild
            refine ⟨t, [], rfl, keyed _ ht, traversed_refl fun x hx => ?_⟩
            exact (hshows' x hx).of_keeps (hchild.below x.1)
        | some childOperation =>
            rw [hforChild] at hchild
            obtain ⟨hop', hpath', hturns'⟩ := hchild
            have hheard' : Heard childOperation t.forEach (c.below [k]) :=
              Heard.child (fun path heq x hx => hheard path heq x (mem_forEach_of_child hx)) ht hforChild
                (Or.inl hpath)
            obtain ⟨tree', events, hrun, hkeyed', htraversed⟩ := ih _ ht hshows'
              (valid_childWriteTreeRef hw hk) (overlay_childWriteTreeRef hwrites) hop' hpath'
              (wellFormed_childCache hresolved) hturns' hheard'
            refine ⟨tree', events, hrun, hkeyed', htraversed.mono fun hnot hmerge => ?_⟩
            exact hnot (isUserMerge_of_operationForChild hforChild hmerge)
      obtain ⟨children', events, hrun, hkeys, hkeyed', htraversed⟩ :=
        traversed_applyOperationToChildren hall
      have hold : (FImmutableTree.node value children).Keyed Plain := .mk sorted keys keyed
      have hnode := keyed_of_keys hold hkeys hkeyed'
      rw [applyOperationDescendantsHelper, hcache']
      simp only [hrun, bind, Except.bind]
      cases value with
      | none =>
          refine ⟨_, _, rfl, hnode none, ?_⟩
          rw [forEach_node, forEach_node]
          simpa using htraversed
      | some view =>
          have hshowsView := hshows _ (mem_forEach_root rfl)
          rw [Contents.below_nil] at hshowsView
          have hheardView : Heard operation [([], view)] c := fun path heq x hx hprefix => by
            obtain rfl := List.mem_singleton.mp hx
            exact hheard path heq _ (mem_forEach_root rfl) hprefix
          obtain ⟨view', events', hrunView, hturnedView⟩ :=
            turned_applyOperation hshowsView hw hwrites hop hresolved hturns hheardView
          simp only [hrunView]
          refine ⟨_, _, rfl, hnode (some view'), ?_⟩
          rw [forEach_node, forEach_node]
          exact htraversed.append hturnedView

/-- The operation for the child on its path, if there is one. -/
def applyToChildOnPath (operation : FOperation) (serverCache : Option FNode)
    (writesCache : FWriteTreeRef) (children : List (String × FImmutableTree FView)) (childKey : String)
    (path : Path) : Except String (List (String × FImmutableTree FView) × List FDataEvent) :=
  match SortedList.get stringComparator childKey children, operation.operationForChild childKey with
  | some childTree, some childOperation => do
      let (childTree, events) ← applyOperationHelper childOperation
        (serverCache.map fun cache => cache.getImmediateChild childKey)
        (writesCache.childWriteTreeRef childKey) childTree path
      return (SortedList.insert stringComparator childKey childTree children, events)
  | _, _ => .ok (children, [])

theorem applyOperationHelper_cons (value : Option FView) (children : List (String × FImmutableTree FView))
    (k : String) (p : Path) :
    applyOperationHelper operation cache writes (.node value children) (k :: p) = (do
      let (children, events) ←
        applyToChildOnPath operation (resolveServerCache cache value) writes children k p
      match value with
      | some view => do
          let (view, eventsForView) ←
            view.applyOperation operation writes (resolveServerCache cache value)
          return (.node (some view) children, events ++ eventsForView)
      | none => return (.node none children, events)) := by
  rw [applyOperationHelper]
  unfold applyToChildOnPath
  cases SortedList.get stringComparator k children with
  | none => rfl
  | some childTree =>
      cases operation.operationForChild k with
      | none => rfl
      | some childOperation =>
          simp only [bind, Except.bind]
          cases applyOperationHelper childOperation _ (writes.childWriteTreeRef k) childTree p <;> rfl

theorem forEachChild_append (as bs : List (String × FImmutableTree FView)) :
    forEachChild (as ++ bs) = forEachChild as ++ forEachChild bs := by
  rw [forEachChild_eq, forEachChild_eq, forEachChild_eq, List.flatMap_append]

/-- **An operation** reaches the views above its path, on it and below, and the others
have nothing to do with it. -/
theorem traversed_applyOperationHelper {tree : FImmutableTree FView}
    (hkeyed : tree.Keyed Plain) (hshows : ∀ x ∈ tree.forEach, x.2.viewCache.Shows (c.below x.1))
    (hw : writes.Valid) (hwrites : writes.overlay = c'.writes) (hop : operation.WellFormed)
    (hpath : operation.path = p) (hcache : ∀ n, cache = some n → n.WellFormed)
    (hturns : operation.Turns c c') (hheard : Heard operation tree.forEach c) :
    ∃ tree' events, applyOperationHelper operation cache writes tree p = .ok (tree', events) ∧
      tree'.Keyed Plain ∧
      Traversed (¬ IsUserMerge operation) c' tree.forEach tree'.forEach events := by
  induction p generalizing tree operation c c' cache writes with
  | nil =>
      have hnil : applyOperationHelper operation cache writes tree [] =
          applyOperationDescendantsHelper operation cache writes tree := by
        cases tree
        rfl
      rw [hnil]
      exact traversed_applyOperationDescendantsHelper hkeyed hshows hw hwrites hop hpath hcache hturns hheard
  | cons k p ih =>
      obtain ⟨value, children⟩ := tree
      have hresolved := wellFormed_resolvedServerCache hcache fun view hview =>
        (hshows _ (mem_forEach_root hview)).toWellFormed
      generalize hcache' : resolveServerCache cache value = resolved at hresolved
      obtain ⟨childOperation, hforChild, hop', hturns'⟩ := hturns.operationForChild_of_cons hop hpath
      -- views under other keys
      have hothers : ∀ us : List (String × FImmutableTree FView), us ⊆ children →
          (∀ x ∈ us, x.1 ≠ k) →
          Traversed (¬ IsUserMerge operation) c' (forEachChild us) (forEachChild us) [] := by
        intro us hsub hne
        refine traversed_refl fun x hx => ?_
        rw [forEachChild_eq] at hx
        obtain ⟨y, hy, hx⟩ := List.mem_flatMap.mp hx
        obtain ⟨z, hz, rfl⟩ := List.mem_map.mp hx
        have hshows' := shows_child (fun x hx => hshows x (mem_forEach_of_child hx)) (hsub hy) z hz
        have hkeeps := (hturns.keeps hpath (hne y hy).symm).below z.1
        rw [Contents.below_below, Contents.below_below] at hkeeps
        rw [Contents.below_below] at hshows'
        exact hshows'.of_keeps hkeeps
      have hchildren : ∃ children' events,
          applyToChildOnPath operation resolved writes children k p = Except.ok (children', events) ∧
          (∀ v, (FImmutableTree.node v children').Keyed Plain) ∧
          Traversed (¬ IsUserMerge operation) c' (forEachChild children) (forEachChild children') events := by
        unfold applyToChildOnPath
        cases hget : SortedList.get stringComparator k children with
        | none =>
            refine ⟨children, [], rfl, fun v => ?_, hothers children (fun _ hx => hx) fun x hx heq => ?_⟩
            · cases hkeyed with
              | mk sorted keys keyed => exact .mk sorted keys keyed
            · cases hkeyed with
              | mk sorted keys keyed =>
                  have hsome := (SortedList.get_eq_some_iff (stringComparator_separates fun _ => True) sorted
                    (SortedList.keysIn_true children) trivial).mpr hx
                  rw [heq, hget] at hsome
                  cases hsome
        | some t =>
            obtain ⟨as, k', bs, hsplit, heq, hinsert⟩ := SortedList.exists_append_of_get hget
            obtain rfl : k = k' := literalCompare_eq_iff.mp heq
            have ht : (k, t) ∈ children := by simp [hsplit]
            obtain ⟨hk, hkeyed'⟩ := hkeyed.of_mem_children ht
            have hshows' := shows_child (fun x hx => hshows x (mem_forEach_of_child hx)) ht
            have hheard' : Heard childOperation t.forEach (c.below [k]) :=
              Heard.child (fun path heq x hx => hheard path heq x (mem_forEach_of_child hx)) ht hforChild
                (Or.inr ⟨p, hpath⟩)
            obtain ⟨tree', events, hrun, hkeyed'', htraversed⟩ := ih hkeyed' hshows'
              (valid_childWriteTreeRef hw hk) (overlay_childWriteTreeRef hwrites) hop'
              (path_operationForChild hpath hforChild) (wellFormed_childCache hresolved) hturns' hheard'
            rw [hforChild]
            dsimp only
            rw [hrun]
            refine ⟨_, _, rfl, fun v => ?_, ?_⟩
            · have hvalue : (FImmutableTree.node v children).Keyed Plain := by
                cases hkeyed with
                | mk sorted keys keyed => exact .mk sorted keys keyed
              exact hvalue.insert hk hkeyed''
            · have hne : ∀ x ∈ as ++ bs, x.1 ≠ k := by
                cases hkeyed with
                | mk sorted keys keyed =>
                    rw [hsplit] at sorted
                    intro x hx
                    have hpair := List.pairwise_append.mp sorted.ne
                    rcases List.mem_append.mp hx with hx | hx
                    · exact hpair.2.2 x hx (k, t) List.mem_cons_self
                    · exact ((List.pairwise_cons.mp hpair.2.1).1 x hx).symm
              have hprecise : Traversed (¬ IsUserMerge operation) (c'.below [k]) t.forEach tree'.forEach
                  events := htraversed.mono fun hnot hmerge =>
                hnot (isUserMerge_of_operationForChild hforChild hmerge)
              have hleft := hothers as (by simp [hsplit]) fun x hx =>
                hne x (List.mem_append_left _ hx)
              have hright := hothers bs (by simp [hsplit]) fun x hx =>
                hne x (List.mem_append_right _ hx)
              rw [hinsert, hsplit, forEachChild_append, forEachChild_append, forEachChild, forEachChild]
              have hall := hleft.append (hprecise.under.append hright)
              rwa [List.nil_append, List.append_nil] at hall
      obtain ⟨children', events, hrun, hnode, htraversed⟩ := hchildren
      rw [applyOperationHelper_cons, hcache']
      simp only [hrun, bind, Except.bind]
      cases value with
      | none =>
          refine ⟨_, _, rfl, hnode none, ?_⟩
          rw [forEach_node, forEach_node]
          simpa using htraversed
      | some view =>
          have hshowsView := hshows _ (mem_forEach_root rfl)
          rw [Contents.below_nil] at hshowsView
          have hheardView : Heard operation [([], view)] c := fun path heq x hx hprefix => by
            obtain rfl := List.mem_singleton.mp hx
            exact hheard path heq _ (mem_forEach_root rfl) hprefix
          obtain ⟨view', events', hrunView, hturnedView⟩ :=
            turned_applyOperation hshowsView hw hwrites hop hresolved hturns hheardView
          simp only [hrunView]
          refine ⟨_, _, rfl, hnode (some view'), ?_⟩
          rw [forEach_node, forEach_node]
          exact htraversed.append hturnedView

end FSyncTree

end MyChat
