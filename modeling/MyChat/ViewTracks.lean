import MyChat.ViewProcessor

/-!
# MyChat.ViewTracks

The processor tracks what it does. Whatever the operation and whatever the view knows so
far, the calls of `trackChildChange:` lead from the children of the event cache before
to those after (`accounted_process`), so the accumulator never meets an illegal
combination of changes, no assertion fails, and what is handed out is the difference
between the two event caches (`applyOperationOn_eq_ok`).

All operations but the user's merges track every child at most once (`AccountedOnce`).
There a value event is raised exactly if the event cache is complete, and was not or is
another one (`value_mem_maybeAddValue_iff`).
-/

namespace MyChat

open PathTree FUtilities FCompoundWrite NetChange

namespace FViewCache

/-- Nothing is filtered away in the views of the app. -/
structure WellFormed (viewCache : FViewCache) : Prop where
  event : viewCache.cachedEventSnap.node.WellFormed
  server : viewCache.cachedServerSnap.node.WellFormed
  eventUnfiltered : viewCache.cachedEventSnap.isFiltered = false
  serverUnfiltered : viewCache.cachedServerSnap.isFiltered = false

variable {viewCache : FViewCache} {node : FNode}

theorem WellFormed.updateEventSnap (h : viewCache.WellFormed) (hnode : node.WellFormed)
    (complete : Bool) : (viewCache.updateEventSnap node complete).WellFormed :=
  ⟨hnode, h.server, rfl, h.serverUnfiltered⟩

theorem WellFormed.updateServerSnap (h : viewCache.WellFormed) (hnode : node.WellFormed)
    (complete : Bool) : (viewCache.updateServerSnap node complete).WellFormed :=
  ⟨h.event, hnode, h.eventUnfiltered, rfl⟩

/-- The children that the observers know. -/
def eventChildren (viewCache : FViewCache) : String → Option FNode :=
  viewCache.cachedEventSnap.node.childMap

end FViewCache

/-- What an operation gives: a well-formed view, and what leads to its children. -/
structure Accounted (viewCache : FViewCache) (result : FViewCache × Tracked) : Prop where
  wellFormed : result.1.WellFormed
  leads : Leads viewCache.eventChildren result.2 result.1.eventChildren

/-- Besides, every child is tracked at most once, and only children with a key in `K`. -/
structure AccountedOnce (K : String → Prop) (viewCache : FViewCache) (result : FViewCache × Tracked) :
    Prop extends Accounted viewCache result where
  distinct : Distinct result.2
  keys : ∀ x ∈ result.2, K x.1

theorem Accounted.trans {viewCache viewCache' viewCache'' : FViewCache} {t t' : Tracked}
    (h : Accounted viewCache (viewCache', t)) (h' : Accounted viewCache' (viewCache'', t')) :
    Accounted viewCache (viewCache'', t ++ t') :=
  ⟨h'.wellFormed, leads_append.mpr ⟨_, h.leads, h'.leads⟩⟩

theorem AccountedOnce.mono {viewCache : FViewCache} {result : FViewCache × Tracked}
    {K K' : String → Prop} (h : AccountedOnce K viewCache result) (hK : ∀ k, K k → K' k) :
    AccountedOnce K' viewCache result :=
  ⟨h.toAccounted, h.distinct, fun x hx => hK x.1 (h.keys x hx)⟩

/-- The children that lie on a path. -/
def OnPath (path : Path) (k : String) : Prop := ∀ front ∈ path.head?, k = front

/-- What the processor needs of an operation: plain paths and well-formed nodes. -/
def FOperation.WellFormed : FOperation → Prop
  | .overwrite _ path snap => PlainPath path ∧ snap.WellFormed
  | .merge _ path children => PlainPath path ∧ FCompoundWrite.Placed children
  | .ackUserWrite path affectedTree _ => PlainPath path ∧ affectedTree.WellFormed (fun _ => True) ∧
      ∀ x ∈ affectedTree.forEach, PlainPath x.1
  | .listenComplete path => PlainPath path

namespace FViewProcessor

variable {viewCache : FViewCache} {writes : FWriteTreeRef} {path : Path} {snap : FNode}
  {merge : FCompoundWrite} {cache : Option FNode} {K : String → Prop} {k : String}

theorem accounted_refl (h : viewCache.WellFormed) : AccountedOnce K viewCache (viewCache, []) :=
  ⟨⟨h, rfl⟩, distinct_nil, by simp⟩

/-! ### Updates of the event cache -/

theorem accounted_updateFullNode (h : viewCache.WellFormed) {node : FNode} (hnode : node.WellFormed)
    (complete : Bool) :
    AccountedOnce (OnPath []) viewCache (viewCache.updateEventSnap node complete,
      (FIndexedFilter.updateFullNode viewCache.cachedEventSnap.node node).2) :=
  ⟨⟨h.updateEventSnap hnode complete, FIndexedFilter.leads_updateFullNode h.event hnode⟩,
    FIndexedFilter.distinct_updateFullNode h.event hnode, by simp [OnPath]⟩

theorem accounted_updateChildIn (h : viewCache.WellFormed) (hk : Plain k) {child : FNode}
    (hchild : child.WellFormed) (p : Path) (complete : Bool) :
    AccountedOnce (OnPath (k :: p)) viewCache
      (viewCache.updateEventSnap
        (FIndexedFilter.updateChildIn viewCache.cachedEventSnap.node k child p).1 complete,
        (FIndexedFilter.updateChildIn viewCache.cachedEventSnap.node k child p).2) := by
  obtain ⟨hdistinct, hkeys⟩ := FIndexedFilter.distinct_updateChildIn (k := k) (p := p) h.event hchild
  exact ⟨⟨h.updateEventSnap (FIndexedFilter.wellFormed_updateChildIn h.event hk hchild) complete,
    (FIndexedFilter.updateChildIn_spec h.event hk hchild).1⟩, hdistinct,
    fun x hx => by simpa [OnPath] using hkeys x hx⟩

/-! ### Server events -/

theorem wellFormed_newEventChild (h : viewCache.WellFormed) (hw : writes.Valid) (hk : Plain k)
    (hp : PlainPath path) {n : FNode} (hn : newEventChild viewCache k path writes = some n) :
    n.WellFormed := by
  have hold := h.event.getImmediateChild k
  unfold newEventChild at hn
  dsimp only at hn
  split at hn
  · have heq := FWriteTreeRef.calculateEventCacheAfterServerOverwrite_eq hw
      (plainPath_cons.mpr ⟨hk, hp⟩) h.server
    split at hn
    · next update hupdate =>
      rw [hupdate] at heq
      cases hn
      exact hold.updateChild hp heq.2.1
    · cases hn
      exact hold
  · exact FWriteTreeRef.wellFormed_of_calculateCompleteChild hw hk h.server hn

theorem accounted_generate (h : viewCache.WellFormed) (hw : writes.Valid) (hp : PlainPath path)
    (hfull : path = [] → viewCache.cachedServerSnap.isFullyInitialized = true) :
    ∃ r, generateEventCacheAfterServerEvent viewCache path writes = .ok r ∧
      AccountedOnce (OnPath path) viewCache r := by
  unfold generateEventCacheAfterServerEvent
  dsimp only
  split
  · exact ⟨_, rfl, accounted_refl h⟩
  · cases path with
    | nil =>
        obtain ⟨m, hm, hwf, -⟩ := FWriteTreeRef.calculateCompleteEventCache_some hw h.server
        simp only [hfull rfl, if_true, FViewCache.completeServerSnap, hm, Option.getD_some]
        exact ⟨_, rfl, accounted_updateFullNode h hwf true⟩
    | cons k p =>
        obtain ⟨hk, hp'⟩ := plainPath_cons.mp hp
        refine ⟨_, rfl, ?_⟩
        cases hchild : newEventChild viewCache k p writes with
        | none => exact ⟨⟨h.updateEventSnap h.event _, rfl⟩, distinct_nil, by simp⟩
        | some n => exact accounted_updateChildIn h hk (wellFormed_newEventChild h hw hk hp' hchild) p _

theorem accounted_applyServerOverwriteTo (h : viewCache.WellFormed) (hw : writes.Valid)
    (hp : PlainPath path) (hsnap : snap.WellFormed) :
    ∃ r, applyServerOverwriteTo viewCache path snap writes = .ok r ∧
      AccountedOnce (OnPath path) viewCache r := by
  -- what is tracked is about the event cache, and only the server's is changed before
  have hmid : ∀ {server : FNode} {complete : Bool}, server.WellFormed → (path = [] → complete = true) →
      ∃ r, generateEventCacheAfterServerEvent (viewCache.updateServerSnap server complete) path writes =
        .ok r ∧ AccountedOnce (OnPath path) viewCache r := by
    intro server complete hserver hfull
    have hmid : (viewCache.updateServerSnap server complete).WellFormed :=
      h.updateServerSnap hserver complete
    obtain ⟨r, hr, hacc⟩ := accounted_generate hmid hw hp hfull
    exact ⟨r, hr, ⟨hacc.wellFormed, hacc.leads⟩, hacc.distinct, hacc.keys⟩
  unfold applyServerOverwriteTo
  cases path with
  | nil => exact hmid hsnap fun _ => rfl
  | cons k p =>
      obtain ⟨hk, hp'⟩ := plainPath_cons.mp hp
      dsimp only
      split
      · exact ⟨_, rfl, accounted_refl h⟩
      · refine hmid (FIndexedFilter.wellFormed_updateChildIn h.server hk ?_) (by simp)
        exact (h.server.getImmediateChild k).updateChild hp' hsnap

theorem accounted_listenComplete (h : viewCache.WellFormed) (hw : writes.Valid) (hp : PlainPath path) :
    ∃ r, listenCompleteOldCache viewCache path writes = .ok r ∧
      AccountedOnce (OnPath path) viewCache r := by
  have hmid : (viewCache.updateServerSnap viewCache.cachedServerSnap.node
      (viewCache.cachedServerSnap.isFullyInitialized || path.isEmpty)).WellFormed :=
    h.updateServerSnap h.server _
  obtain ⟨r, hr, hacc⟩ := accounted_generate hmid hw hp (by
    rintro rfl
    simp [FViewCache.updateServerSnap])
  exact ⟨r, hr, ⟨hacc.wellFormed, hacc.leads⟩, hacc.distinct, hacc.keys⟩

/-! ### The user's writes -/

theorem wellFormed_completeChild (h : viewCache.WellFormed) (hw : writes.Valid)
    (hcache : ∀ n, cache = some n → n.WellFormed) (hk : Plain k) {n : FNode}
    (hn : completeChild writes viewCache cache k = some n) : n.WellFormed := by
  unfold completeChild at hn
  dsimp only at hn
  split at hn
  · cases hn
    exact h.event.getImmediateChild k
  · cases cache with
    | none => exact FWriteTreeRef.wellFormed_of_calculateCompleteChild hw hk h.server hn
    | some server =>
        have hserver : (⟨server, true, false⟩ : FCacheNode).node.WellFormed := hcache server rfl
        exact FWriteTreeRef.wellFormed_of_calculateCompleteChild hw hk hserver hn

theorem wellFormed_newUserChild (h : viewCache.WellFormed) (hw : writes.Valid)
    (hcache : ∀ n, cache = some n → n.WellFormed) (hk : Plain k) (hp : PlainPath path)
    (hsnap : snap.WellFormed) : (newUserChild viewCache k path snap writes cache).WellFormed := by
  unfold newUserChild
  split
  · exact hsnap
  · split
    · next child hchild =>
      exact (wellFormed_completeChild h hw hcache hk hchild).updateChild hp hsnap
    · exact FNode.wellFormed_emptyNode

theorem accounted_applyUserOverwriteTo (h : viewCache.WellFormed) (hw : writes.Valid)
    (hp : PlainPath path) (hsnap : snap.WellFormed) (hcache : ∀ n, cache = some n → n.WellFormed) :
    AccountedOnce (OnPath path) viewCache (applyUserOverwriteTo viewCache path snap writes cache) := by
  unfold applyUserOverwriteTo
  cases path with
  | nil => exact accounted_updateFullNode h hsnap true
  | cons k p =>
      obtain ⟨hk, hp'⟩ := plainPath_cons.mp hp
      dsimp only
      split
      · exact accounted_refl h
      · exact accounted_updateChildIn h hk (wellFormed_newUserChild h hw hcache hk hp' hsnap) p _

/-- Several steps, each on what the one before it gave. -/
theorem accounted_foldl {β : Type} {f : FViewCache → β → FViewCache × Tracked} {xs : List β}
    {t : Tracked} {start : FViewCache} (h : Accounted start (viewCache, t))
    (hf : ∀ x ∈ xs, ∀ cur : FViewCache, cur.WellFormed → Accounted cur (f cur x)) :
    Accounted start (xs.foldl (fun cur x =>
      let (newViewCache, tracked) := f cur.1 x
      (newViewCache, cur.2 ++ tracked)) (viewCache, t)) := by
  induction xs generalizing viewCache t with
  | nil => exact h
  | cons x xs ih =>
      obtain ⟨hx, hxs⟩ := List.forall_mem_cons.mp hf
      exact ih (Accounted.trans h (hx viewCache h.wellFormed)) hxs

theorem accounted_applyUserMergeTo (h : viewCache.WellFormed) (hw : writes.Valid)
    (hp : PlainPath path) (hmerge : FCompoundWrite.Placed merge)
    (hcache : ∀ n, cache = some n → n.WellFormed) :
    Accounted viewCache (applyUserMergeTo viewCache path merge writes cache) := by
  refine accounted_foldl (f := fun cur (x : Path × FNode) => applyUserOverwriteTo cur x.1 x.2 writes cache)
    ⟨h, rfl⟩ fun x hx cur hcur => ?_
  have hmem : x ∈ merge.forEach.map fun x => (path ++ x.1, x.2) := by
    rcases List.mem_append.mp hx with hx | hx
    · exact (List.mem_filter.mp hx).1
    · exact (List.mem_filter.mp hx).1
  obtain ⟨y, hy, rfl⟩ := List.mem_map.mp hmem
  obtain ⟨hwf, hplain⟩ := hmerge.of_mem_forEach hy
  exact (accounted_applyUserOverwriteTo hcur hw (plainPath_append.mpr ⟨hp, hplain⟩) hwf hcache).toAccounted

/-! ### Merges from the server -/

/-- Steps on children that are all different. -/
theorem accounted_foldlM {β : Type} {f : FViewCache → String × β → Except String (FViewCache × Tracked)}
    {xs : List (String × β)} {t : Tracked} {start : FViewCache}
    (h : AccountedOnce K start (viewCache, t))
    (hf : ∀ x ∈ xs, ∀ cur : FViewCache, cur.WellFormed →
      ∃ r, f cur x = .ok r ∧ AccountedOnce (OnPath [x.1]) cur r)
    (hkeys : xs.Pairwise fun x y => x.1 ≠ y.1) (hK : ∀ x ∈ xs, ¬ K x.1) :
    ∃ r, xs.foldlM (fun cur x => do
        let (newViewCache, tracked) ← f cur.1 x
        return (newViewCache, cur.2 ++ tracked)) (viewCache, t) = .ok r ∧
      AccountedOnce (fun k => K k ∨ ∃ x ∈ xs, k = x.1) start r := by
  induction xs generalizing viewCache t K with
  | nil => exact ⟨_, rfl, h.mono fun k hk => Or.inl hk⟩
  | cons x xs ih =>
      obtain ⟨hx, hxs⟩ := List.forall_mem_cons.mp hf
      obtain ⟨hKx, hKxs⟩ := List.forall_mem_cons.mp hK
      obtain ⟨hne, hkeys⟩ := List.pairwise_cons.mp hkeys
      obtain ⟨⟨cur, t'⟩, hr, hacc⟩ := hx viewCache h.wellFormed
      have hkey : ∀ y ∈ t', y.1 = x.1 := fun y hy => by simpa [OnPath] using hacc.keys y hy
      have hstep : AccountedOnce (fun k => K k ∨ k = x.1) start (cur, t ++ t') := by
        refine ⟨Accounted.trans h.toAccounted hacc.toAccounted, ?_, fun y hy => ?_⟩
        · refine h.distinct.append hacc.distinct fun y hy z hz heq => hKx ?_
          rw [← hkey z hz, ← heq]
          exact h.keys y hy
        · exact (List.mem_append.mp hy).imp (h.keys y) (hkey y)
      obtain ⟨r, hrest, hacc'⟩ := ih hstep hxs hkeys fun y hy hor =>
        hor.elim (hKxs y hy) fun heq => hne y hy heq.symm
      refine ⟨r, ?_, hacc'.mono fun k hk => ?_⟩
      · rw [List.foldlM_cons, hr]
        exact hrest
      · rcases hk with (hk | hk) | ⟨y, hy, hk⟩
        · exact Or.inl hk
        · exact Or.inr ⟨x, List.mem_cons_self, hk⟩
        · exact Or.inr ⟨y, List.mem_cons_of_mem _ hy, hk⟩

/-- Writes of well-formed nodes at plain paths make a compound write of such. -/
theorem placed_foldl_addWrite {β : Type} {f : β → Path × FNode} {xs : List β} {write : FCompoundWrite}
    (h : FCompoundWrite.Placed write) (hxs : ∀ x ∈ xs, (f x).2.WellFormed ∧ PlainPath (f x).1) :
    FCompoundWrite.Placed (xs.foldl (fun write x => addWrite write (f x).2 (f x).1) write) := by
  induction xs generalizing write with
  | nil => exact h
  | cons x xs ih =>
      obtain ⟨hx, hxs⟩ := List.forall_mem_cons.mp hxs
      exact ih (toTree_addWrite h hx.1 hx.2).1 hxs

theorem placed_addCompoundWrite {write : FCompoundWrite} (h : FCompoundWrite.Placed write)
    (hmerge : FCompoundWrite.Placed merge) (hp : PlainPath path) :
    FCompoundWrite.Placed (addCompoundWrite write merge path) := by
  refine placed_foldl_addWrite (f := fun x : Path × FNode => (path ++ x.1, x.2)) h fun x hx => ?_
  obtain ⟨hwf, hplain⟩ := hmerge.of_mem_forEach hx
  exact ⟨hwf, plainPath_append.mpr ⟨hp, hplain⟩⟩

/-- The children of a compound write have different keys, in whatever order two parts of
them are taken. -/
theorem pairwise_keys_parts {write : FCompoundWrite} (h : FCompoundWrite.Placed write)
    {P q : String × FCompoundWrite → Bool} (hPq : ∀ x, P x = true → q x = true → False) :
    (write.children.filter P ++ write.children.filter q).Pairwise fun x y => x.1 ≠ y.1 := by
  have hne : write.children.Pairwise fun x y => x.1 ≠ y.1 := by
    have hwf := h.wf
    cases hwf with
    | value hv => exact List.Pairwise.nil
    | children sorted nonempty wf => exact sorted.ne
  refine List.pairwise_append.mpr ⟨hne.filter P, hne.filter q, fun x hx y hy heq => ?_⟩
  obtain ⟨hx, hPx⟩ := List.mem_filter.mp hx
  obtain ⟨hy, hqy⟩ := List.mem_filter.mp hy
  have hnodup : (write.children.map Prod.fst).Nodup := List.pairwise_map.mpr hne
  exact hPq x hPx (List.inj_on_of_nodup_map hnodup hx hy heq ▸ hqy)

theorem accounted_applyServerMergeTo (h : viewCache.WellFormed) (hw : writes.Valid)
    (hp : PlainPath path) (hmerge : FCompoundWrite.Placed merge) :
    ∃ r, applyServerMergeTo viewCache path merge writes = .ok r ∧
      AccountedOnce (fun _ => True) viewCache r := by
  unfold applyServerMergeTo
  dsimp only
  split
  · exact ⟨_, rfl, accounted_refl h⟩
  · generalize hactual : (if path = [] then merge else addCompoundWrite emptyWrite merge path) = actual
    have hplaced : FCompoundWrite.Placed actual := by
      subst hactual
      split
      · exact hmerge
      · exact placed_addCompoundWrite valid_emptyWrite.toPlaced hmerge hp
    have hkeys := pairwise_keys_parts hplaced
      (P := fun x => viewCache.cachedServerSnap.node.hasChild x.1)
      (q := fun x => decide (¬ viewCache.cachedServerSnap.node.hasChild x.1 ∧
        ¬ (¬ viewCache.cachedServerSnap.isCompleteForChild x.1 ∧ (rootWrite x.2).isNone)))
      (by simp_all)
    obtain ⟨r, hr, hacc⟩ := accounted_foldlM (K := fun _ => False)
      (f := fun cur (x : String × FCompoundWrite) => applyServerOverwriteTo cur [x.1]
        (applyToNode x.2 (viewCache.cachedServerSnap.node.getImmediateChild x.1)) writes)
      (accounted_refl h) (fun x hx cur hcur => by
        have hmem : x ∈ actual.children := by
          rcases List.mem_append.mp hx with hx | hx
          · exact (List.mem_filter.mp hx).1
          · exact (List.mem_filter.mp hx).1
        obtain ⟨hk, hchild⟩ := hplaced.child hmem
        exact accounted_applyServerOverwriteTo hcur hw (by simpa using hk)
          (wellFormed_applyToNode hchild (h.server.getImmediateChild x.1)))
      hkeys (fun _ _ => id)
    exact ⟨r, hr, hacc.mono fun _ _ => trivial⟩

/-! ### Acknowledged and reverted writes -/

theorem accounted_ackUserWriteOn (h : viewCache.WellFormed) (hw : writes.Valid) (hp : PlainPath path)
    {affected : FImmutableTree Bool} (haffected : ∀ x ∈ affected.forEach, PlainPath x.1) :
    ∃ r, ackUserWriteOn viewCache path affected writes = .ok r ∧
      AccountedOnce (fun _ => True) viewCache r := by
  unfold ackUserWriteOn
  dsimp only
  split
  · exact ⟨_, rfl, accounted_refl h⟩
  · split
    · split
      · obtain ⟨r, hr, hacc⟩ := accounted_applyServerOverwriteTo h hw hp (h.server.getChild path)
        exact ⟨r, hr, hacc.mono fun _ _ => trivial⟩
      · split
        · refine accounted_applyServerMergeTo h hw hp ?_
          refine placed_foldl_addWrite (f := fun x : String × FNode => ([x.1], x.2))
            valid_emptyWrite.toPlaced fun x hx => ?_
          obtain ⟨hk, hwf⟩ := FWriteTreeRef.wellFormed_enumerateChildren h.server x hx
          exact ⟨hwf, by simpa using hk⟩
        · exact ⟨_, rfl, accounted_refl h⟩
    · refine accounted_applyServerMergeTo h hw hp ?_
      refine placed_foldl_addWrite (f := fun x : Path × Bool =>
        (x.1, viewCache.cachedServerSnap.node.getChild (path ++ x.1)))
        valid_emptyWrite.toPlaced fun x hx => ?_
      exact ⟨h.server.getChild _, haffected x (List.mem_filter.mp hx).1⟩

theorem accounted_revertChild (h : viewCache.WellFormed) (hw : writes.Valid) (hk : Plain k)
    (p : Path) (complete : Bool) :
    AccountedOnce (OnPath (k :: p)) viewCache
      (viewCache.updateEventSnap (revertChild viewCache k p writes).1 complete,
        (revertChild viewCache k p writes).2) := by
  unfold revertChild
  dsimp only
  split
  · next n hn =>
    refine accounted_updateChildIn h hk ?_ p complete
    split at hn
    · next m hm =>
      cases hn
      exact FWriteTreeRef.wellFormed_of_calculateCompleteChild hw hk h.server hm
    · split at hn
      · cases hn
        exact h.event.getImmediateChild k
      · cases hn
  · split
    · exact accounted_updateChildIn h hk FNode.wellFormed_emptyNode p complete
    · exact ⟨⟨h.updateEventSnap h.event complete, rfl⟩, distinct_nil, by simp⟩

/-- Only an empty event cache is replaced by a leaf, and neither has children. -/
theorem accounted_restoreLeaf (h : viewCache.WellFormed) (hw : writes.Valid) {node : FNode}
    (hnode : node.WellFormed) :
    (restoreLeaf viewCache node writes).1.WellFormed ∧
      (restoreLeaf viewCache node writes).2 = [] ∧
      (restoreLeaf viewCache node writes).1.childMap = node.childMap := by
  obtain ⟨m, hm, hwf, -⟩ := FWriteTreeRef.calculateCompleteEventCache_some hw h.server
  unfold restoreLeaf
  split
  · next hcond =>
    rw [FViewCache.completeServerSnap, if_pos hcond.2, hm]
    dsimp only
    split
    · next hleaf =>
      rw [FNode.isEmpty_iff.mp hcond.1]
      cases m with
      | leaf v =>
          refine ⟨hwf, rfl, funext fun k => ?_⟩
          rw [FNode.childMap, FNode.childMap]
          rfl
      | children entries => cases hleaf
    · exact ⟨hnode, rfl, rfl⟩
  · exact ⟨hnode, rfl, rfl⟩

theorem accounted_revertUserWriteOn (h : viewCache.WellFormed) (hw : writes.Valid)
    (hp : PlainPath path) :
    AccountedOnce (OnPath path) viewCache (revertUserWriteOn viewCache path writes) := by
  unfold revertUserWriteOn
  dsimp only
  split
  · exact accounted_refl h
  · cases path with
    | nil =>
        refine accounted_updateFullNode h ?_ _
        by_cases hfull : viewCache.cachedServerSnap.isFullyInitialized = true
        · obtain ⟨m, hm, hwf, -⟩ := FWriteTreeRef.calculateCompleteEventCache_some hw h.server
          rw [if_pos hfull, FViewCache.completeServerSnap, if_pos hfull, hm]
          exact hwf
        · rw [if_neg hfull]
          exact FWriteTreeRef.wellFormed_calculateCompleteEventChildren hw h.server
    | cons k p =>
        have hchild := accounted_revertChild h hw (plainPath_cons.mp hp).1 p true
        have hnode : (revertChild viewCache k p writes).1.WellFormed := hchild.wellFormed.event
        obtain ⟨hwf, hnil, hmap⟩ := accounted_restoreLeaf h hw hnode
        dsimp only
        rw [hnil, List.append_nil]
        refine ⟨⟨h.updateEventSnap hwf _, ?_⟩, hchild.distinct, hchild.keys⟩
        show Leads _ _ (restoreLeaf viewCache (revertChild viewCache k p writes).1 writes).1.childMap
        rw [hmap]
        exact hchild.leads

/-! ### All operations -/

/-- The user merges children. -/
def IsUserMerge : FOperation → Prop
  | .merge true _ _ => True
  | _ => False

/-- **Every operation is accounted for**, and none fails. -/
theorem accounted_process (h : viewCache.WellFormed) (hw : writes.Valid) {operation : FOperation}
    (hop : operation.WellFormed) (hcache : ∀ n, cache = some n → n.WellFormed) :
    ∃ r, process viewCache writes cache operation = .ok r ∧ Accounted viewCache r ∧
      (¬ IsUserMerge operation → Distinct r.2) := by
  have honce : ∀ {K : String → Prop} {x : Except String (FViewCache × Tracked)},
      (∃ r, x = .ok r ∧ AccountedOnce K viewCache r) →
      ∃ r, x = .ok r ∧ Accounted viewCache r ∧ (¬ IsUserMerge operation → Distinct r.2) :=
    fun ⟨r, hr, hacc⟩ => ⟨r, hr, hacc.toAccounted, fun _ => hacc.distinct⟩
  cases operation with
  | overwrite fromUser path snap =>
      cases fromUser with
      | true => exact honce ⟨_, rfl, accounted_applyUserOverwriteTo h hw hop.1 hop.2 hcache⟩
      | false => exact honce (accounted_applyServerOverwriteTo h hw hop.1 hop.2)
  | merge fromUser path children =>
      cases fromUser with
      | true =>
          exact ⟨_, rfl, accounted_applyUserMergeTo h hw hop.1 hop.2 hcache, fun hnot => absurd trivial hnot⟩
      | false => exact honce (accounted_applyServerMergeTo h hw hop.1 hop.2)
  | ackUserWrite path affectedTree revert =>
      cases revert with
      | true => exact honce ⟨_, rfl, accounted_revertUserWriteOn h hw hop.1⟩
      | false => exact honce (accounted_ackUserWriteOn h hw hop.1 hop.2.2)
  | listenComplete path => exact honce (accounted_listenComplete h hw hop)

/-! ### What is raised -/

variable {newViewCache : FViewCache} {operation : FOperation} {changeMap : FChildChangeAccumulator}

/-- The event cache is complete, and it was not or is another one. -/
def ValueChanged (viewCache newViewCache : FViewCache) : Prop :=
  newViewCache.cachedEventSnap.isFullyInitialized = true ∧
    (viewCache.cachedEventSnap.isFullyInitialized = false ∨
      viewCache.cachedEventSnap.node ≠ newViewCache.cachedEventSnap.node)

/-- A node with children differs in a child from all other nodes. -/
theorem exists_childMap_ne {node other : FNode} (h : node.WellFormed) (h' : other.WellFormed)
    (hchildren : (other.isLeafNode || other.isEmpty) = false) (hne : node ≠ other) :
    ∃ k, node.childMap k ≠ other.childMap k := by
  by_contra hall
  push Not at hall
  rw [Bool.or_eq_false_iff, FNode.isLeafNode, Option.isSome_eq_false_iff, Option.isNone_iff_eq_none] at hchildren
  refine hne (h.eq_of_childMap h' ?_ (funext hall))
  rw [hchildren.1]
  cases node with
  | children entries => rfl
  | leaf v =>
      -- a leaf has no children, and the other node has one
      cases other with
      | leaf v => cases hchildren.1
      | children entries =>
          obtain ⟨e, he⟩ := List.exists_mem_of_ne_nil entries (by
            rintro rfl
            cases hchildren.2)
          have hsome := (FNode.childMap_eq_some_iff h').mpr (show (e.1, e.2) ∈ _ from he)
          rw [← hall e.1, FNode.childMap_eq_some_iff h] at hsome
          cases hsome

/-- A value event is raised when the event cache changed or became complete. -/
theorem value_mem_maybeAddValue (h : viewCache.WellFormed) (h' : newViewCache.WellFormed)
    (htracks : Tracks viewCache.eventChildren (kept changeMap) newViewCache.eventChildren)
    (hchanged : ValueChanged viewCache newViewCache) :
    maybeAddValue viewCache newViewCache (changeMap.map fun x => FChange.child x.1 x.2) =
      (changeMap.map fun x => FChange.child x.1 x.2) ++
        [.value newViewCache.cachedEventSnap.node] := by
  obtain ⟨hfull, hor⟩ := hchanged
  unfold maybeAddValue
  dsimp only
  rw [if_pos hfull, if_pos]
  rcases hor with hnew | hdiff
  · exact Or.inr (Or.inl (by simp [hnew]))
  · by_cases hleaf : (newViewCache.cachedEventSnap.node.isLeafNode ||
        newViewCache.cachedEventSnap.node.isEmpty) = true
    · exact Or.inr (Or.inr ⟨hleaf, fun heq => hdiff ((FNode.isEqual_iff h'.event h.event).mp heq).symm⟩)
    · obtain ⟨k, hk⟩ := exists_childMap_ne h.event h'.event (by simpa using hleaf) hdiff
      refine Or.inl fun hnil => hk ?_
      rw [List.map_eq_nil_iff] at hnil
      have hspans := htracks k
      rw [hnil] at hspans
      exact hspans

/-- **Value events.** With every child tracked at most once, one is raised exactly if the
event cache is complete, and was not or is another one. -/
theorem value_mem_maybeAddValue_iff (h : viewCache.WellFormed) (h' : newViewCache.WellFormed)
    (hs : SortedList.Sorted stringComparator changeMap)
    (htracks : Tracks viewCache.eventChildren (kept changeMap) newViewCache.eventChildren)
    (hdiffer : ∀ x ∈ changeMap, x.2.before ≠ x.2.after) {node : FNode} :
    FChange.value node ∈
        maybeAddValue viewCache newViewCache (changeMap.map fun x => FChange.child x.1 x.2) ↔
      node = newViewCache.cachedEventSnap.node ∧ ValueChanged viewCache newViewCache := by
  have hnot : FChange.value node ∉ changeMap.map fun x => FChange.child x.1 x.2 := by simp
  by_cases hchanged : ValueChanged viewCache newViewCache
  · rw [value_mem_maybeAddValue h h' htracks hchanged, List.mem_append, List.mem_singleton,
      FChange.value.injEq]
    exact ⟨fun hmem => ⟨hmem.resolve_left hnot, hchanged⟩, fun hmem => Or.inr hmem.1⟩
  · refine iff_of_false (fun hmem => ?_) fun hmem => hchanged hmem.2
    unfold maybeAddValue at hmem
    dsimp only at hmem
    split at hmem
    · next hfull =>
      split at hmem
      · next hcond =>
        refine hchanged ⟨hfull, ?_⟩
        rcases hcond with hne | hnew | ⟨-, hdiff⟩
        · obtain ⟨x, hx⟩ := List.exists_mem_of_ne_nil changeMap fun hnil => hne (by rw [hnil]; rfl)
          -- a difference under one key makes two event caches
          have hspans := htracks x.1
          rw [(mem_of_kept hs).mpr hx] at hspans
          refine Or.inr fun heq => hdiffer x hx (hspans.1.trans (Eq.trans ?_ hspans.2.symm))
          rw [FViewCache.eventChildren, FViewCache.eventChildren, heq]
        · exact Or.inl (by simpa using hnew)
        · exact Or.inr fun heq => hdiff ((FNode.isEqual_iff h'.event h.event).mpr heq.symm)
      · exact hnot hmem
    · exact hnot hmem

/-- **Every operation** goes through, and hands out exactly the difference between the
children the observers know and those of the new event cache. -/
theorem applyOperationOn_eq_ok (h : viewCache.WellFormed) (hw : writes.Valid)
    (hop : operation.WellFormed) (hcache : ∀ n, cache = some n → n.WellFormed) :
    ∃ r changeMap, process viewCache writes cache operation = .ok r ∧
      applyOperationOn viewCache operation writes cache =
        .ok (r.1, maybeAddValue viewCache r.1 (changeMap.map fun x => FChange.child x.1 x.2)) ∧
      r.1.WellFormed ∧ SortedList.Sorted stringComparator changeMap ∧
      Tracks viewCache.eventChildren (kept changeMap) r.1.eventChildren ∧
      (¬ IsUserMerge operation → ∀ x ∈ changeMap, x.2.before ≠ x.2.after) := by
  obtain ⟨r, hr, hacc, hdistinct⟩ := accounted_process h hw hop hcache
  obtain ⟨changeMap, hrun, hs, htracks, hdiffer⟩ := foldlM_trackChildChange hacc.leads
  refine ⟨r, changeMap, hr, ?_, hacc.wellFormed, hs, htracks, fun hnot => hdiffer (hdistinct hnot)⟩
  rw [applyOperationOn, hr]
  dsimp only [bind, Except.bind] at hrun ⊢
  rw [hrun]
  rfl

end FViewProcessor

end MyChat
