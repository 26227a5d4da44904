import MyChat.ViewTracks

/-!
# MyChat.ViewCache

What each function of `FViewProcessor` does to the data of a view that is complete: the
event cache shows the writes on top of what the server has, and the functions bring it
to the same on top of what the server has then. Where a cache has parts only, what the
functions leave as it was.
-/

namespace MyChat

open PathTree FUtilities FCompoundWrite NetChange

/-! ### Updates of a cached node -/

namespace FIndexedFilter

variable {node snap newChild : FNode} {k : String} {p : Path}

/-- What is written at a path stands there already. -/
theorem graft_data_eq_of_same (h : node.WellFormed) (hp : PlainPath (k :: p)) (hsnap : snap.WellFormed)
    (hclear : snap.data ≠ ∅ ∨ node.data.ClearAbove (k :: p))
    (hsame : (node.getImmediateChild k).getChild p =
      ((node.getImmediateChild k).updateChild p snap).getChild p) :
    node.data.graft (k :: p) snap.data = node.data := by
  obtain ⟨hk, hp'⟩ := plainPath_cons.mp hp
  have hold := h.getImmediateChild k
  have hchild : snap.data ≠ ∅ ∨ (node.getImmediateChild k).data.ClearAbove p := by
    rw [FNode.data_getImmediateChild h hk]
    exact hclear.imp_right ClearAbove.subtree
  have hsub : node.data.subtree (k :: p) = snap.data := by
    have hdata := congrArg FNode.data hsame
    rwa [FNode.data_getChild hold hp', FNode.data_getChild (hold.updateChild hp' hsnap) hp',
      FNode.data_updateChild_of_clearAbove hold hp' hsnap hchild, subtree_graft_self,
      FNode.data_getImmediateChild h hk, subtree_subtree] at hdata
  rw [← hsub, ClearAbove.graft_subtree]
  exact hclear.elim (fun hne => clearAbove_of_subtree_ne (by rwa [hsub])) id

/-- **An update below a child** grafts. -/
theorem data_updateChildIn (h : node.WellFormed) (hp : PlainPath (k :: p)) (hsnap : snap.WellFormed)
    (hclear : snap.data ≠ ∅ ∨ node.data.ClearAbove (k :: p)) :
    (updateChildIn node k ((node.getImmediateChild k).updateChild p snap) p).1.data =
      node.data.graft (k :: p) snap.data := by
  obtain ⟨hk, hp'⟩ := plainPath_cons.mp hp
  have hnew := (h.getImmediateChild k).updateChild hp' hsnap
  rcases (updateChildIn_spec (p := p) h hk hnew).2 with heq | ⟨heq, hsame, -⟩
  · rw [heq, ← FNode.updateChild_cons, FNode.data_updateChild_of_clearAbove h hp hsnap hclear]
  · rw [heq, graft_data_eq_of_same h hp hsnap hclear hsame]

end FIndexedFilter

/-! ### What is true at a location -/

namespace FCacheNode

/-- The cache is complete, and what it has is `s`. -/
def Complete (cache : FCacheNode) (s : Snapshot) : Prop :=
  cache.isFullyInitialized = true ∧ cache.node.data = s

variable {cache : FCacheNode} {s : Snapshot} {k : String}

theorem Complete.isCompleteForChild (h : cache.Complete s) (hunfiltered : cache.isFiltered = false) :
    cache.isCompleteForChild k = true := by
  simp [FCacheNode.isCompleteForChild, h.1, hunfiltered]

end FCacheNode

namespace FViewProcessor

variable {viewCache : FViewCache} {writes : FWriteTreeRef} {path : Path} {snap : FNode}
  {base server : Snapshot} {r : FViewCache × Tracked}

/-! ### Server events -/

/-- **After a server event** the event cache has what the server's cache has at the path,
with the pending writes on top. -/
theorem complete_generate (h : viewCache.WellFormed) (hw : writes.Valid) (hp : PlainPath path)
    (hclear : viewCache.cachedServerSnap.node.data.subtree path ≠ ∅ ∨ base.ClearAbove path)
    (hevent : path ≠ [] ∨ writes.overlay.rootMost [] ≠ none →
      viewCache.cachedEventSnap.Complete (writes.overlay.apply base))
    (hr : generateEventCacheAfterServerEvent viewCache path writes = .ok r) :
    r.1.cachedServerSnap = viewCache.cachedServerSnap ∧
      r.1.cachedEventSnap.Complete (writes.overlay.apply
        (base.graft path (viewCache.cachedServerSnap.node.data.subtree path))) := by
  unfold generateEventCacheAfterServerEvent at hr
  dsimp only at hr
  split at hr
  · next hshadow =>
    cases hr
    have hhidden : writes.overlay.rootMost path ≠ none := fun hnone => by
      rw [(FWriteTreeRef.shadowingWriteAtPath_eq_none_iff hw).mpr hnone] at hshadow
      cases hshadow
    refine ⟨rfl, ?_⟩
    rw [← Overlay.apply_congr_of_hidden hhidden (AgreeBeside.of_graft base path _).symm]
    refine hevent ?_
    by_cases hnil : path = []
    · exact Or.inr (hnil ▸ hhidden)
    · exact Or.inl hnil
  · next hshadow =>
    have hvisible : writes.overlay.rootMost path = none := by
      rw [← FWriteTreeRef.shadowingWriteAtPath_eq_none_iff hw]
      simpa using hshadow
    cases path with
    | nil =>
        obtain ⟨m, hm, -, hdata⟩ := FWriteTreeRef.calculateCompleteEventCache_some hw h.server
        dsimp only at hr
        split at hr
        · next hfull =>
          rw [FViewCache.completeServerSnap, if_pos hfull, hm] at hr
          cases hr
          refine ⟨rfl, rfl, ?_⟩
          rw [graft_nil, subtree_nil]
          exact hdata
        · cases hr
    | cons k p =>
        obtain ⟨hfull, hold⟩ := hevent (Or.inl (List.cons_ne_nil k p))
        have hcomplete : viewCache.cachedEventSnap.isCompleteForChild k = true :=
          FCacheNode.Complete.isCompleteForChild ⟨hfull, hold⟩ h.eventUnfiltered
        have heq := FWriteTreeRef.calculateEventCacheAfterServerOverwrite_eq hw hp h.server
        simp only [newEventChild, hcomplete, if_true] at hr
        split at heq
        · next m hm =>
          obtain ⟨-, hwf, hdata⟩ := heq
          rw [hm] at hr
          cases hr
          refine ⟨rfl, hfull, ?_⟩
          rw [Overlay.apply_graft hvisible, ← hold, ← hdata]
          refine FIndexedFilter.data_updateChildIn h.event hp hwf ?_
          rw [hold, hdata]
          exact hclear.imp (fun hne => Overlay.apply_ne_empty
              (FWriteTreeRef.ne_empty_of_mem_below hw hvisible) (Or.inr hne))
            (Overlay.clearAbove_apply hvisible)
        · exact absurd hvisible heq

/-- Where a pending write hides the location, the event cache stays. -/
theorem generate_of_hidden (hw : writes.Valid) (hhidden : writes.overlay.rootMost [] ≠ none) :
    generateEventCacheAfterServerEvent viewCache path writes = .ok (viewCache, []) := by
  unfold generateEventCacheAfterServerEvent
  rw [if_pos]
  have hpath := Overlay.rootMost_ne_none_of_nil hhidden path
  rw [Ne, ← FWriteTreeRef.shadowingWriteAtPath_eq_none_iff hw] at hpath
  exact Option.isSome_iff_ne_none.mpr hpath

theorem cachedServerSnap_generate
    (hr : generateEventCacheAfterServerEvent viewCache path writes = .ok r) :
    r.1.cachedServerSnap = viewCache.cachedServerSnap := by
  unfold generateEventCacheAfterServerEvent at hr
  dsimp only at hr
  split at hr
  · cases hr
    rfl
  · cases path with
    | nil =>
        dsimp only at hr
        split at hr
        · cases hr
          rfl
        · cases hr
    | cons k p =>
        cases hr
        rfl

/-- **The server overwrites.** -/
theorem complete_applyServerOverwriteTo (h : viewCache.WellFormed) (hw : writes.Valid)
    (hp : PlainPath path) (hsnap : snap.WellFormed)
    (hclear : snap.data ≠ ∅ ∨ server.ClearAbove path ∧ base.ClearAbove path)
    (hserver : path ≠ [] → viewCache.cachedServerSnap.Complete server)
    (hevent : path ≠ [] ∨ writes.overlay.rootMost [] ≠ none →
      viewCache.cachedEventSnap.Complete (writes.overlay.apply base))
    (hr : applyServerOverwriteTo viewCache path snap writes = .ok r) :
    r.1.cachedServerSnap.Complete (server.graft path snap.data) ∧
      r.1.cachedEventSnap.Complete (writes.overlay.apply (base.graft path snap.data)) := by
  -- the server's cache has the node, the rest is a server event
  have hmid : ∀ {node : FNode}, node.WellFormed → node.data = server.graft path snap.data →
      generateEventCacheAfterServerEvent (viewCache.updateServerSnap node true) path writes = .ok r →
        r.1.cachedServerSnap.Complete (server.graft path snap.data) ∧
          r.1.cachedEventSnap.Complete (writes.overlay.apply (base.graft path snap.data)) := by
    intro node hnode hdata hrun
    have hsub : node.data.subtree path = snap.data := by rw [hdata, subtree_graft_self]
    obtain ⟨hsame, hshown⟩ := complete_generate (h.updateServerSnap hnode true) hw hp
      (hclear.imp (fun hne => by rwa [← hsub] at hne) And.right) hevent hrun
    rw [hsame]
    refine ⟨⟨rfl, hdata⟩, ?_⟩
    rw [← hsub]
    exact hshown
  unfold applyServerOverwriteTo at hr
  cases path with
  | nil => exact hmid hsnap (graft_nil _ _).symm hr
  | cons k p =>
      obtain ⟨hfull, hold⟩ := hserver (List.cons_ne_nil k p)
      have hcomplete : viewCache.cachedServerSnap.isCompleteForPath (k :: p) = true :=
        FCacheNode.Complete.isCompleteForChild ⟨hfull, hold⟩ h.serverUnfiltered
      dsimp only at hr
      rw [if_neg (by simp [hcomplete]), hfull] at hr
      have hchild := (h.server.getImmediateChild k).updateChild (plainPath_cons.mp hp).2 hsnap
      refine hmid (FIndexedFilter.wellFormed_updateChildIn h.server (plainPath_cons.mp hp).1 hchild) ?_ hr
      rw [FIndexedFilter.data_updateChildIn h.server hp hsnap (hclear.imp_right fun hboth => ?_), hold]
      rw [hold]
      exact hboth.1

/-- A part of the server's data does not complete the server's cache. -/
theorem applyServerOverwriteTo_of_part (hw : writes.Valid) (hne : path ≠ [])
    (hr : applyServerOverwriteTo viewCache path snap writes = .ok r) :
    r.1.cachedServerSnap.isFullyInitialized = viewCache.cachedServerSnap.isFullyInitialized ∧
      (writes.overlay.rootMost [] ≠ none → r.1.cachedEventSnap = viewCache.cachedEventSnap) := by
  unfold applyServerOverwriteTo at hr
  cases path with
  | nil => exact absurd rfl hne
  | cons k p =>
      dsimp only at hr
      split at hr
      · cases hr
        exact ⟨rfl, fun _ => rfl⟩
      · refine ⟨by rw [cachedServerSnap_generate hr]; rfl, fun hhidden => ?_⟩
        rw [generate_of_hidden hw hhidden] at hr
        cases hr
        rfl

/-! ### Merges from the server -/

/-- Overwrites of children, one after another. -/
theorem complete_foldlM (hw : writes.Valid) {xs : List (String × FNode)}
    (hxs : ∀ x ∈ xs, Plain x.1 ∧ x.2.WellFormed ∧ x.2.data ≠ ∅) (h : viewCache.WellFormed)
    (hserver : viewCache.cachedServerSnap.Complete server)
    (hevent : viewCache.cachedEventSnap.Complete (writes.overlay.apply base)) {t : Tracked}
    (hr : xs.foldlM (fun cur x => do
        let (newViewCache, tracked) ← applyServerOverwriteTo cur.1 [x.1] x.2 writes
        return (newViewCache, cur.2 ++ tracked)) (viewCache, t) = .ok r) :
    r.1.cachedServerSnap.Complete (server.graftAll (xs.map fun x => ([x.1], x.2.data))) ∧
      r.1.cachedEventSnap.Complete
        (writes.overlay.apply (base.graftAll (xs.map fun x => ([x.1], x.2.data)))) := by
  induction xs generalizing viewCache server base t with
  | nil =>
      cases hr
      exact ⟨hserver, hevent⟩
  | cons x xs ih =>
      obtain ⟨⟨hk, hwf, hne⟩, hxs⟩ := List.forall_mem_cons.mp hxs
      have hp : PlainPath [x.1] := by simpa using hk
      obtain ⟨⟨cur, t'⟩, hcur, hacc⟩ := accounted_applyServerOverwriteTo h hw hp hwf
      obtain ⟨hserver', hevent'⟩ := complete_applyServerOverwriteTo h hw hp hwf (Or.inl hne)
        (fun _ => hserver) (fun _ => hevent) hcur
      rw [List.foldlM_cons, hcur] at hr
      exact ih hxs hacc.wellFormed hserver' hevent' hr

/-- The nodes that a merge from the server puts at the children. -/
theorem forall_children_applyToNode {merge : FCompoundWrite} (hmerge : FCompoundWrite.Valid merge)
    (hne : ∀ e ∈ (overlay merge).leaves, e.2 ≠ ∅) {node : FNode} (hnode : node.WellFormed) :
    ∀ x ∈ merge.children, Plain x.1 ∧ (applyToNode x.2 (node.getImmediateChild x.1)).WellFormed ∧
      (applyToNode x.2 (node.getImmediateChild x.1)).data =
        ((overlay merge).apply node.data).subtree [x.1] ∧
      (applyToNode x.2 (node.getImmediateChild x.1)).data ≠ ∅ := by
  intro x hx
  obtain ⟨hk, hvalid, hoverlay, hnonempty, hbelow⟩ := overlay_child hmerge hx
  obtain ⟨hwf, hdata⟩ := data_applyToNode hvalid (hnode.getImmediateChild x.1)
  rw [FNode.data_getImmediateChild hnode hk] at hdata
  refine ⟨hk, hwf, ?_, ?_⟩
  · rw [hdata, Overlay.subtree_apply, hbelow, hoverlay]
  · rw [hdata]
    refine Overlay.apply_ne_empty (fun e he => ?_) (Or.inl hnonempty)
    rw [hoverlay, mem_subtree] at he
    exact hne ([x.1] ++ e.1, e.2) he

/-- **The server merges** children into data that is complete. What the event cache was
right about may differ where the merge writes. -/
theorem complete_mergeChildren {merge : FCompoundWrite} (hmerge : FCompoundWrite.Valid merge)
    (hvalue : merge.value = none) (h : viewCache.WellFormed) (hw : writes.Valid)
    (hserver : viewCache.cachedServerSnap.Complete server)
    (hevent : viewCache.cachedEventSnap.Complete (writes.overlay.apply base))
    (hagree : AgreeOutside ((overlay merge).leaves.map Prod.fst) base server)
    {xs : List (String × FCompoundWrite)} (hxs : ∀ x, x ∈ xs ↔ x ∈ merge.children)
    (hkeys : xs.Pairwise fun x y => x.1 ≠ y.1) {t : Tracked}
    (hr : xs.foldlM (fun cur x => do
        let newChild := applyToNode x.2 (viewCache.cachedServerSnap.node.getImmediateChild x.1)
        let (newViewCache, tracked) ← applyServerOverwriteTo cur.1 [x.1] newChild writes
        return (newViewCache, cur.2 ++ tracked)) (viewCache, t) = .ok r) :
    r.1.cachedServerSnap.Complete ((overlay merge).apply server) ∧
      r.1.cachedEventSnap.Complete (writes.overlay.apply ((overlay merge).apply server)) := by
  have hne : ∀ e ∈ (overlay merge).leaves, e.2 ≠ ∅ := fun e => hmerge.ne_empty_of_mem_overlay hvalue
  have hchildren := forall_children_applyToNode hmerge hne h.server
  rw [hserver.2] at hchildren
  let f := fun x : String × FCompoundWrite =>
    (x.1, applyToNode x.2 (viewCache.cachedServerSnap.node.getImmediateChild x.1))
  have hmem : ∀ y ∈ xs.map f, Plain y.1 ∧ y.2.WellFormed ∧
      y.2.data = ((overlay merge).apply server).subtree [y.1] ∧ y.2.data ≠ ∅ := by
    intro y hy
    obtain ⟨x, hx, rfl⟩ := List.mem_map.mp hy
    exact hchildren x ((hxs x).mp hx)
  have hpair : ((xs.map f).map fun y => ([y.1], y.2.data)).Pairwise
      fun w v => Incomparable w.1 v.1 := by
    rw [List.map_map, List.pairwise_map]
    refine hkeys.imp fun hne => ?_
    exact ⟨by simpa [f] using hne, by simpa [f] using Ne.symm hne⟩
  -- both caches get the parts of the merged data that may differ
  have hresult : ∀ {u : Snapshot}, AgreeOutside ((overlay merge).leaves.map Prod.fst) u server →
      u.graftAll ((xs.map f).map fun y => ([y.1], y.2.data)) = (overlay merge).apply server := by
    intro u hu
    refine graftAll_eq_of_agreeOutside hpair ?_ ?_ ?_
    · intro w hw
      obtain ⟨y, hy, rfl⟩ := List.mem_map.mp hw
      exact (hmem y hy).2.2.1.symm
    · intro w hw
      obtain ⟨y, hy, rfl⟩ := List.mem_map.mp hw
      obtain ⟨-, -, hdata, hne⟩ := hmem y hy
      exact clearAbove_of_subtree_ne (by rwa [← hdata])
    · refine (hu.trans ((overlay merge).agreeOutside_apply server).symm).mono fun p hp => ?_
      obtain ⟨e, he, rfl⟩ := List.mem_map.mp hp
      obtain ⟨x, hx, hprefix⟩ := exists_child_of_mem_overlay hmerge hvalue he
      exact ⟨[x.1], by simpa [f] using ⟨x.2, (hxs x).mpr hx⟩, hprefix⟩
  have hrun : (xs.map f).foldlM (fun cur x => do
      let (newViewCache, tracked) ← applyServerOverwriteTo cur.1 [x.1] x.2 writes
      return (newViewCache, cur.2 ++ tracked)) (viewCache, t) = .ok r := by
    rw [List.foldlM_map]
    exact hr
  have hfold := complete_foldlM hw (fun y hy => ?_) h hserver hevent hrun
  · rw [hresult hagree, hresult fun _ _ => Iff.rfl] at hfold
    exact hfold
  · obtain ⟨hk, hwf, -, hne⟩ := hmem y hy
    exact ⟨hk, hwf, hne⟩

/-- The merge that `applyServerMergeTo:` makes at the location. -/
theorem overlay_actualMerge {merge actual : FCompoundWrite} (hmerge : FCompoundWrite.Valid merge)
    (hne : ∀ x ∈ merge.forEach, x.2.isEmpty = false) (hp : PlainPath path)
    (hvalue : path = [] → merge.value = none) (hnonempty : path ≠ [] → merge.isEmpty = false)
    (hactual : (if path = [] then merge else addCompoundWrite emptyWrite merge path) = actual) :
    FCompoundWrite.Valid actual ∧ actual.value = none ∧
      (∀ t, (overlay actual).apply t = t.graft path ((overlay merge).apply (t.subtree path))) ∧
      ∀ x ∈ merge.forEach, ∃ e ∈ (overlay actual).leaves, e.1 <+: path ++ x.1 := by
  by_cases hnil : path = []
  · subst hnil
    rw [if_pos rfl] at hactual
    subst hactual
    refine ⟨hmerge, hvalue rfl, fun t => by rw [graft_nil, subtree_nil], fun x hx => ?_⟩
    exact ⟨(x.1, x.2.data), mem_overlay.mpr ⟨x.2, hmerge.wf.mem_toTree.mpr hx, rfl⟩, List.prefix_refl _⟩
  · rw [if_neg hnil] at hactual
    subst hactual
    obtain ⟨hvalid, hoverlay⟩ := overlay_addCompoundWrite valid_emptyWrite hmerge hne hp
    rw [overlay_emptyWrite] at hoverlay
    refine ⟨hvalid, ?_, fun t => ?_, fun x hx => ?_⟩
    · by_contra hsome
      obtain ⟨v, hv⟩ := Option.ne_none_iff_exists'.mp hsome
      have hroot : ([], v.data) ∈ (overlay (addCompoundWrite emptyWrite merge path)).leaves :=
        mem_overlay.mpr ⟨v, hvalid.wf.mem_toTree_nil.mpr hv, rfl⟩
      rw [hoverlay] at hroot
      obtain ⟨w, hw, hwnil⟩ := Overlay.exists_write_of_mem hroot
      obtain ⟨y, -, rfl⟩ := List.mem_map.mp hw
      exact hnil (List.append_eq_nil_iff.mp hwnil).1
    · rw [hoverlay, Overlay.apply_addAll, Overlay.apply_empty, apply_overlay hmerge, ← graftAll_map_append]
      · simp [changes, Function.comp_def]
      · exact changes_ne_nil hmerge.toPlaced (hnonempty hnil) []
    · have hhidden : ((∅ : Overlay String Scalar).addAll (changes merge path)).rootMost (path ++ x.1) ≠ none :=
        Overlay.rootMost_addAll_ne_none_iff.mpr
          (Or.inr ⟨_, List.mem_map_of_mem hx, List.prefix_refl _⟩)
      rw [hoverlay]
      rw [Ne, Overlay.rootMost_eq_none_iff] at hhidden
      push Not at hhidden
      exact hhidden

/-- **The server merges**, the whole operation. -/
theorem complete_applyServerMergeTo {merge : FCompoundWrite} (hmerge : FCompoundWrite.Valid merge)
    (hne : ∀ x ∈ merge.forEach, x.2.isEmpty = false) (hp : PlainPath path)
    (hvalue : path = [] → merge.value = none) (hnonempty : path ≠ [] → merge.isEmpty = false)
    (h : viewCache.WellFormed) (hw : writes.Valid)
    (hserver : viewCache.cachedServerSnap.Complete server)
    (hevent : viewCache.cachedEventSnap.Complete (writes.overlay.apply base))
    (hagree : AgreeOutside (merge.forEach.map fun x => path ++ x.1) base server)
    (hr : applyServerMergeTo viewCache path merge writes = .ok r) :
    r.1.cachedServerSnap.Complete (server.graft path ((overlay merge).apply (server.subtree path))) ∧
      r.1.cachedEventSnap.Complete (writes.overlay.apply
        (server.graft path ((overlay merge).apply (server.subtree path)))) := by
  unfold applyServerMergeTo at hr
  dsimp only at hr
  rw [if_neg (by simp [hserver.1])] at hr
  generalize hactual : (if path = [] then merge else addCompoundWrite emptyWrite merge path) = actual at hr
  obtain ⟨hvalid, hroot, happly, hcover⟩ := overlay_actualMerge hmerge hne hp hvalue hnonempty hactual
  rw [← happly]
  have hcomplete : ∀ k, viewCache.cachedServerSnap.isCompleteForChild k = true := fun k =>
    hserver.isCompleteForChild h.serverUnfiltered
  refine complete_mergeChildren hvalid hroot h hw hserver hevent (hagree.mono fun p hp => ?_) (fun x => ?_)
    (pairwise_keys_parts hvalid.toPlaced ?_) hr
  · obtain ⟨x, hx, rfl⟩ := List.mem_map.mp hp
    obtain ⟨e, he, hprefix⟩ := hcover x hx
    exact ⟨e.1, List.mem_map_of_mem he, hprefix⟩
  · simp only [List.mem_append, List.mem_filter, hcomplete]
    by_cases hchild : viewCache.cachedServerSnap.node.hasChild x.1 <;> simp [hchild]
  · intro x hP hq
    simp_all

/-- Without all of the server's data, a merge does not complete it. -/
theorem applyServerMergeTo_of_part {merge : FCompoundWrite} (hw : writes.Valid)
    (hr : applyServerMergeTo viewCache path merge writes = .ok r) :
    r.1.cachedServerSnap.isFullyInitialized = viewCache.cachedServerSnap.isFullyInitialized ∧
      (writes.overlay.rootMost [] ≠ none → r.1.cachedEventSnap = viewCache.cachedEventSnap) := by
  have hfold : ∀ {xs : List (String × FCompoundWrite)} {cur : FViewCache} {t : Tracked},
      xs.foldlM (fun cur x => do
        let newChild := applyToNode x.2 (viewCache.cachedServerSnap.node.getImmediateChild x.1)
        let (newViewCache, tracked) ← applyServerOverwriteTo cur.1 [x.1] newChild writes
        return (newViewCache, cur.2 ++ tracked)) (cur, t) = .ok r →
      r.1.cachedServerSnap.isFullyInitialized = cur.cachedServerSnap.isFullyInitialized ∧
        (writes.overlay.rootMost [] ≠ none → r.1.cachedEventSnap = cur.cachedEventSnap) := by
    intro xs
    induction xs with
    | nil =>
        intro cur t hrun
        cases hrun
        exact ⟨rfl, fun _ => rfl⟩
    | cons x xs ih =>
        intro cur t hrun
        rw [List.foldlM_cons] at hrun
        dsimp only at hrun
        cases hover : applyServerOverwriteTo cur [x.1]
            (applyToNode x.2 (viewCache.cachedServerSnap.node.getImmediateChild x.1)) writes with
        | error e =>
            rw [hover] at hrun
            cases hrun
        | ok next =>
            rw [hover] at hrun
            obtain ⟨hfull, hsame⟩ := applyServerOverwriteTo_of_part hw (List.cons_ne_nil _ _) hover
            obtain ⟨hfull', hsame'⟩ := ih hrun
            exact ⟨hfull'.trans hfull, fun hhidden => (hsame' hhidden).trans (hsame hhidden)⟩
  unfold applyServerMergeTo at hr
  dsimp only at hr
  split at hr
  · cases hr
    exact ⟨rfl, fun _ => rfl⟩
  · exact hfold hr

/-! ### The user's writes -/

/-- With the child cached, what the user wrote is put into it. -/
theorem newUserChild_of_complete {k : String} {cache : Option FNode}
    (hcomplete : viewCache.cachedEventSnap.isCompleteForChild k = true) :
    newUserChild viewCache k path snap writes cache =
      (viewCache.cachedEventSnap.node.getImmediateChild k).updateChild path snap := by
  unfold newUserChild completeChild
  split
  · next hnil =>
    rw [hnil]
    rfl
  · rw [if_pos hcomplete]

/-- **The user overwrites.** -/
theorem complete_applyUserOverwriteTo (writes : FWriteTreeRef) (cache : Option FNode)
    (h : viewCache.WellFormed) (hp : PlainPath path) (hsnap : snap.WellFormed)
    (hne : path ≠ [] → snap.data ≠ ∅) {shown : Snapshot}
    (hevent : path ≠ [] → viewCache.cachedEventSnap.Complete shown) :
    (applyUserOverwriteTo viewCache path snap writes cache).1.cachedServerSnap =
        viewCache.cachedServerSnap ∧
      (applyUserOverwriteTo viewCache path snap writes cache).1.cachedEventSnap.Complete
        (shown.graft path snap.data) := by
  unfold applyUserOverwriteTo
  cases path with
  | nil => exact ⟨rfl, rfl, (graft_nil _ _).symm⟩
  | cons k p =>
      obtain ⟨hfull, hold⟩ := hevent (List.cons_ne_nil k p)
      have hclear := hne (List.cons_ne_nil k p)
      have hcomplete : viewCache.cachedEventSnap.isCompleteForChild k = true :=
        FCacheNode.Complete.isCompleteForChild ⟨hfull, hold⟩ h.eventUnfiltered
      have hchild := (h.event.getImmediateChild k)
      have hnew := hchild.updateChild (plainPath_cons.mp hp).2 hsnap
      dsimp only
      rw [newUserChild_of_complete hcomplete]
      split
      · next hequal =>
        have hsame := (FNode.isEqual_iff hchild hnew).mp hequal
        refine ⟨rfl, hfull, ?_⟩
        rw [← hold, FIndexedFilter.graft_data_eq_of_same h.event hp hsnap (Or.inl hclear)]
        exact congrArg (FNode.getChild · p) hsame
      · refine ⟨rfl, hfull, ?_⟩
        rw [← hold]
        exact FIndexedFilter.data_updateChildIn h.event hp hsnap (Or.inl hclear)

theorem complete_foldl {xs : List (Path × FNode)}
    (hxs : ∀ x ∈ xs, PlainPath x.1 ∧ x.2.WellFormed ∧ x.2.data ≠ ∅) (h : viewCache.WellFormed)
    (hw : writes.Valid) {cache : Option FNode} (hcache : ∀ n, cache = some n → n.WellFormed)
    {shown : Snapshot} (hevent : viewCache.cachedEventSnap.Complete shown) {t : Tracked}
    (hr : xs.foldl (fun cur x =>
      let (newViewCache, tracked) := applyUserOverwriteTo cur.1 x.1 x.2 writes cache
      (newViewCache, cur.2 ++ tracked)) (viewCache, t) = r) :
    r.1.cachedServerSnap = viewCache.cachedServerSnap ∧
      r.1.cachedEventSnap.Complete (shown.graftAll (xs.map fun x => (x.1, x.2.data))) := by
  induction xs generalizing viewCache shown t with
  | nil =>
      subst hr
      exact ⟨rfl, hevent⟩
  | cons x xs ih =>
      obtain ⟨⟨hp, hwf, hne⟩, hxs⟩ := List.forall_mem_cons.mp hxs
      have hacc := accounted_applyUserOverwriteTo h hw hp hwf hcache
      obtain ⟨hsame, hshown⟩ := complete_applyUserOverwriteTo writes cache h hp hwf
        (fun _ => hne) (fun _ => hevent)
      obtain ⟨hsame', hshown'⟩ := ih hxs hacc.wellFormed hshown hr
      exact ⟨hsame'.trans hsame, hshown'⟩

/-- **The user merges.** -/
theorem complete_applyUserMergeTo {merge : FCompoundWrite} (hmerge : FCompoundWrite.Valid merge)
    (hne : ∀ x ∈ merge.forEach, x.2.isEmpty = false) (hnonempty : merge.isEmpty = false)
    (h : viewCache.WellFormed) (hw : writes.Valid) (hp : PlainPath path) {cache : Option FNode}
    (hcache : ∀ n, cache = some n → n.WellFormed) {shown : Snapshot}
    (hevent : (∀ x ∈ merge.forEach, path ++ x.1 ≠ []) → viewCache.cachedEventSnap.Complete shown) :
    (applyUserMergeTo viewCache path merge writes cache).1.cachedServerSnap =
        viewCache.cachedServerSnap ∧
      (applyUserMergeTo viewCache path merge writes cache).1.cachedEventSnap.Complete
        (shown.graft path ((overlay merge).apply (shown.subtree path))) := by
  unfold applyUserMergeTo
  dsimp only
  by_cases hroot : ∃ x ∈ merge.forEach, path ++ x.1 = []
  · -- one write, which replaces everything
    obtain ⟨x, hx, hnil⟩ := hroot
    obtain ⟨rfl, hxnil⟩ := List.append_eq_nil_iff.mp hnil
    have hmem : ([], x.2) ∈ merge.toTree.leaves := hxnil ▸ hmerge.wf.mem_toTree.mpr hx
    obtain rfl := hmerge.wf.eq_ofValue (hmerge.wf.mem_toTree_nil.mp hmem)
    have hshown : (viewCache.updateEventSnap x.2 true).cachedEventSnap.Complete
        (shown.graft [] ((overlay (FImmutableTree.ofValue x.2)).apply (shown.subtree []))) := by
      refine ⟨rfl, ?_⟩
      rw [graft_nil, overlay_ofValue, Overlay.apply, leaves_leaf, graftAll_cons, graftAll_nil, graft_nil]
      rfl
    by_cases hview : cacheHasChild viewCache [] = true
    · simp only [FImmutableTree.forEach_ofValue, List.map_cons, List.map_nil, List.append_nil,
        List.filter_cons, hview]
      exact ⟨rfl, hshown⟩
    · simp only [FImmutableTree.forEach_ofValue, List.map_cons, List.map_nil, List.append_nil,
        List.filter_cons, hview]
      exact ⟨rfl, hshown⟩
  · push Not at hroot
    have hshown := hevent hroot
    have hinView : ∀ x ∈ merge.forEach.map fun x => (path ++ x.1, x.2), cacheHasChild viewCache x.1 = true := by
      intro x hx
      unfold cacheHasChild
      split
      · exact hshown.isCompleteForChild h.eventUnfiltered
      · simp [hshown.1, h.eventUnfiltered]
    have hgraft : shown.graft path ((overlay merge).apply (shown.subtree path)) =
        shown.graftAll ((merge.forEach.map fun x => (path ++ x.1, x.2)).map fun x => (x.1, x.2.data)) := by
      rw [apply_overlay hmerge, ← graftAll_map_append _ _ (changes_ne_nil hmerge.toPlaced hnonempty [])]
      simp [changes, Function.comp_def]
    rw [List.filter_eq_self.mpr hinView, List.filter_eq_nil_iff.mpr fun x hx => by simp [hinView x hx],
      List.append_nil, hgraft]
    refine complete_foldl (fun x hx => ?_) h hw hcache hshown rfl
    obtain ⟨y, hy, rfl⟩ := List.mem_map.mp hx
    obtain ⟨hwf, hplain⟩ := hmerge.toPlaced.of_mem_forEach hy
    refine ⟨plainPath_append.mpr ⟨hp, hplain⟩, hwf, ?_⟩
    rw [Ne, hwf.data_eq_empty_iff]
    simp [hne y hy]

/-! ### Listens, answered and rejected writes -/

/-- **A listen is complete**: the server sent all it has. -/
theorem complete_listenComplete (h : viewCache.WellFormed) (hw : writes.Valid) (hp : PlainPath path)
    (hfull : path ≠ [] → viewCache.cachedServerSnap.isFullyInitialized = true)
    (hserver : viewCache.cachedServerSnap.node.data = server) (hclear : server.ClearAbove path)
    (hevent : path ≠ [] ∨ writes.overlay.rootMost [] ≠ none →
      viewCache.cachedEventSnap.Complete (writes.overlay.apply server))
    (hr : listenCompleteOldCache viewCache path writes = .ok r) :
    r.1.cachedServerSnap.Complete server ∧
      r.1.cachedEventSnap.Complete (writes.overlay.apply server) := by
  have hcomplete : (viewCache.cachedServerSnap.isFullyInitialized || path.isEmpty) = true := by
    by_cases hnil : path = []
    · simp [hnil]
    · simp [hfull hnil]
  unfold listenCompleteOldCache at hr
  dsimp only at hr
  rw [hcomplete] at hr
  obtain ⟨hsame, hshown⟩ := complete_generate
    (h.updateServerSnap h.server true) hw hp (Or.inr hclear) hevent hr
  rw [hsame]
  refine ⟨⟨rfl, hserver⟩, ?_⟩
  rw [show (viewCache.updateServerSnap _ true).cachedServerSnap.node.data = server from hserver,
    hclear.graft_subtree] at hshown
  exact hshown

/-- Where two trees differ at the affected paths only, they differ below `path` only. -/
theorem agreeBeside_of_affected {affected : FImmutableTree Bool}
    (hagree : AgreeOutside (affected.forEach.map fun x => path ++ x.1) base server) :
    AgreeBeside path base server := by
  refine agreeOutside_singleton.mp (hagree.mono fun p hp => ?_)
  obtain ⟨x, -, rfl⟩ := List.mem_map.mp hp
  exact ⟨path, List.mem_singleton_self path, List.prefix_append path x.1⟩

/-- The server's own data, as a merge, for the paths of an answered write. -/
theorem overlay_changedChildren {affected : FImmutableTree Bool}
    (haffected : affected.WellFormed fun _ => True) (hvalue : affected.value = none)
    (hp : PlainPath path) (hplain : ∀ x ∈ affected.forEach, PlainPath x.1) {node : FNode}
    (hnode : node.WellFormed) (hne : ∀ x ∈ affected.forEach, node.data.subtree (path ++ x.1) ≠ ∅)
    {changed : FCompoundWrite} (hchanged : affected.forEach.foldl (fun changedChildren x =>
      addWrite changedChildren (node.getChild (path ++ x.1)) x.1) emptyWrite = changed) :
    FCompoundWrite.Valid changed ∧ changed.value = none ∧
      (affected.isEmpty = false → changed.isEmpty = false) ∧
      (overlay changed).apply (node.data.subtree path) = node.data.subtree path ∧
      ∀ x ∈ affected.forEach, ∃ y ∈ changed.forEach, y.1 <+: x.1 := by
  have hdata : ∀ x ∈ affected.forEach,
      (node.getChild (path ++ x.1)).data = (node.data.subtree path).subtree x.1 := fun x hx => by
    rw [FNode.data_getChild hnode (plainPath_append.mpr ⟨hp, hplain x hx⟩), subtree_subtree]
  have hwrites : ∀ x ∈ affected.forEach, (node.getChild (path ++ x.1)).WellFormed ∧
      (node.getChild (path ++ x.1)).isEmpty = false ∧ PlainPath x.1 := fun x hx => by
    refine ⟨hnode.getChild _, ?_, hplain x hx⟩
    have hsub := hne x hx
    rw [← subtree_subtree, ← hdata x hx, Ne, (hnode.getChild _).data_eq_empty_iff] at hsub
    simpa using hsub
  obtain ⟨hvalid, hoverlay⟩ := overlay_foldl_addWrite
    (f := fun x : Path × Bool => (x.1, node.getChild (path ++ x.1))) valid_emptyWrite hwrites
  rw [hchanged] at hvalid hoverlay
  rw [overlay_emptyWrite] at hoverlay
  have hcover : ∀ x ∈ affected.forEach, ∃ y ∈ changed.forEach, y.1 <+: x.1 := by
    intro x hx
    have hhidden : (overlay changed).rootMost x.1 ≠ none := by
      rw [hoverlay]
      exact Overlay.rootMost_addAll_ne_none_iff.mpr (Or.inr ⟨_, List.mem_map_of_mem hx, List.prefix_refl _⟩)
    rw [Ne, Overlay.rootMost_eq_none_iff] at hhidden
    push Not at hhidden
    obtain ⟨e, he, hprefix⟩ := hhidden
    obtain ⟨n, hn, -⟩ := mem_overlay.mp he
    exact ⟨_, hvalid.wf.mem_toTree.mp hn, hprefix⟩
  refine ⟨hvalid, ?_, fun hsome => ?_, ?_, hcover⟩
  · by_contra hsome
    obtain ⟨v, hv⟩ := Option.ne_none_iff_exists'.mp hsome
    have hroot : ([], v.data) ∈ (overlay changed).leaves :=
      mem_overlay.mpr ⟨v, hvalid.wf.mem_toTree_nil.mpr hv, rfl⟩
    rw [hoverlay] at hroot
    obtain ⟨w, hw, hwnil⟩ := Overlay.exists_write_of_mem hroot
    obtain ⟨⟨q, b⟩, hy, rfl⟩ := List.mem_map.mp hw
    obtain rfl : q = [] := hwnil
    rw [haffected.mem_toTree_nil.mp (haffected.mem_toTree.mpr hy)] at hvalue
    cases hvalue
  · obtain ⟨x, hx⟩ := haffected.exists_leaf hsome
    obtain ⟨y, hy, -⟩ := hcover x (haffected.mem_toTree.mp hx)
    by_contra hempty
    rw [Bool.not_eq_false, FImmutableTree.isEmpty_iff] at hempty
    rw [hempty] at hy
    cases hy
  · rw [hoverlay, Overlay.apply_addAll, Overlay.apply_empty]
    refine graftAll_eq_of_agreeOutside ?_ ?_ ?_ fun _ _ => Iff.rfl
    · exact List.pairwise_map.mpr haffected.forEach_incomparable
    · intro w hw
      obtain ⟨x, hx, rfl⟩ := List.mem_map.mp hw
      exact (hdata x hx).symm
    · intro w hw
      obtain ⟨x, hx, rfl⟩ := List.mem_map.mp hw
      exact clearAbove_of_subtree_ne (by simpa using hne x hx)

/-- **The server answered a write.** Where it was, the event cache has what the server
has, with the other writes on top. -/
theorem complete_ackUserWriteOn (h : viewCache.WellFormed) (hw : writes.Valid) (hp : PlainPath path)
    {affected : FImmutableTree Bool} (haffected : affected.WellFormed fun _ => True)
    (hplain : ∀ x ∈ affected.forEach, PlainPath x.1)
    (hserver : viewCache.cachedServerSnap.Complete server)
    (hevent : viewCache.cachedEventSnap.Complete (writes.overlay.apply base))
    (hnonempty : path ≠ [] → affected.isEmpty = false)
    (hagree : AgreeOutside (affected.forEach.map fun x => path ++ x.1) base server)
    (hne : ∀ x ∈ affected.forEach, path ++ x.1 ≠ [] → server.subtree (path ++ x.1) ≠ ∅)
    (hr : ackUserWriteOn viewCache path affected writes = .ok r) :
    r.1.cachedServerSnap.Complete server ∧
      r.1.cachedEventSnap.Complete (writes.overlay.apply server) := by
  have hbeside := agreeBeside_of_affected hagree
  unfold ackUserWriteOn at hr
  dsimp only at hr
  split at hr
  · next hshadow =>
    cases hr
    have hhidden : writes.overlay.rootMost path ≠ none := fun hnone => by
      rw [(FWriteTreeRef.shadowingWriteAtPath_eq_none_iff hw).mpr hnone] at hshadow
      cases hshadow
    rw [← Overlay.apply_congr_of_hidden hhidden hbeside]
    exact ⟨hserver, hevent⟩
  · split at hr
    · next hvalue =>
      obtain ⟨v, hv⟩ := Option.isSome_iff_exists.mp hvalue
      obtain rfl := haffected.eq_ofValue hv
      have hclear : server.ClearAbove path := by
        by_cases hnil : path = []
        · rw [hnil]
          exact clearAbove_nil server
        · have hsub := hne ([], v) (by simp) (by simpa using hnil)
          rw [List.append_nil] at hsub
          exact clearAbove_of_subtree_ne hsub
      have hsnap : (viewCache.cachedServerSnap.node.getChild path).data = server.subtree path := by
        rw [FNode.data_getChild h.server hp, hserver.2]
      have hcomplete : viewCache.cachedServerSnap.isCompleteForPath path = true := by
        cases path with
        | nil => simp [FCacheNode.isCompleteForPath, hserver.1, h.serverUnfiltered]
        | cons k p => exact hserver.isCompleteForChild h.serverUnfiltered
      rw [if_pos (Or.inr hcomplete)] at hr
      have hresult := complete_applyServerOverwriteTo h hw hp (h.server.getChild path) ?_
        (fun _ => hserver) (fun _ => hevent) hr
      · rw [hsnap, hclear.graft_subtree] at hresult
        have hbase : base.graft path (server.subtree path) = server :=
          ((AgreeBeside.of_graft base path _).trans hbeside).eq (subtree_graft_self _ _ _)
            (clearAbove_graft _ _ _) hclear
        rwa [hbase] at hresult
      · rw [hsnap]
        by_cases hnil : path = []
        · subst hnil
          exact Or.inr ⟨clearAbove_nil _, clearAbove_nil _⟩
        · have hsub := hne ([], v) (by simp) (by simpa using hnil)
          rw [List.append_nil] at hsub
          exact Or.inl hsub
    · next hvalue =>
      have hnone : affected.value = none := by simpa using hvalue
      have hfilter : (affected.forEach.filter fun x =>
          viewCache.cachedServerSnap.isCompleteForPath (path ++ x.1)) = affected.forEach := by
        refine List.filter_eq_self.mpr fun x _ => ?_
        unfold FCacheNode.isCompleteForPath
        split
        · simp [hserver.1, h.serverUnfiltered]
        · exact hserver.isCompleteForChild h.serverUnfiltered
      rw [hfilter] at hr
      have hne' : ∀ x ∈ affected.forEach, path ++ x.1 ≠ [] := by
        rintro ⟨q, b⟩ hx hnil
        obtain rfl : q = [] := (List.append_eq_nil_iff.mp hnil).2
        rw [haffected.mem_toTree_nil.mp (haffected.mem_toTree.mpr hx)] at hnone
        cases hnone
      have hsub : ∀ x ∈ affected.forEach, server.subtree (path ++ x.1) ≠ ∅ := fun x hx =>
        hne x hx (hne' x hx)
      generalize hchanged : affected.forEach.foldl _ _ = changed at hr
      obtain ⟨hvalid, hroot, hsome, happly, hcover⟩ :=
        overlay_changedChildren haffected hnone hp hplain h.server (by rwa [hserver.2]) hchanged
      have hclear : server.ClearAbove path := by
        by_cases hnil : path = []
        · rw [hnil]
          exact clearAbove_nil server
        · obtain ⟨x, hx⟩ := haffected.exists_leaf (hnonempty hnil)
          exact (clearAbove_of_subtree_ne (hsub x (haffected.mem_toTree.mp hx))).of_append
      have hresult := complete_applyServerMergeTo hvalid ?_ hp (fun _ => hroot)
        (fun hnil => hsome (hnonempty hnil)) h hw hserver hevent (hagree.mono ?_) hr
      · rw [hserver.2] at happly
        rwa [happly, hclear.graft_subtree] at hresult
      · intro x hx
        exact (hvalid.nonempty x (hvalid.wf.mem_toTree.mpr hx)).resolve_right fun hnil => by
          have hmem := hvalid.wf.mem_toTree.mpr hx
          rw [show x = ([], x.2) from Prod.ext hnil rfl, hvalid.wf.mem_toTree_nil, hroot] at hmem
          cases hmem
      · intro p hp
        obtain ⟨x, hx, rfl⟩ := List.mem_map.mp hp
        obtain ⟨y, hy, hprefix⟩ := hcover x hx
        exact ⟨path ++ y.1, List.mem_map_of_mem hy, (List.prefix_append_right_inj path).mpr hprefix⟩

/-- A leaf that a taken back write had replaced is there again. -/
theorem data_restoreLeaf (h : viewCache.WellFormed) (hw : writes.Valid)
    (hserver : viewCache.cachedServerSnap.Complete server) {node : FNode} (hnode : node.WellFormed)
    (hdata : node.data = writes.overlay.apply server ∨
      node.data = ∅ ∧ (writes.overlay.apply server).get [] ≠ none) :
    (restoreLeaf viewCache node writes).1.data = writes.overlay.apply server := by
  obtain ⟨m, hm, hwf, hmdata⟩ := FWriteTreeRef.calculateCompleteEventCache_some hw h.server
  rw [hserver.2] at hmdata
  unfold restoreLeaf
  split
  · next hempty =>
    rw [FViewCache.completeServerSnap, if_pos hempty.2, hm]
    dsimp only
    split
    · exact hmdata
    · next hleaf =>
      refine hdata.resolve_right fun hroot => hroot.2 ?_
      rw [← hmdata, FNode.get_data_nil hwf]
      simpa [FNode.isLeafNode] using hleaf
  · next hnonempty =>
    refine hdata.resolve_right fun hroot => hnonempty ⟨?_, hserver.1⟩
    exact hnode.data_eq_empty_iff.mp hroot.1

/-- The child of a taken back write is calculated anew. -/
theorem data_revertChild {k : String} (h : viewCache.WellFormed) (hw : writes.Valid)
    (hp : PlainPath (k :: path)) (hserver : viewCache.cachedServerSnap.Complete server)
    (hold : viewCache.cachedEventSnap.node.data = writes.overlay.apply base)
    (hvisible : writes.overlay.rootMost (k :: path) = none)
    (hagree : AgreeBeside (k :: path) base server) (hne : base.subtree (k :: path) ≠ ∅) :
    (revertChild viewCache k path writes).1.WellFormed ∧
      ((revertChild viewCache k path writes).1.data = writes.overlay.apply server ∨
        (revertChild viewCache k path writes).1.data = ∅ ∧
          (writes.overlay.apply server).get [] ≠ none) := by
  obtain ⟨hk, hp'⟩ := plainPath_cons.mp hp
  have heq := FWriteTreeRef.calculateCompleteChild_eq hw hk h.server
  cases hchild : writes.calculateCompleteChild k viewCache.cachedServerSnap with
  | none =>
      rw [hchild, hserver.isCompleteForChild h.serverUnfiltered] at heq
      cases heq
  | some n =>
      rw [hchild, hserver.2] at heq
      obtain ⟨hwf, hdata⟩ := heq
      have hrevert : revertChild viewCache k path writes =
          FIndexedFilter.updateChildIn viewCache.cachedEventSnap.node k n path := by
        unfold revertChild
        rw [hchild]
      rw [hrevert]
      have hbeside : AgreeBeside (k :: path) (writes.overlay.apply base) (writes.overlay.apply server) :=
        Overlay.agreeBeside_apply _ hagree
      -- what was written is there before
      have hsub : (writes.overlay.apply base).subtree (k :: path) ≠ ∅ := by
        rw [Overlay.subtree_apply]
        exact Overlay.apply_ne_empty (FWriteTreeRef.ne_empty_of_mem_below hw hvisible) (Or.inr hne)
      have hclear := clearAbove_of_subtree_ne hsub
      refine ⟨FIndexedFilter.wellFormed_updateChildIn h.event hk hwf, ?_⟩
      rcases (FIndexedFilter.updateChildIn_spec (p := path) h.event hk hwf).2 with hupdate | ⟨hskip, hsame, -⟩
      · have hk' : PlainPath [k] := by simpa using hk
        have hclear' : (writes.overlay.apply base).ClearAbove [k] :=
          ClearAbove.of_append (p := [k]) (q := path) hclear
        have hdata' := FNode.data_updateChild_of_clearAbove h.event hk' hwf (Or.inr (hold ▸ hclear'))
        rw [FNode.updateChild_cons, hold, hdata] at hdata'
        rw [hupdate, show viewCache.cachedEventSnap.node.updateImmediateChild k n =
          viewCache.cachedEventSnap.node.updateImmediateChild k
            ((viewCache.cachedEventSnap.node.getImmediateChild k).updateChild [] n) from rfl, hdata']
        have hbeside' : AgreeBeside [k] ((writes.overlay.apply base).graft [k]
            ((writes.overlay.apply server).subtree [k])) (writes.overlay.apply server) :=
          (AgreeBeside.of_graft _ _ _).trans (hbeside.mono (List.prefix_append [k] path))
        by_cases hroot : (writes.overlay.apply server).ClearAbove [k]
        · exact Or.inl (hbeside'.eq (subtree_graft_self _ _ _) (clearAbove_graft _ _ _) hroot)
        · -- a value above the child is one at the location, and has no children
          obtain ⟨v, hv⟩ := exists_eq_leaf hroot
          rw [hv] at hbeside' ⊢
          refine Or.inr ⟨eq_empty_iff.mpr (List.eq_nil_iff_forall_not_mem.mpr fun y hy => ?_), by
            rw [PathTree.get_eq_some_iff.mpr (List.mem_singleton_self _)]
            simp⟩
          have hinc : Incomparable [k] y.1 := by
            rcases mem_graft.mp hy with ⟨-, hinc⟩ | ⟨q, hq, -⟩
            · exact hinc
            · simpa using mem_subtree.mp hq
          have hleaf := (hbeside' y hinc).mp hy
          rw [leaves_leaf, List.mem_singleton] at hleaf
          exact hinc.2 (hleaf ▸ List.nil_prefix)
      · left
        rw [hskip]
        have hsub' : (writes.overlay.apply base).subtree (k :: path) =
            (writes.overlay.apply server).subtree (k :: path) := by
          have hdata' := congrArg FNode.data hsame
          rwa [FNode.data_getChild (h.event.getImmediateChild k) hp', FNode.data_getChild hwf hp', hdata,
            FNode.data_getImmediateChild h.event hk, hold, subtree_subtree, subtree_subtree] at hdata'
        rw [hold]
        exact hbeside.eq hsub' hclear (clearAbove_of_subtree_ne (hsub' ▸ hsub))

/-- **A write is taken back.** -/
theorem complete_revertUserWriteOn (h : viewCache.WellFormed) (hw : writes.Valid) (hp : PlainPath path)
    (hserver : viewCache.cachedServerSnap.Complete server)
    (hevent : viewCache.cachedEventSnap.Complete (writes.overlay.apply base))
    (hagree : AgreeBeside path base server) (hne : path ≠ [] → base.subtree path ≠ ∅) :
    (revertUserWriteOn viewCache path writes).1.cachedServerSnap = viewCache.cachedServerSnap ∧
      (revertUserWriteOn viewCache path writes).1.cachedEventSnap.Complete
        (writes.overlay.apply server) := by
  unfold revertUserWriteOn
  dsimp only
  split
  · next hshadow =>
    have hhidden : writes.overlay.rootMost path ≠ none := fun hnone => by
      rw [(FWriteTreeRef.shadowingWriteAtPath_eq_none_iff hw).mpr hnone] at hshadow
      cases hshadow
    rw [← Overlay.apply_congr_of_hidden hhidden hagree]
    exact ⟨rfl, hevent⟩
  · next hshadow =>
    have hvisible : writes.overlay.rootMost path = none := by
      rw [← FWriteTreeRef.shadowingWriteAtPath_eq_none_iff hw]
      simpa using hshadow
    refine ⟨rfl, by simp [FViewCache.updateEventSnap, hserver.1], ?_⟩
    cases path with
    | nil =>
        obtain ⟨m, hm, -, hdata⟩ := FWriteTreeRef.calculateCompleteEventCache_some hw h.server
        dsimp only
        rw [if_pos hserver.1, FViewCache.completeServerSnap, if_pos hserver.1, hm, ← hserver.2]
        exact hdata
    | cons k p =>
        obtain ⟨hwf, hdata⟩ := data_revertChild h hw hp hserver hevent.2 hvisible hagree
          (hne (List.cons_ne_nil k p))
        exact data_restoreLeaf h hw hserver hwf hdata

end FViewProcessor

end MyChat
