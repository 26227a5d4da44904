import MyChat.WriteTree

/-!
# MyChat.EventCache

What an observer is shown while writes are on their way: the caches that `FWriteTree`
computes from what the server sent and the visible writes. As long as the invariant of
the write tree holds they are the pending writes, in order, on top of the server's data
(`Holds.eventCache`, `Holds.eventCache_after_server_overwrite`).

The server answers writes in the order they were sent. A removal of the oldest write is
safe when all writes are visible and a merge changes children of its path only
(`safe_of_oldest`), so in such runs the caches are right throughout.

A view asks through an `FWriteTreeRef`, the write tree seen from the view's path. What it
is told there is the overlay of the pending writes below that path.
-/

namespace MyChat

open PathTree FUtilities FCompoundWrite FWriteTree

namespace FWriteTree

variable {tree tree' : FWriteTree} {path : Path}

/-! ### Answers in order -/

/-- Every change of the record is at its path or one level down. -/
def FWriteRecord.Shallow (record : FWriteRecord) : Prop :=
  ∀ x ∈ record.changes, x.1.length ≤ record.path.length + 1

/-- The oldest of visible, shallow writes can be removed. -/
theorem safe_of_oldest {w : FWriteRecord} {bs : List FWriteRecord}
    (hvisible : ∀ e ∈ bs, e.visible = true) (hshallow : ∀ e ∈ bs, FWriteRecord.Shallow e) :
    Safe [] w bs := by
  refine ⟨fun e he _ hent => ?_, fun _ => hvisible⟩
  obtain ⟨x, hx, y, hy, hxy⟩ := hent
  have hex := FWriteRecord.prefix_of_mem_changes hx
  have hwy := FWriteRecord.prefix_of_mem_changes hy
  have hcontains : x.1 <+: w.path → e.containsPath w.path = true :=
    fun h => FWriteRecord.containsPath_iff.mpr ⟨x, hx, h⟩
  -- the removed write lies above the change `x`, or `x` covers it
  have hwx : w.path <+: x.1 ∨ x.1 <+: w.path := by
    by_cases h : x.1 <+: y.1
    · exact List.prefix_or_prefix_of_prefix hwy h
    · have hyx : y.1 <+: x.1 := by
        by_contra h'
        exact hxy ⟨h, h'⟩
      exact Or.inl (hwy.trans hyx)
  rcases hwx with hwx | hxw
  · by_cases hlen : w.path.length ≤ e.path.length
    · exact Or.inr (List.prefix_of_prefix_length_le hwx hex hlen)
    · have hxlen := hshallow e he x hx
      have hsame : w.path = x.1 := hwx.eq_of_length_le (by omega)
      exact Or.inl ⟨he, hcontains (by rw [hsame])⟩
  · exact Or.inl ⟨he, hcontains hxw⟩

/-- Writes are visible and shallow, and the oldest write is the next to be removed. -/
def InOrder (tree : FWriteTree) : Op → Prop
  | .addOverwrite path newData _ visible =>
      (PlainPath path ∧ newData.WellFormed ∧ newData.isEmpty = false) ∧ visible = true
  | .addMerge path changedChildren _ =>
      (PlainPath path ∧ FCompoundWrite.Valid changedChildren ∧
        ∀ x ∈ changedChildren.forEach, x.2.isEmpty = false) ∧
      ∀ x ∈ changedChildren.forEach, x.1.length ≤ 1
  | .remove writeId => (tree.allWrites.head?.map FWriteRecord.writeId) = some writeId
  | .removeAll => True

/-- All writes are visible and shallow. -/
def Plainly (tree : FWriteTree) : Prop :=
  ∀ r ∈ tree.allWrites, r.visible = true ∧ FWriteRecord.Shallow r

theorem allowed_of_inOrder {op : Op} (h : tree.Holds) (hplainly : tree.Plainly)
    (hop : InOrder tree op) : Allowed tree op := by
  cases op with
  | addOverwrite path newData writeId visible => exact hop.1
  | addMerge path changedChildren writeId => exact hop.1
  | removeAll => trivial
  | remove writeId =>
      intro as w bs hall hid _
      have hnil : as = [] := by
        cases as with
        | nil => rfl
        | cons a as =>
            -- ids grow, so the oldest write is the only one with its id
            have hhead : a.writeId = writeId := by simpa [InOrder, hall] using hop
            have hlt := h.ids
            rw [hall, List.cons_append, List.pairwise_cons] at hlt
            have := hlt.1 w (by simp)
            omega
      subst hnil
      rw [List.nil_append] at hall
      have hbs : ∀ e ∈ bs, e.visible = true ∧ FWriteRecord.Shallow e := fun e he =>
        hplainly e (by rw [hall]; exact List.mem_cons_of_mem w he)
      exact safe_of_oldest (fun e he => (hbs e he).1) fun e he => (hbs e he).2

theorem Plainly.step {op : Op} (hplainly : tree.Plainly) (hop : InOrder tree op)
    (hstep : FWriteTree.step tree op = .ok tree') : tree'.Plainly := by
  cases op with
  | addOverwrite path newData writeId visible =>
      obtain ⟨-, rfl⟩ := addOverwriteAtPath_eq_ok.mp hstep
      intro r hr
      rcases List.mem_append.mp hr with hr | hr
      · exact hplainly r hr
      · obtain rfl := List.mem_singleton.mp hr
        refine ⟨hop.2, fun x hx => ?_⟩
        obtain rfl : x = (path, newData.data) := by simpa [FWriteRecord.changes] using hx
        exact Nat.le_succ _
  | addMerge path changedChildren writeId =>
      obtain ⟨-, rfl⟩ := addMergeAtPath_eq_ok.mp hstep
      intro r hr
      rcases List.mem_append.mp hr with hr | hr
      · exact hplainly r hr
      · obtain rfl := List.mem_singleton.mp hr
        refine ⟨rfl, fun x hx => ?_⟩
        obtain ⟨y, hy, rfl⟩ : ∃ y ∈ changedChildren.forEach, (path ++ y.1, y.2.data) = x := by
          simpa [FWriteRecord.changes, FCompoundWrite.changes] using hx
        have := hop.2 y hy
        simp only [List.length_append]
        omega
  | remove writeId =>
      rw [FWriteTree.step] at hstep
      cases hrun : tree.removeWriteId writeId with
      | error e => simp [hrun, Except.map] at hstep
      | ok res =>
          obtain rfl : res.1 = tree' := by simpa [hrun, Except.map] using hstep
          obtain ⟨as, w, bs, hall, -, hcase⟩ := removeWriteId_cases hrun
          have hrest : res.1.allWrites = as ++ bs := by
            rcases hcase with ⟨-, h, -⟩ | ⟨-, h, -⟩ | ⟨-, h, -⟩
            · rw [h]
            · rw [h]; rfl
            · rw [h]
          intro r hr
          rw [hrest] at hr
          refine hplainly r ?_
          rw [hall, List.mem_append, List.mem_cons]
          exact (List.mem_append.mp hr).imp_right Or.inr
  | removeAll =>
      cases hstep
      simp [Plainly, removeAllWrites]

/-- When the server answers in order, the invariant holds throughout. -/
theorem holds_of_inOrder (h : Transition.Reach step (· = init) InOrder tree) :
    tree.Holds ∧ tree.Plainly := by
  refine h.invariant (I := fun tree => tree.Holds ∧ tree.Plainly) ?_ ?_
  · rintro s rfl
    exact ⟨holds_init, by simp [Plainly, init]⟩
  · rintro s a s' - ⟨hs, hplainly⟩ hop hstep
    exact ⟨hs.step (allowed_of_inOrder hs hplainly hop) hstep, hplainly.step hop hstep⟩

/-! ### What an observer is shown -/

/-- Below a path, the pending writes are what the overlay has there. -/
theorem Holds.subtree_graftAll (h : tree.Holds) (t : Snapshot) (p : Path) :
    (t.graftAll (visibleChanges tree.allWrites)).subtree p =
      ((overlay tree.visibleWrites).below p).apply (t.subtree p) := by
  rw [← Overlay.apply_ofWrites, ← h.layered, Overlay.subtree_apply]

/-- Given what the server sent for a path, there is a complete event cache: the writes on
top of it. -/
theorem calculateCompleteEventCacheAtPath_some (hv : FCompoundWrite.Valid tree.visibleWrites)
    (hp : PlainPath path) {server : FNode} (hserver : server.WellFormed) :
    ∃ m, calculateCompleteEventCacheAtPath tree path (some server) none false = some m ∧
      m.WellFormed ∧ m.data = ((overlay tree.visibleWrites).below path).apply server.data := by
  unfold calculateCompleteEventCacheAtPath
  rw [if_pos ⟨rfl, rfl⟩]
  cases hcomplete : completeNodeAtPath tree.visibleWrites path with
  | some n =>
      obtain ⟨hwf, hleaf⟩ := completeNodeAtPath_eq_some hv hp hcomplete
      refine ⟨n, rfl, hwf, ?_⟩
      rw [hleaf, Overlay.apply, leaves_leaf, graftAll_cons, graftAll_nil, graft_nil]
  | none =>
      obtain ⟨hvalid, hoverlay⟩ := overlay_childCompoundWriteAtPath hv hp
      dsimp only
      split
      · next hempty =>
        refine ⟨server, rfl, hserver, ?_⟩
        rw [← hoverlay, FImmutableTree.isEmpty_iff.mp hempty]
        rfl
      · rw [if_neg (by simp)]
        obtain ⟨hwf, hdata⟩ := data_applyToNode hvalid hserver
        exact ⟨_, rfl, hwf, by rw [← hoverlay]; exact hdata⟩

/-- Without data from the server there is one only if a write covers the path. -/
theorem calculateCompleteEventCacheAtPath_none (hv : FCompoundWrite.Valid tree.visibleWrites)
    (hp : PlainPath path) :
    calculateCompleteEventCacheAtPath tree path none none false =
      completeNodeAtPath tree.visibleWrites path := by
  unfold calculateCompleteEventCacheAtPath
  rw [if_pos ⟨rfl, rfl⟩]
  cases hcomplete : completeNodeAtPath tree.visibleWrites path with
  | some n => rfl
  | none =>
      dsimp only
      split
      · rfl
      · -- a complete write at the root of the part would have covered the path
        rw [hasCompleteWriteAtPath_childCompoundWriteAtPath hv hp, hasCompleteWriteAtPath, hcomplete]
        rfl

/-- After an update from the server at `childPath` there is nothing to show there if a
write covers it, and otherwise the writes on top of the new data. -/
theorem calculateEventCacheAfterServerOverwriteAtPath_eq
    (hv : FCompoundWrite.Valid tree.visibleWrites) {treePath childPath : Path}
    (hp : PlainPath (treePath ++ childPath)) {server : FNode} (hserver : server.WellFormed) :
    match calculateEventCacheAfterServerOverwriteAtPath tree treePath childPath server with
    | some m => completeNodeAtPath tree.visibleWrites (treePath ++ childPath) = none ∧
        m.WellFormed ∧ m.data = ((overlay tree.visibleWrites).below (treePath ++ childPath)).apply
          (server.data.subtree childPath)
    | none => completeNodeAtPath tree.visibleWrites (treePath ++ childPath) ≠ none := by
  have hchild := hserver.getChild childPath
  rw [← FNode.data_getChild hserver (plainPath_append.mp hp).2]
  unfold calculateEventCacheAfterServerOverwriteAtPath
  dsimp only
  split
  · next m hm =>
    obtain ⟨hvalid, hoverlay⟩ := overlay_childCompoundWriteAtPath hv hp
    rw [← hoverlay]
    split at hm
    · cases hm
    · next hcomplete =>
      refine ⟨by simpa [hasCompleteWriteAtPath] using hcomplete, ?_⟩
      split at hm
      · next hempty =>
        cases hm
        rw [FImmutableTree.isEmpty_iff.mp hempty]
        exact ⟨hchild, rfl⟩
      · cases hm
        exact data_applyToNode hvalid hchild
  · next hm =>
    split at hm
    · next hcomplete => exact Option.isSome_iff_ne_none.mp hcomplete
    · split at hm <;> cases hm

/-- **The event cache.** With the invariant, and given what the server sent for the
path, the client computes the pending writes on top of it. -/
theorem Holds.eventCache (h : tree.Holds) (hp : PlainPath path) {server : FNode}
    (hserver : server.WellFormed) {t : Snapshot} (ht : server.data = t.subtree path) :
    ∃ m, calculateCompleteEventCacheAtPath tree path (some server) none false = some m ∧
      m.WellFormed ∧ m.data = (t.graftAll (visibleChanges tree.allWrites)).subtree path := by
  rw [h.subtree_graftAll, ← ht]
  exact calculateCompleteEventCacheAtPath_some h.valid hp hserver

/-- Without data from the server the client claims to know something only if pending
writes cover the path, and then it is right whatever the server has. -/
theorem Holds.eventCache_without_server (h : tree.Holds) (hp : PlainPath path) {m : FNode}
    (hm : calculateCompleteEventCacheAtPath tree path none none false = some m) (t : Snapshot) :
    m.WellFormed ∧ m.data = (t.graftAll (visibleChanges tree.allWrites)).subtree path := by
  rw [calculateCompleteEventCacheAtPath_none h.valid hp] at hm
  obtain ⟨hwf, hleaf⟩ := completeNodeAtPath_eq_some h.valid hp hm
  refine ⟨hwf, ?_⟩
  rw [h.subtree_graftAll, hleaf, Overlay.apply, leaves_leaf, graftAll_cons, graftAll_nil, graft_nil]

/-- **After an update from the server.** The client asks what to show at `childPath` of a
location whose data the server just changed there: the pending writes on top, or nothing
if they hide whatever the server has there. -/
theorem Holds.eventCache_after_server_overwrite (h : tree.Holds) {treePath childPath : Path}
    (hp : PlainPath (treePath ++ childPath)) {server : FNode} (hserver : server.WellFormed)
    {t : Snapshot} (ht : server.data = t.subtree treePath) :
    match calculateEventCacheAfterServerOverwriteAtPath tree treePath childPath server with
    | some m => m.WellFormed ∧
        m.data = (t.graftAll (visibleChanges tree.allWrites)).subtree (treePath ++ childPath)
    | none => ∀ t' : Snapshot,
        (t'.graftAll (visibleChanges tree.allWrites)).subtree (treePath ++ childPath) =
          (t.graftAll (visibleChanges tree.allWrites)).subtree (treePath ++ childPath) := by
  have heq := calculateEventCacheAfterServerOverwriteAtPath_eq h.valid hp hserver
  split at heq
  · rw [h.subtree_graftAll, ← subtree_subtree, ← ht]
    exact heq.2
  · intro t'
    obtain ⟨n, hn⟩ := Option.ne_none_iff_exists'.mp heq
    obtain ⟨-, hleaf⟩ := completeNodeAtPath_eq_some h.valid hp hn
    rw [h.subtree_graftAll, h.subtree_graftAll, hleaf]
    simp [Overlay.apply]

theorem inOrder_oneWrite : Transition.Reach step (· = init) InOrder oneWrite :=
  .next (a := .addOverwrite ["a"] (.leaf (.bool true)) 0 true) (.start rfl)
    ⟨⟨by decide, .leaf _, rfl⟩, rfl⟩ rfl

end FWriteTree

/-! ### Caches -/

/-- `FCacheNode`. -/
structure FCacheNode where
  node : FNode
  isFullyInitialized : Bool
  isFiltered : Bool

namespace FCacheNode

/-- `isCompleteForChild:`. -/
def isCompleteForChild (cache : FCacheNode) (childKey : String) : Bool :=
  (cache.isFullyInitialized && ¬ cache.isFiltered) || cache.node.hasChild childKey

/-- `isCompleteForPath:`. -/
def isCompleteForPath (cache : FCacheNode) : Path → Bool
  | [] => cache.isFullyInitialized && ¬ cache.isFiltered
  | childKey :: _ => cache.isCompleteForChild childKey

end FCacheNode

/-! ### The write tree from a path -/

namespace FCompoundWrite

/-- `rootWrite`. -/
def rootWrite (write : FCompoundWrite) : Option FNode := write.value

/-- `childCompoundWrites`. -/
def childCompoundWrites (write : FCompoundWrite) : List (String × FCompoundWrite) := write.children

/-- `completeChildren`. -/
def completeChildren (write : FCompoundWrite) : List (String × FNode) :=
  match write.value with
  | some node => node.enumerateChildren
  | none => write.children.filterMap fun x => x.2.value.map fun value => (x.1, value)

end FCompoundWrite

/-- The write tree, as seen from a path. -/
structure FWriteTreeRef where
  path : Path
  writeTree : FWriteTree

namespace FWriteTreeRef

/-- `calculateCompleteEventCacheWithCompleteServerCache:`. -/
def calculateCompleteEventCache (writes : FWriteTreeRef) (completeServerCache : Option FNode) :
    Option FNode :=
  writes.writeTree.calculateCompleteEventCacheAtPath writes.path completeServerCache none false

/-- `calculateCompleteEventChildrenWithCompleteServerChildren:`. -/
def calculateCompleteEventChildren (writes : FWriteTreeRef) (completeServerChildren : FNode) : FNode :=
  let update := fun (completeChildren : FNode) (x : String × FNode) =>
    completeChildren.updateImmediateChild x.1 x.2
  match completeNodeAtPath writes.writeTree.visibleWrites writes.path with
  | some topLevelSet => topLevelSet.enumerateChildren.foldl update FNode.emptyNode
  | none =>
      let merge := childCompoundWriteAtPath writes.writeTree.visibleWrites writes.path
      let completeChildren := completeServerChildren.enumerateChildren.foldl (fun completeChildren x =>
        update completeChildren (x.1, applyToNode (childCompoundWriteAtPath merge [x.1]) x.2))
        FNode.emptyNode
      (FCompoundWrite.completeChildren merge).foldl update completeChildren

/-- `calculateEventCacheAfterServerOverwriteWithChildPath:existingEventSnap:existingServerSnap:`. -/
def calculateEventCacheAfterServerOverwrite (writes : FWriteTreeRef) (childPath : Path)
    (existingServerSnap : FNode) : Option FNode :=
  writes.writeTree.calculateEventCacheAfterServerOverwriteAtPath writes.path childPath existingServerSnap

/-- `shadowingWriteAtPath:`. -/
def shadowingWriteAtPath (writes : FWriteTreeRef) (path : Path) : Option FNode :=
  completeNodeAtPath writes.writeTree.visibleWrites (writes.path ++ path)

/-- `calculateCompleteChild:cache:`. -/
def calculateCompleteChild (writes : FWriteTreeRef) (childKey : String)
    (existingServerCache : FCacheNode) : Option FNode :=
  let path := writes.path ++ [childKey]
  match completeNodeAtPath writes.writeTree.visibleWrites path with
  | some shadowingNode => some shadowingNode
  | none =>
      if existingServerCache.isCompleteForChild childKey then
        let childMerge := childCompoundWriteAtPath writes.writeTree.visibleWrites path
        some (applyToNode childMerge (existingServerCache.node.getImmediateChild childKey))
      else none

/-- The pending writes are valid, and the path has plain keys. -/
structure Valid (writes : FWriteTreeRef) : Prop where
  tree : FCompoundWrite.Valid writes.writeTree.visibleWrites
  plain : PlainPath writes.path

/-- The pending writes below the path. -/
def overlay (writes : FWriteTreeRef) : Overlay String Scalar :=
  (FCompoundWrite.overlay writes.writeTree.visibleWrites).below writes.path

variable {writes : FWriteTreeRef} {p : Path} {k : String} {server : FNode} {cache : FCacheNode}

theorem calculateCompleteEventCache_some (h : writes.Valid) (hserver : server.WellFormed) :
    ∃ m, writes.calculateCompleteEventCache (some server) = some m ∧ m.WellFormed ∧
      m.data = writes.overlay.apply server.data :=
  FWriteTree.calculateCompleteEventCacheAtPath_some h.tree h.plain hserver

theorem shadowingWriteAtPath_eq_none_iff (h : writes.Valid) :
    writes.shadowingWriteAtPath p = none ↔ writes.overlay.rootMost p = none := by
  rw [overlay, Overlay.rootMost_below_eq_none_iff]
  exact completeNodeAtPath_eq_none_iff h.tree

/-- Where no pending write hides a path, those below it delete nothing. -/
theorem ne_empty_of_mem_below (h : writes.Valid) (hp : writes.overlay.rootMost p = none) :
    ∀ e ∈ (writes.overlay.below p).leaves, e.2 ≠ ∅ := by
  intro e he
  rw [overlay, Overlay.rootMost_below_eq_none_iff] at hp
  rw [overlay, Overlay.below_below, Overlay.below_of_rootMost_eq_none hp, mem_subtree] at he
  obtain ⟨n, hn, hdata⟩ := mem_overlay.mp he
  rcases h.tree.nonempty _ hn with hne | hnil
  · rw [← hdata, Ne, (h.tree.wellFormed hn).data_eq_empty_iff]
    simpa using hne
  · exact absurd (hnil ▸ List.nil_prefix) (Overlay.not_prefix_of_rootMost_eq_none hp _ he)

theorem calculateEventCacheAfterServerOverwrite_eq (h : writes.Valid) (hp : PlainPath p)
    (hserver : server.WellFormed) :
    match writes.calculateEventCacheAfterServerOverwrite p server with
    | some m => writes.overlay.rootMost p = none ∧ m.WellFormed ∧
        m.data = (writes.overlay.below p).apply (server.data.subtree p)
    | none => writes.overlay.rootMost p ≠ none := by
  have heq := FWriteTree.calculateEventCacheAfterServerOverwriteAtPath_eq h.tree
    (plainPath_append.mpr ⟨h.plain, hp⟩) hserver
  simp only [Ne, completeNodeAtPath_eq_none_iff h.tree] at heq
  simp only [overlay, Ne, Overlay.rootMost_below_eq_none_iff, Overlay.below_below]
  exact heq

theorem calculateCompleteChild_eq (h : writes.Valid) (hk : Plain k) (hcache : cache.node.WellFormed) :
    match writes.calculateCompleteChild k cache with
    | some m => m.WellFormed ∧
        m.data = (writes.overlay.apply cache.node.data).subtree [k]
    | none => cache.isCompleteForChild k = false := by
  have hp : PlainPath (writes.path ++ [k]) := plainPath_append.mpr ⟨h.plain, by simpa using hk⟩
  rw [Overlay.subtree_apply, overlay, Overlay.below_below]
  unfold calculateCompleteChild
  cases hcomplete : completeNodeAtPath writes.writeTree.visibleWrites (writes.path ++ [k]) with
  | some n =>
      obtain ⟨hwf, hleaf⟩ := completeNodeAtPath_eq_some h.tree hp hcomplete
      simp only [hcomplete]
      exact ⟨hwf, by rw [hleaf]; simp [Overlay.apply]⟩
  | none =>
      simp only [hcomplete]
      by_cases hchild : cache.isCompleteForChild k = true
      · obtain ⟨hvalid, hoverlay⟩ := overlay_childCompoundWriteAtPath h.tree hp
        rw [if_pos hchild, ← FNode.data_getImmediateChild hcache hk, ← hoverlay]
        exact data_applyToNode hvalid (hcache.getImmediateChild k)
      · rw [if_neg hchild]
        simpa using hchild

theorem wellFormed_of_calculateCompleteChild (h : writes.Valid) (hk : Plain k)
    (hcache : cache.node.WellFormed) {n : FNode} (hn : writes.calculateCompleteChild k cache = some n) :
    n.WellFormed := by
  have heq := calculateCompleteChild_eq h hk hcache
  rw [hn] at heq
  exact heq.1

/-- Well-formed children under plain keys, put into an empty node. -/
theorem wellFormed_foldl_updateImmediateChild {xs : List (String × FNode)} {node : FNode}
    (h : node.WellFormed) (hxs : ∀ x ∈ xs, Plain x.1 ∧ x.2.WellFormed) :
    (xs.foldl (fun node x => node.updateImmediateChild x.1 x.2) node).WellFormed := by
  induction xs generalizing node with
  | nil => exact h
  | cons x xs ih =>
      obtain ⟨hx, hxs⟩ := List.forall_mem_cons.mp hxs
      exact ih (h.updateImmediateChild hx.1 hx.2) hxs

theorem wellFormed_enumerateChildren (h : server.WellFormed) :
    ∀ x ∈ server.enumerateChildren, Plain x.1 ∧ x.2.WellFormed := by
  intro x hx
  obtain ⟨hk, heq, -⟩ := (FNode.mem_enumerateChildren h).mp hx
  exact ⟨hk, heq ▸ h.getImmediateChild x.1⟩

theorem wellFormed_completeChildren {write : FCompoundWrite} (h : FCompoundWrite.Valid write) :
    ∀ x ∈ completeChildren write, Plain x.1 ∧ x.2.WellFormed := by
  intro x hx
  unfold completeChildren at hx
  cases hvalue : write.value with
  | some node =>
      rw [hvalue] at hx
      exact wellFormed_enumerateChildren (h.wellFormed (h.wf.mem_toTree_nil.mpr hvalue)) x hx
  | none =>
      rw [hvalue] at hx
      obtain ⟨⟨k, child⟩, hmem, hx⟩ := List.mem_filterMap.mp hx
      obtain ⟨v, hv, rfl⟩ := Option.map_eq_some_iff.mp hx
      obtain ⟨value, children⟩ := write
      obtain rfl : value = none := hvalue
      cases hwf : h.wf with
      | children sorted nonempty wf =>
          have hchild : (FImmutableTree.node none children).child k = child :=
            FImmutableTree.child_of_mem sorted hmem
          have hleaf : ([k], v) ∈ (FImmutableTree.node none children).toTree.leaves := by
            rw [h.wf.mem_toTree_cons, hchild, (wf _ hmem).mem_toTree_nil]
            exact hv
          exact ⟨by simpa using h.plain _ hleaf, h.wellFormed hleaf⟩

theorem wellFormed_calculateCompleteEventChildren (h : writes.Valid) (hserver : server.WellFormed) :
    (writes.calculateCompleteEventChildren server).WellFormed := by
  unfold calculateCompleteEventChildren
  cases hcomplete : completeNodeAtPath writes.writeTree.visibleWrites writes.path with
  | some n =>
      obtain ⟨hwf, -⟩ := completeNodeAtPath_eq_some h.tree h.plain hcomplete
      exact wellFormed_foldl_updateImmediateChild FNode.wellFormed_emptyNode
        (wellFormed_enumerateChildren hwf)
  | none =>
      obtain ⟨hvalid, -⟩ := overlay_childCompoundWriteAtPath h.tree h.plain
      have hserverChildren : ∀ x ∈ server.enumerateChildren.map fun x => (x.1, applyToNode
          (childCompoundWriteAtPath (childCompoundWriteAtPath writes.writeTree.visibleWrites
            writes.path) [x.1]) x.2), Plain x.1 ∧ x.2.WellFormed := by
        intro y hy
        obtain ⟨x, hx, rfl⟩ := List.mem_map.mp hy
        obtain ⟨hk, hwf⟩ := wellFormed_enumerateChildren hserver x hx
        have hplain : PlainPath [x.1] := by simpa using hk
        obtain ⟨hvalid', -⟩ := overlay_childCompoundWriteAtPath hvalid hplain
        exact ⟨hk, (data_applyToNode hvalid' hwf).1⟩
      have hfirst := wellFormed_foldl_updateImmediateChild FNode.wellFormed_emptyNode hserverChildren
      rw [List.foldl_map] at hfirst
      exact wellFormed_foldl_updateImmediateChild hfirst (wellFormed_completeChildren hvalid)

end FWriteTreeRef

end MyChat
