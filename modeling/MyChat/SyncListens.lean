import MyChat.SyncContents

/-!
# MyChat.SyncListens

Registrations come and go. A view that is new shows what is true from the start: it takes
over what the views above have of the server's data (`shows_newView`).

The client listens at the topmost views, and nowhere else (`FSyncTree.Listens`): a new
view that has one above it needs no listen, one that has none takes over from those below
it, and when it goes these are listened to again. So the connection is never asked to
listen twice at a place.
-/

namespace MyChat

open PathTree FUtilities FCompoundWrite NetChange

namespace FImmutableTree

variable {α : Type} {t t' : FImmutableTree α} {S : String → Prop} {p q r : Path} {v : α}

theorem Keyed.mem_forEach_setValue (h : t.Keyed S) (hp : ∀ k ∈ p, S k) {x : Path × α} :
    x ∈ (t.setValue v p).forEach ↔ x = (p, v) ∨ (x.1 ≠ p ∧ x ∈ t.forEach) := by
  rw [(h.setValue hp v).mem_forEach, h.valueAtPath_setValue, h.mem_forEach]
  obtain ⟨q, w⟩ := x
  by_cases hq : q = p
  · simp [hq, eq_comm]
  · simp [hq]

theorem Keyed.mem_forEach_removeValueAtPath (h : t.Keyed S) {x : Path × α} :
    x ∈ (t.removeValueAtPath p).forEach ↔ x.1 ≠ p ∧ x ∈ t.forEach := by
  rw [(h.removeValueAtPath p).mem_forEach, h.valueAtPath_removeValueAtPath, h.mem_forEach]
  by_cases hq : x.1 = p <;> simp [hq]

/-! ### Topmost places -/

/-- Only where there are values matters. -/
theorem isTopmost_congr (h : ∀ q, t.valueAtPath q ≠ none ↔ t'.valueAtPath q ≠ none) :
    t.IsTopmost p ↔ t'.IsTopmost p :=
  and_congr (h p) (forall₂_congr fun q _ => imp_congr_left (h q))

/-- A value below another one makes no difference. -/
theorem isTopmost_iff_of_covered (hcovered : ∃ q, q <+: p ∧ q ≠ p ∧ t.valueAtPath q ≠ none)
    (hsame : ∀ q, q ≠ p → t'.valueAtPath q = t.valueAtPath q) : t'.IsTopmost r ↔ t.IsTopmost r := by
  obtain ⟨q, hqp, hne, hv⟩ := hcovered
  by_cases hpr : p <+: r
  · -- neither is topmost: there is a value at `q`
    refine iff_of_false (fun h => ?_) fun h => ?_
    · have heq := h.2 q (hqp.trans hpr) (by rwa [hsame q hne])
      exact hne (hqp.eq_of_length_le (heq ▸ hpr.length_le))
    · have heq := h.2 q (hqp.trans hpr) hv
      exact hne (hqp.eq_of_length_le (heq ▸ hpr.length_le))
  · have habove : ∀ s, s <+: r → s ≠ p := fun s hs heq => hpr (heq ▸ hs)
    rw [IsTopmost, IsTopmost, hsame r (habove r (List.prefix_refl r))]
    exact and_congr_right fun _ => forall₂_congr fun s hs => by rw [hsame s (habove s hs)]

/-- A new value without one above it is topmost, and those below are not any more. -/
theorem isTopmost_iff_of_new (hnew : t'.valueAtPath p ≠ none)
    (hnone : ∀ q, q <+: p → t.valueAtPath q = none)
    (hsame : ∀ q, q ≠ p → t'.valueAtPath q = t.valueAtPath q) :
    t'.IsTopmost r ↔ r = p ∨ (t.IsTopmost r ∧ ¬ p <+: r) := by
  by_cases hpr : p <+: r
  · rw [or_iff_left fun h => h.2 hpr]
    refine ⟨fun h => (h.2 p hpr hnew).symm, ?_⟩
    rintro rfl
    refine ⟨hnew, fun q hq hv => ?_⟩
    by_contra hne
    rw [hsame q hne] at hv
    exact hv (hnone q hq)
  · have habove : ∀ s, s <+: r → s ≠ p := fun s hs heq => hpr (heq ▸ hs)
    have hne : r ≠ p := habove r (List.prefix_refl r)
    rw [or_iff_right hne, and_iff_left hpr, IsTopmost, IsTopmost, hsame r hne]
    exact and_congr_right fun _ => forall₂_congr fun s hs => by rw [hsame s (habove s hs)]

/-- Above every value there is a topmost one. -/
theorem exists_isTopmost (hv : t.valueAtPath p ≠ none) : ∃ q, q <+: p ∧ t.IsTopmost q := by
  induction hlength : p.length using Nat.strong_induction_on generalizing p with
  | _ n ih =>
      by_cases htop : ∀ q, q <+: p → t.valueAtPath q ≠ none → q = p
      · exact ⟨p, List.prefix_refl p, hv, htop⟩
      · simp only [not_forall] at htop
        obtain ⟨q, hqp, hq, hne⟩ := htop
        have hlt : q.length < n :=
          hlength ▸ lt_of_le_of_ne hqp.length_le fun heq => hne (hqp.eq_of_length heq)
        obtain ⟨r, hr, htop⟩ := ih _ hlt hq rfl
        exact ⟨r, hr.trans hqp, htop⟩

/-- Below a place without values above it and at it, the topmost places are those of the subtree. -/
theorem isTopmost_append_iff (hnone : ∀ q, q <+: p → t.valueAtPath q = none) :
    t.IsTopmost (p ++ r) ↔ (t.subtreeAtPath p).IsTopmost r := by
  rw [IsTopmost, IsTopmost, valueAtPath_subtreeAtPath]
  refine and_congr_right fun _ => ⟨fun h q hq hv => ?_, fun h q hq hv => ?_⟩
  · rw [valueAtPath_subtreeAtPath] at hv
    exact List.append_cancel_left (h (p ++ q) ((List.prefix_append_right_inj p).mpr hq) hv)
  · rcases List.prefix_or_prefix_of_prefix hq (List.prefix_append p r) with hqp | hpq
    · exact absurd (hnone q hqp) hv
    · obtain ⟨s, rfl⟩ := hpq
      have hs := h s ((List.prefix_append_right_inj p).mp hq) (by rwa [valueAtPath_subtreeAtPath])
      rw [hs]

theorem isEmpty_forEachOnPath_iff : (t.forEachOnPath p).isEmpty = true ↔
    ∀ q, q <+: p → t.valueAtPath q = none := by
  rw [List.isEmpty_iff]
  constructor
  · rintro hnil q ⟨s, hs⟩
    refine Option.eq_none_iff_forall_ne_some.mpr fun v hv => ?_
    have hmem : (v, s) ∈ t.forEachOnPath p := mem_forEachOnPath.mpr ⟨q, hs, hv⟩
    rw [hnil] at hmem
    cases hmem
  · intro hnone
    refine List.eq_nil_iff_forall_not_mem.mpr fun x hx => ?_
    obtain ⟨q, hq, hv⟩ := mem_forEachOnPath.mp hx
    rw [hnone q ⟨x.2, hq⟩] at hv
    cases hv

end FImmutableTree

namespace FSyncTree

open FWriteTree FImmutableTree

variable {tree tree' : FSyncTree} {server : Snapshot} {path : Path}

/-! ### Listens -/

/-- The client listens at the topmost views, once at each. -/
structure Listens (tree : FSyncTree) : Prop where
  nodup : tree.listens.Nodup
  topmost : ∀ p, p ∈ tree.listens ↔ tree.syncPointTree.IsTopmost p

theorem listens_init : init.Listens where
  nodup := by simp [init]
  topmost := fun p => by
    refine iff_of_false (by simp [init]) fun h => h.1 ?_
    exact valueAtPath_empty p

/-- As long as the views are at the same places. -/
theorem Listens.of_values (h : tree.Listens) (hlistens : tree'.listens = tree.listens)
    (hvalues : ∀ q, tree.syncPointTree.valueAtPath q ≠ none ↔ tree'.syncPointTree.valueAtPath q ≠ none) :
    tree'.Listens where
  nodup := hlistens ▸ h.nodup
  topmost := fun p => by
    rw [hlistens, h.topmost]
    exact isTopmost_congr hvalues

theorem foldlM_startListening {ps : List Path} (hnodup : (tree.listens ++ ps).Nodup) :
    ps.foldlM startListening tree = .ok { tree with listens := tree.listens ++ ps } := by
  induction ps generalizing tree with
  | nil => simp [pure, Except.pure]
  | cons p ps ih =>
      have hp : p ∉ tree.listens := fun hmem =>
        (List.nodup_append'.mp hnodup).2.2 hmem List.mem_cons_self
      have hstart : tree.startListening p = .ok { tree with listens := tree.listens ++ [p] } := by
        unfold startListening
        rw [if_neg (by simpa using hp)]
        rfl
      have hnodup' : ((tree.listens ++ [p]) ++ ps).Nodup := by simpa using hnodup
      have hrest : ps.foldlM startListening { tree with listens := tree.listens ++ [p] } =
          .ok { tree with listens := (tree.listens ++ [p]) ++ ps } := ih hnodup'
      rw [List.foldlM_cons, hstart]
      exact hrest.trans (by simp)

theorem foldl_stopListening (ps : List Path) (tree : FSyncTree) :
    ps.foldl stopListening tree = { tree with listens := tree.listens.diff ps } := by
  induction ps generalizing tree with
  | nil => rfl
  | cons p ps ih => rw [List.foldl_cons, ih, List.diff_cons]; rfl

/-- The listen for a new view without one above it. -/
theorem exists_setupListener (hkeyed : tree.syncPointTree.Keyed Plain) (hp : PlainPath path)
    (hl : tree.Listens) (hnone : ∀ q, q <+: path → tree.syncPointTree.valueAtPath q = none) (view : FView) :
    ∃ tree', setupListener { tree with syncPointTree := tree.syncPointTree.setValue view path } path =
        .ok tree' ∧ tree'.Listens ∧ tree'.pendingWriteTree = tree.pendingWriteTree ∧
      tree'.syncPointTree = tree.syncPointTree.setValue view path := by
  have hnotin : path ∉ tree.listens := fun hmem =>
    ((hl.topmost path).mp hmem).1 (hnone path (List.prefix_refl path))
  have hkeyed' := hkeyed.setValue hp view
  have hvalue : ∀ q, (tree.syncPointTree.setValue view path).valueAtPath q =
      if q = path then some view else tree.syncPointTree.valueAtPath q := hkeyed.valueAtPath_setValue view path
  -- what is stopped: the topmost views that were below
  have hstops : ∀ q, q ∈ (topmostBelow ((tree.syncPointTree.setValue view path).subtreeAtPath path).children).map
      (path ++ ·) ↔ tree.syncPointTree.IsTopmost q ∧ path <+: q := by
    intro q
    have hsub := hkeyed'.subtreeAtPath path
    generalize hu : (tree.syncPointTree.setValue view path).subtreeAtPath path = u at hsub
    have hbelow : ∀ r, (FImmutableTree.node none u.children).IsTopmost r ↔
        tree.syncPointTree.IsTopmost (path ++ r) := by
      intro r
      rw [isTopmost_append_iff hnone]
      refine isTopmost_congr fun s => ?_
      rw [valueAtPath_subtreeAtPath]
      cases s with
      | nil =>
          rw [valueAtPath_nil, List.append_nil, hnone path (List.prefix_refl path)]
          exact Iff.rfl
      | cons k s =>
          have hsame : (FImmutableTree.node none u.children).valueAtPath (k :: s) = u.valueAtPath (k :: s) := by
            rw [valueAtPath_cons, valueAtPath_cons]
            rfl
          rw [hsame, ← hu, valueAtPath_subtreeAtPath, hvalue, if_neg (by simp)]
    have hnode : (FImmutableTree.node none u.children).Keyed Plain := by
      cases hsub with
      | mk sorted keys keyed => exact .mk sorted keys keyed
    have hmem : ∀ r, r ∈ topmostBelow u.children ↔ tree.syncPointTree.IsTopmost (path ++ r) := fun r => by
      rw [← hbelow, ← hnode.mem_topmost, topmost]
    rw [List.mem_map]
    constructor
    · rintro ⟨r, hr, rfl⟩
      exact ⟨(hmem r).mp hr, List.prefix_append path r⟩
    · rintro ⟨htop, r, rfl⟩
      exact ⟨r, (hmem r).mpr htop, rfl⟩
  have hnodup : (tree.listens ++ [path]).Nodup := List.nodup_append'.mpr
    ⟨hl.nodup, List.nodup_singleton path, fun q hq hq' => hnotin (List.mem_singleton.mp hq' ▸ hq)⟩
  have hstart : startListening { tree with syncPointTree := tree.syncPointTree.setValue view path } path =
      .ok ⟨tree.syncPointTree.setValue view path, tree.pendingWriteTree, tree.listens ++ [path]⟩ := by
    unfold startListening
    rw [if_neg (by simpa using hnotin)]
    rfl
  generalize hpaths : (topmostBelow ((tree.syncPointTree.setValue view path).subtreeAtPath path).children).map
    (path ++ ·) = stops at hstops
  refine ⟨⟨tree.syncPointTree.setValue view path, tree.pendingWriteTree, (tree.listens ++ [path]).diff stops⟩,
    ?_, ⟨hnodup.sublist (List.diff_sublist _ _), fun q => ?_⟩, rfl, rfl⟩
  · unfold setupListener
    simp only [hstart, bind, Except.bind, hpaths, foldl_stopListening]
    rfl
  · have hnew : (tree.syncPointTree.setValue view path).IsTopmost q ↔
        q = path ∨ (tree.syncPointTree.IsTopmost q ∧ ¬ path <+: q) :=
      isTopmost_iff_of_new (by rw [hvalue, if_pos rfl]; simp) hnone fun q hq => by rw [hvalue, if_neg hq]
    rw [hnodup.mem_sdiff_iff, hstops, List.mem_append, List.mem_singleton, hl.topmost, hnew]
    constructor
    · rintro ⟨htop | rfl, hstop⟩
      · exact Or.inr ⟨htop, fun hpq => hstop ⟨htop, hpq⟩⟩
      · exact Or.inl rfl
    · rintro (rfl | ⟨htop, hpq⟩)
      · exact ⟨Or.inr rfl, fun hstop => hstop.1.1 (hnone q (List.prefix_refl q))⟩
      · exact ⟨Or.inl htop, fun hstop => hpq hstop.2⟩

/-- When the view at a topmost place has gone, those below it are listened to. -/
theorem exists_startListening_below (hkeyed : tree.syncPointTree.Keyed Plain)
    (hvalue : tree.syncPointTree.valueAtPath path ≠ none)
    (hnone : ∀ q, q <+: path → (tree.syncPointTree.removeValueAtPath path).valueAtPath q = none)
    (hnodup : tree.listens.Nodup)
    (hlistens : ∀ q, q ≠ path → (q ∈ tree.listens ↔ tree.syncPointTree.IsTopmost q)) :
    ∃ tree', (((tree.syncPointTree.removeValueAtPath path).subtreeAtPath path).topmost.map
        (path ++ ·)).foldlM startListening
          { tree with syncPointTree := tree.syncPointTree.removeValueAtPath path } = .ok tree' ∧
      (tree'.stopListening path).Listens ∧ tree'.pendingWriteTree = tree.pendingWriteTree ∧
      tree'.syncPointTree = tree.syncPointTree.removeValueAtPath path ∧
      (path ∉ tree.listens → tree'.Listens) := by
  have hkeyed' := hkeyed.removeValueAtPath path
  have hremoved : ∀ q, (tree.syncPointTree.removeValueAtPath path).valueAtPath q =
      if q = path then none else tree.syncPointTree.valueAtPath q :=
    hkeyed.valueAtPath_removeValueAtPath path
  generalize tree.syncPointTree.removeValueAtPath path = t' at hnone hkeyed' hremoved ⊢
  have hnew : ∀ q, tree.syncPointTree.IsTopmost q ↔ q = path ∨ (t'.IsTopmost q ∧ ¬ path <+: q) := fun q =>
    isTopmost_iff_of_new hvalue hnone fun q hq => by rw [hremoved, if_neg hq]
  have hne : ∀ q, t'.IsTopmost q → q ≠ path := by
    rintro q htop rfl
    exact htop.1 (hnone q (List.prefix_refl q))
  have hbelow : ∀ q, q ∈ (t'.subtreeAtPath path).topmost.map (path ++ ·) ↔ path <+: q ∧ t'.IsTopmost q := by
    intro q
    rw [List.mem_map]
    constructor
    · rintro ⟨r, hr, rfl⟩
      exact ⟨List.prefix_append path r, (isTopmost_append_iff hnone).mpr ((hkeyed'.subtreeAtPath path).mem_topmost.mp hr)⟩
    · rintro ⟨⟨r, rfl⟩, htop⟩
      exact ⟨r, (hkeyed'.subtreeAtPath path).mem_topmost.mpr ((isTopmost_append_iff hnone).mp htop), rfl⟩
  have hnodup' : (tree.listens ++ (t'.subtreeAtPath path).topmost.map (path ++ ·)).Nodup := by
    refine List.nodup_append'.mpr ⟨hnodup, ?_, fun q hq hq' => ?_⟩
    · exact (hkeyed'.subtreeAtPath path).nodup_topmost.map fun _ _ => List.append_cancel_left
    · obtain ⟨hpq, htop⟩ := (hbelow q).mp hq'
      rcases (hnew q).mp ((hlistens q (hne q htop)).mp hq) with rfl | ⟨-, hnot⟩
      · exact hne q htop rfl
      · exact hnot hpq
  have hmem : ∀ q, q ≠ path → (q ∈ tree.listens ++ (t'.subtreeAtPath path).topmost.map (path ++ ·) ↔
      t'.IsTopmost q) := by
    intro q hq
    rw [List.mem_append, hlistens q hq, hnew, hbelow, or_iff_right hq]
    exact ⟨fun h => h.elim And.left And.right, fun h => (em (path <+: q)).elim (fun hpq => Or.inr ⟨hpq, h⟩)
      fun hpq => Or.inl ⟨h, hpq⟩⟩
  refine ⟨_, foldlM_startListening hnodup', ⟨hnodup'.sublist List.erase_sublist, fun q => ?_⟩, rfl, rfl,
    fun hnotin => ⟨hnodup', fun q => ?_⟩⟩
  · show q ∈ (tree.listens ++ (t'.subtreeAtPath path).topmost.map (path ++ ·)).erase path ↔ t'.IsTopmost q
    rw [hnodup'.mem_erase_iff]
    exact ⟨fun h => (hmem q h.1).mp h.2, fun h => ⟨hne q h, (hmem q (hne q h)).mpr h⟩⟩
  · by_cases hq : q = path
    · subst hq
      refine iff_of_false (fun h => ?_) fun h => hne q h rfl
      rcases List.mem_append.mp h with h | h
      · exact hnotin h
      · exact hne q ((hbelow q).mp h).2 rfl
    · exact hmem q hq

/-! ### A view that is new -/

theorem plainPath_of_mem_forEach (hkeyed : tree.syncPointTree.Keyed Plain) {x : Path × FView}
    (hx : x ∈ tree.syncPointTree.forEach) : PlainPath x.1 := hkeyed.of_valueAtPath (hkeyed.mem_forEach.mp hx)

/-- What is known of the server's data at a path: all of it, or the children that are. -/
theorem serverCacheForQuery_spec (h : tree.Shows server) (hp : PlainPath path) :
    (tree.serverCacheForQuery path).node.WellFormed ∧
      (tree.serverCacheForQuery path).isFiltered = false ∧
      ((tree.serverCacheForQuery path).isFullyInitialized = true →
        (tree.serverCacheForQuery path).node.data = server.subtree path) := by
  have hcomplete : ∀ {q : Path} {view : FView} {r : Path} {n : FNode},
      tree.syncPointTree.valueAtPath q = some view → PlainPath r → view.completeServerCacheFor r = some n →
      n.WellFormed ∧ n.data = server.subtree (q ++ r) := by
    intro q view r n hview hr hn
    have hshows := h.views (q, view) (h.keyed.mem_forEach.mpr hview)
    unfold FView.completeServerCacheFor FViewCache.completeServerSnap at hn
    obtain ⟨m, hm, rfl⟩ := Option.map_eq_some_iff.mp hn
    split at hm
    · next hfull =>
      cases hm
      refine ⟨hshows.server.getChild r, ?_⟩
      rw [FNode.data_getChild hshows.server hr, hshows.serverSnap hfull, ← subtree_subtree]
      rfl
    · cases hm
  unfold serverCacheForQuery
  dsimp only
  cases hfind : (tree.syncPointTree.forEachOnPath path).findSome? fun x => x.1.completeServerCacheFor x.2 with
  | some n =>
      obtain ⟨x, hx, hn⟩ := List.exists_of_findSome?_eq_some hfind
      obtain ⟨q, hq, hview⟩ := mem_forEachOnPath.mp hx
      rw [← hq, plainPath_append] at hp
      obtain ⟨hwf, hdata⟩ := hcomplete hview hp.2 hn
      exact ⟨hwf, rfl, fun _ => by rw [hdata, hq]⟩
  | none =>
      refine ⟨?_, rfl, nofun⟩
      have hsub := h.keyed.subtreeAtPath path
      have hvalues : ∀ x ∈ (tree.syncPointTree.subtreeAtPath path).childValues, Plain x.1 ∧
          ∀ n, x.2.completeServerCacheFor [] = some n → n.WellFormed := by
        intro x hx
        have hview := hsub.mem_childValues.mp hx
        refine ⟨by simpa using hsub.of_valueAtPath hview, fun n hn => ?_⟩
        rw [valueAtPath_subtreeAtPath] at hview
        exact (hcomplete hview plainPath_nil hn).1
      refine List.foldlRecOn (motive := FNode.WellFormed) _ _ FNode.wellFormed_emptyNode
        fun node hnode x hx => ?_
      obtain ⟨hk, hx⟩ := hvalues x hx
      split
      · next n hn => exact hnode.updateImmediateChild hk (hx n hn)
      · exact hnode

/-- **A view that is new** shows what is true, as far as it is known. -/
theorem shows_newView (h : tree.Shows server) (hp : PlainPath path) :
    (FSyncPoint.newView path (tree.pendingWriteTree.childWritesForPath path)
      (tree.serverCacheForQuery path)).viewCache.Shows
        ((tree.pendingWriteTree.contents server).below path) := by
  obtain ⟨hwf, hunfiltered, hdata⟩ := serverCacheForQuery_spec h hp
  generalize tree.serverCacheForQuery path = serverCache at hwf hunfiltered hdata
  obtain ⟨node, full, filtered⟩ := serverCache
  have hvalid : (tree.pendingWriteTree.childWritesForPath path).Valid := ⟨h.writes.valid, hp⟩
  unfold FSyncPoint.newView
  dsimp only at hwf hdata ⊢
  cases full with
  | true =>
      obtain ⟨m, hm, hmwf, hmdata⟩ := FWriteTreeRef.calculateCompleteEventCache_some hvalid hwf
      rw [if_pos rfl, hm]
      refine ⟨⟨hmwf, hwf, rfl, rfl⟩, hdata, fun _ => ⟨rfl, hmdata.trans ?_⟩⟩
      rw [hdata rfl]
      exact (h.writes.subtree_graftAll server path).symm
  | false =>
      rw [if_neg (by simp)]
      cases hm : (tree.pendingWriteTree.childWritesForPath path).calculateCompleteEventCache none with
      | some m =>
          obtain ⟨hmwf, hmdata⟩ := h.writes.eventCache_without_server hp hm server
          exact ⟨⟨hmwf, hwf, rfl, rfl⟩, nofun, fun _ => ⟨rfl, hmdata⟩⟩
      | none =>
          refine ⟨⟨FWriteTreeRef.wellFormed_calculateCompleteEventChildren hvalid hwf, hwf, rfl, rfl⟩, nofun,
            fun hor => absurd ?_ (hor.resolve_left nofun)⟩
          -- no write hides the path
          have hnone : completeNodeAtPath tree.pendingWriteTree.visibleWrites path = none :=
            (calculateCompleteEventCacheAtPath_none h.writes.valid hp).symm.trans hm
          rw [completeNodeAtPath_eq_none_iff h.writes.valid] at hnone
          show ((overlay tree.pendingWriteTree.visibleWrites).below path).rootMost [] = none
          rwa [Overlay.rootMost_below_eq_none_iff, List.append_nil]

/-! ### Registrations -/

/-- A view that shows what is true is put at its place. -/
theorem Shows.of_setValue (h : tree.Shows server) (hp : PlainPath path) {view : FView}
    (hwrites : tree'.pendingWriteTree = tree.pendingWriteTree)
    (hviews : tree'.syncPointTree = tree.syncPointTree.setValue view path)
    (hview : view.viewCache.Shows ((tree.pendingWriteTree.contents server).below path))
    (hpath : view.path = path) : tree'.Shows server where
  writes := hwrites ▸ h.writes
  plainly := hwrites ▸ h.plainly
  filled := hwrites ▸ h.filled
  keyed := hviews ▸ h.keyed.setValue hp view
  views := fun x hx => by
    rw [hviews, h.keyed.mem_forEach_setValue hp] at hx
    rw [hwrites]
    rcases hx with rfl | ⟨-, hx⟩
    · exact hview
    · exact h.views x hx
  paths := fun x hx => by
    rw [hviews, h.keyed.mem_forEach_setValue hp] at hx
    rcases hx with rfl | ⟨-, hx⟩
    · exact hpath
    · exact h.paths x hx

/-- A view is taken away. -/
theorem Shows.of_removeValue (h : tree.Shows server)
    (hwrites : tree'.pendingWriteTree = tree.pendingWriteTree)
    (hviews : tree'.syncPointTree = tree.syncPointTree.removeValueAtPath path) : tree'.Shows server where
  writes := hwrites ▸ h.writes
  plainly := hwrites ▸ h.plainly
  filled := hwrites ▸ h.filled
  keyed := hviews ▸ h.keyed.removeValueAtPath path
  views := fun x hx => by
    rw [hviews, h.keyed.mem_forEach_removeValueAtPath] at hx
    rw [hwrites]
    exact h.views x hx.2
  paths := fun x hx => by
    rw [hviews, h.keyed.mem_forEach_removeValueAtPath] at hx
    exact h.paths x hx.2

/-- What a registration changes: the view at its path has it, and is new or the one that
was there. -/
structure Registered (registration : FEventRegistration) (path : Path) (tree tree' : FSyncTree)
    (view : FView) : Prop where
  writes : tree'.pendingWriteTree = tree.pendingWriteTree
  views : ∀ x, x ∈ tree'.syncPointTree.forEach ↔
    x = (path, view) ∨ (x.1 ≠ path ∧ x ∈ tree.syncPointTree.forEach)
  view : (∃ old, (path, old) ∈ tree.syncPointTree.forEach ∧
      view = { old with eventRegistrations := old.eventRegistrations ++ [registration] }) ∨
    (tree.syncPointTree.valueAtPath path = none ∧ view.eventRegistrations = [registration])

theorem exists_addToExistingView {view : FView} (h : view.viewCache.WellFormed)
    (hpath : view.path = path) (registration : FEventRegistration) :
    ∃ events, FSyncPoint.addToExistingView view registration =
        .ok ({ view with eventRegistrations := view.eventRegistrations ++ [registration] }, events) ∧
      FEventGenerator.EventsFor path [registration] events ∧
      Informed { view with eventRegistrations := view.eventRegistrations ++ [registration] } registration
        (heard path registration events) := by
  subst hpath
  have hwf : ({ view with eventRegistrations := view.eventRegistrations ++ [registration] } :
      FView).viewCache.WellFormed := h
  obtain ⟨events, hrun, hfor, hinformed⟩ := FView.exists_initialEvents hwf registration
  refine ⟨events, ?_, hfor, hinformed⟩
  simp only [FSyncPoint.addToExistingView, hrun, bind, Except.bind]
  rfl

/-- **A registration is added.** It is told all that its view shows, and the client goes
on listening at the topmost views. -/
theorem exists_addEventRegistration (h : tree.Shows server) (hl : tree.Listens) (hp : PlainPath path)
    (registration : FEventRegistration) :
    ∃ tree' events view, tree.addEventRegistration registration path = .ok (tree', events) ∧
      tree'.Shows server ∧ tree'.Listens ∧ Registered registration path tree tree' view ∧
      FEventGenerator.EventsFor path [registration] events ∧
      Informed view registration (heard path registration events) := by
  unfold addEventRegistration
  cases hvalue : tree.syncPointTree.valueAtPath path with
  | some old =>
      have hold : (path, old) ∈ tree.syncPointTree.forEach := h.keyed.mem_forEach.mpr hvalue
      have hshows := h.views _ hold
      have hpath : old.path = path := h.paths _ hold
      obtain ⟨events, hrun, hfor, hinformed⟩ :=
        exists_addToExistingView hshows.toWellFormed hpath registration
      simp only [hrun, bind, Except.bind]
      refine ⟨_, events, _, rfl, h.of_setValue hp rfl rfl hshows hpath, hl.of_values rfl fun q => ?_,
        ⟨rfl, fun x => h.keyed.mem_forEach_setValue hp, Or.inl ⟨old, hold, rfl⟩⟩, hfor, hinformed⟩
      rw [h.keyed.valueAtPath_setValue]
      split
      · next hq =>
        rw [hq, hvalue]
        simp
      · exact Iff.rfl
  | none =>
      have hshows := shows_newView h hp
      generalize hview : FSyncPoint.newView path (tree.pendingWriteTree.childWritesForPath path)
        (tree.serverCacheForQuery path) = newView at hshows
      have hnewPath : newView.path = path := by
        rw [← hview]
        rfl
      have hnewRegistrations : newView.eventRegistrations = [] := by
        rw [← hview]
        rfl
      obtain ⟨events, hrun, hfor, hinformed⟩ :=
        exists_addToExistingView hshows.toWellFormed hnewPath registration
      simp only [FSyncPoint.addToNonExistingView, hview, hrun, bind, Except.bind]
      have hregistered : ∀ tree' : FSyncTree, tree'.pendingWriteTree = tree.pendingWriteTree →
          tree'.syncPointTree = tree.syncPointTree.setValue
            { newView with eventRegistrations := newView.eventRegistrations ++ [registration] } path →
          tree'.Shows server ∧ Registered registration path tree tree'
            { newView with eventRegistrations := newView.eventRegistrations ++ [registration] } := by
        intro tree' hwrites hviews
        refine ⟨h.of_setValue hp hwrites hviews hshows hnewPath, hwrites, fun x => ?_,
          Or.inr ⟨hvalue, by rw [hnewRegistrations]; rfl⟩⟩
        rw [hviews]
        exact h.keyed.mem_forEach_setValue hp
      by_cases hfound : (tree.syncPointTree.forEachOnPath path).isEmpty = true
      · have hnone := isEmpty_forEachOnPath_iff.mp hfound
        obtain ⟨tree', hsetup, hlistens, hwrites, hviews⟩ := exists_setupListener h.keyed hp hl hnone
          { newView with eventRegistrations := newView.eventRegistrations ++ [registration] }
        obtain ⟨hshows', hreg⟩ := hregistered tree' hwrites hviews
        refine ⟨tree', events, _, ?_, hshows', hlistens, hreg, hfor, hinformed⟩
        rw [if_neg (not_not.mpr hfound), hsetup]
        rfl
      · rw [if_pos hfound]
        obtain ⟨hshows', hreg⟩ := hregistered { tree with
          syncPointTree := tree.syncPointTree.setValue
            { newView with eventRegistrations := newView.eventRegistrations ++ [registration] } path } rfl rfl
        have hcovered : ∃ q, q <+: path ∧ q ≠ path ∧ tree.syncPointTree.valueAtPath q ≠ none := by
          rw [isEmpty_forEachOnPath_iff] at hfound
          push Not at hfound
          obtain ⟨q, hq, hv⟩ := hfound
          exact ⟨q, hq, fun heq => hv (heq ▸ hvalue), hv⟩
        refine ⟨_, events, _, rfl, hshows', ⟨hl.nodup, fun q => ?_⟩, hreg, hfor, hinformed⟩
        rw [hl.topmost]
        refine (isTopmost_iff_of_covered hcovered fun q hq => ?_).symm
        rw [h.keyed.valueAtPath_setValue, if_neg hq]

/-- **A registration is removed.** What is left shows what is true, and the client goes on
listening at the topmost views. Without an error the listen is there. -/
theorem exists_removeEventRegistration (h : tree.Shows server) (registration : Option FEventRegistration)
    {cancelError : Bool} (hnodup : tree.listens.Nodup)
    (hlistens : ∀ q, q ≠ path ∨ cancelError = false →
      (q ∈ tree.listens ↔ tree.syncPointTree.IsTopmost q))
    (hcancel : cancelError = true → registration = none ∧ path ∉ tree.listens ∧
      tree.syncPointTree.IsTopmost path) :
    ∃ tree', tree.removeEventRegistration registration path cancelError = .ok tree' ∧
      tree'.Shows server ∧ tree'.Listens ∧ tree'.pendingWriteTree = tree.pendingWriteTree ∧
      ∀ x ∈ tree'.syncPointTree.forEach, ∃ old, (x.1, old) ∈ tree.syncPointTree.forEach ∧
        old.viewCache = x.2.viewCache ∧ x.2.eventRegistrations.Sublist old.eventRegistrations := by
  unfold removeEventRegistration
  cases hvalue : tree.syncPointTree.valueAtPath path with
  | none =>
      have hfalse : cancelError = false := by
        by_contra htrue
        exact (hcancel (by simpa using htrue)).2.2.1 hvalue
      refine ⟨tree, rfl, h, ⟨hnodup, fun q => hlistens q (Or.inr hfalse)⟩, rfl, fun x hx => ?_⟩
      exact ⟨x.2, hx, rfl, List.Sublist.refl _⟩
  | some view =>
      have hview : (path, view) ∈ tree.syncPointTree.forEach := h.keyed.mem_forEach.mpr hvalue
      have hshows := h.views _ hview
      have hp := plainPath_of_mem_forEach h.keyed hview
      have hregistrations : (view.removeEventRegistration registration).eventRegistrations.Sublist
          view.eventRegistrations := by
        unfold FView.removeEventRegistration
        cases registration with
        | none => exact List.nil_sublist _
        | some r => exact List.filter_sublist
      dsimp only
      by_cases hempty : (view.removeEventRegistration registration).isEmpty = true
      · rw [if_neg (not_not.mpr hempty)]
        have hsome : tree.syncPointTree.valueAtPath path ≠ none := by simp [hvalue]
        have hleft : ∀ tree' : FSyncTree,
            tree'.syncPointTree = tree.syncPointTree.removeValueAtPath path →
            ∀ x ∈ tree'.syncPointTree.forEach, ∃ old, (x.1, old) ∈ tree.syncPointTree.forEach ∧
              old.viewCache = x.2.viewCache ∧ x.2.eventRegistrations.Sublist old.eventRegistrations := by
          intro tree' hviews x hx
          rw [hviews, h.keyed.mem_forEach_removeValueAtPath] at hx
          exact ⟨x.2, hx.2, rfl, List.Sublist.refl _⟩
        by_cases hcovered : ((tree.syncPointTree.removeValueAtPath path).forEachOnPath path).isEmpty = true
        · -- the views below are not covered any more
          rw [if_neg (not_not.mpr hcovered)]
          obtain ⟨tree', hstart, hstopped, hwrites, hviews, hkept⟩ := exists_startListening_below h.keyed hsome
            (isEmpty_forEachOnPath_iff.mp hcovered) hnodup fun q hq => hlistens q (Or.inl hq)
          simp only [hstart, bind, Except.bind]
          cases cancelError with
          | true =>
              exact ⟨tree', rfl, h.of_removeValue hwrites hviews, hkept (hcancel rfl).2.1, hwrites, hleft _ hviews⟩
          | false =>
              exact ⟨tree'.stopListening path, rfl, h.of_removeValue hwrites hviews, hstopped, hwrites,
                hleft _ hviews⟩
        · rw [if_pos hcovered]
          rw [isEmpty_forEachOnPath_iff] at hcovered
          push Not at hcovered
          obtain ⟨q, hq, hv⟩ := hcovered
          rw [h.keyed.valueAtPath_removeValueAtPath] at hv
          have hne : q ≠ path := fun heq => hv (by rw [if_pos heq])
          rw [if_neg hne] at hv
          have hfalse : cancelError = false := by
            by_contra htrue
            exact hne ((hcancel (by simpa using htrue)).2.2.2 q hq hv)
          refine ⟨_, rfl, h.of_removeValue rfl rfl, ⟨hnodup, fun r => ?_⟩, rfl, hleft _ rfl⟩
          rw [hlistens r (Or.inr hfalse)]
          refine (isTopmost_iff_of_covered ⟨q, hq, hne, hv⟩ fun s hs => ?_).symm
          rw [h.keyed.valueAtPath_removeValueAtPath, if_neg hs]
      · rw [if_pos hempty]
        have hfalse : cancelError = false := by
          by_contra htrue
          obtain ⟨rfl, -, -⟩ := hcancel (by simpa using htrue)
          exact hempty rfl
        refine ⟨_, rfl, h.of_setValue hp rfl rfl hshows (h.paths _ hview), ⟨hnodup, fun q => ?_⟩, rfl,
          fun x hx => ?_⟩
        · rw [hlistens q (Or.inr hfalse)]
          refine isTopmost_congr fun r => ?_
          rw [h.keyed.valueAtPath_setValue]
          split
          · next hr =>
            rw [hr, hvalue]
            simp
          · exact Iff.rfl
        · rcases (h.keyed.mem_forEach_setValue hp).mp hx with rfl | ⟨-, hx⟩
          · exact ⟨view, hview, rfl, hregistrations⟩
          · exact ⟨x.2, hx, rfl, List.Sublist.refl _⟩

end FSyncTree

end MyChat
