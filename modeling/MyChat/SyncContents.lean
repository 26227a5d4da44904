import MyChat.SyncTraversal

/-!
# MyChat.SyncContents

The sync tree shows what is true: at every location with observers, the pending writes on
top of what the server has (`FSyncTree.Shows`). Each function of `FSyncTree` that applies
an operation goes through, and keeps it so. The write tree comes first: what it does to
the contents is what the operation says it does (`turns_addOverwrite`, `turns_addMerge`,
`removeWrite_cases`).
-/

namespace MyChat

open PathTree FUtilities FCompoundWrite NetChange

namespace FWriteTree

variable {tree tree' : FWriteTree} {server : Snapshot} {path : Path} {node : FNode}
  {write : FCompoundWrite} {writeId : Int} {q : Path}

/-- The pending writes, what the server has, and the one on top of the other. -/
def contents (tree : FWriteTree) (server : Snapshot) : Contents :=
  ⟨overlay tree.visibleWrites, server, server.graftAll (visibleChanges tree.allWrites)⟩

theorem Holds.layered_contents (h : tree.Holds) (server : Snapshot) : (tree.contents server).Layered := by
  show server.graftAll _ = (overlay tree.visibleWrites).apply server
  rw [h.layered, Overlay.apply_ofWrites]

theorem Holds.hides_iff (h : tree.Holds) :
    (tree.contents server).Hides q ↔ ∃ x ∈ visibleChanges tree.allWrites, x.1 <+: q := by
  show (overlay tree.visibleWrites).rootMost q ≠ none ↔ _
  rw [h.layered, Overlay.ofWrites, Overlay.rootMost_addAll_ne_none_iff]
  simp [Overlay.rootMost_eq_none_iff]

/-- Below its path, a merge writes over what is there. -/
theorem graftAll_changes (h : FCompoundWrite.Valid write) (hne : write.isEmpty = false) (t : Snapshot) :
    t.graftAll (FCompoundWrite.changes write path) =
      t.graft path ((overlay write).apply (t.subtree path)) := by
  have hmap : FCompoundWrite.changes write path =
      (FCompoundWrite.changes write []).map fun w => (path ++ w.1, w.2) := by
    simp [FCompoundWrite.changes]
  rw [hmap, graftAll_map_append t path (changes_ne_nil h.toPlaced hne []), apply_overlay h]

theorem turns_addOverwrite (h : tree.Holds) (h' : tree'.Holds) (hnode : node.WellFormed)
    (hne : node.isEmpty = false) (hadd : addOverwriteAtPath tree path node writeId true = .ok tree') :
    (FOperation.overwrite true path node).Turns (tree.contents server) (tree'.contents server) := by
  obtain ⟨-, rfl⟩ := addOverwriteAtPath_eq_ok.mp hadd
  have hchanges : visibleChanges (tree.allWrites ++ [⟨path, .overwrite node, writeId, true⟩]) =
      visibleChanges tree.allWrites ++ [(path, node.data)] := by
    rw [visibleChanges_append]
    rfl
  refine ⟨rfl, ?_, fun _ => ?_, fun q hq hhides => ?_⟩
  · show server.graftAll (visibleChanges (tree.allWrites ++ _)) = _
    rw [hchanges, graftAll_append]
    rfl
  · rw [Ne, hnode.data_eq_empty_iff]
    simpa using hne
  · obtain ⟨x, hx, hxq⟩ := h'.hides_iff.mp hhides
    rw [show (visibleChanges (FWriteTree.mk _ _ _).allWrites) = _ from hchanges, List.mem_append] at hx
    rcases hx with hx | hx
    · exact h.hides_iff.mpr ⟨x, hx, hxq⟩
    · rw [List.mem_singleton.mp hx] at hxq
      exact absurd hxq hq

theorem turns_addMerge (h : tree.Holds) (h' : tree'.Holds) (hwrite : write.Proper)
    (hadd : addMergeAtPath tree path write writeId = .ok tree') :
    (FOperation.merge true path write).Turns (tree.contents server) (tree'.contents server) := by
  obtain ⟨-, rfl⟩ := addMergeAtPath_eq_ok.mp hadd
  have hchanges : visibleChanges (tree.allWrites ++ [⟨path, .merge write, writeId, true⟩]) =
      visibleChanges tree.allWrites ++ FCompoundWrite.changes write path := by
    rw [visibleChanges_append]
    simp [visibleChanges, changesOf, FWriteRecord.changes]
  refine ⟨rfl, ?_, hwrite, fun q hq hhides => ?_⟩
  · show server.graftAll (visibleChanges (tree.allWrites ++ _)) = _
    rw [hchanges, graftAll_append, graftAll_changes hwrite.valid hwrite.some]
    rfl
  · obtain ⟨x, hx, hxq⟩ := h'.hides_iff.mp hhides
    rw [show (visibleChanges (FWriteTree.mk _ _ _).allWrites) = _ from hchanges, List.mem_append] at hx
    rcases hx with hx | hx
    · exact h.hides_iff.mpr ⟨x, hx, hxq⟩
    · obtain ⟨y, hy, rfl⟩ := List.mem_map.mp hx
      exact absurd hxq (hq y hy)

/-! ### Answers -/

/-- Every write writes something. -/
def Filled (tree : FWriteTree) : Prop := ∀ r ∈ tree.allWrites, r.changes ≠ []

end FWriteTree

namespace FSyncTree

open FWriteTree FImmutableTree

variable {record : FWriteRecord} {server : Snapshot}

/-- The affected paths of a record are those it writes. -/
theorem affectedTree_spec (h : record.Valid) :
    (affectedTree record.change).WellFormed (fun _ => True) ∧
      (∀ x ∈ (affectedTree record.change).forEach, PlainPath x.1) ∧
      ∀ p, (p ∈ (affectedTree record.change).forEach.map fun x => record.path ++ x.1) ↔
        p ∈ record.changes.map Prod.fst := by
  obtain ⟨-, hchange⟩ := h
  unfold FWriteRecord.changes
  cases hc : record.change with
  | overwrite node =>
      have hself : affectedTree (.overwrite node) = ofValue true := rfl
      rw [hself, forEach_ofValue]
      exact ⟨wellFormed_ofValue trivial, by simp, by simp⟩
  | merge write =>
      rw [hc] at hchange
      obtain ⟨hvalid, -⟩ := hchange
      have hempty : ∀ y ∈ write.forEach, ∀ x ∈ (empty : FImmutableTree Bool).toTree.leaves,
          Incomparable y.1 x.1 := fun y _ x hx => by
        rw [toTree_empty, leaves_empty] at hx
        cases hx
      obtain ⟨hwf, hmem⟩ := foldl_setValue_spec (v := true) (P := fun _ => True) wellFormed_empty trivial
        hvalid.wf.forEach_incomparable hempty
      have hforEach : ∀ x, x ∈ (affectedTree (.merge write)).forEach ↔
          ∃ y ∈ write.forEach, x = (y.1, true) := fun x =>
        (hwf.mem_toTree.symm.trans (hmem x)).trans (by simp)
      refine ⟨hwf, fun x hx => ?_, fun p => ?_⟩
      · obtain ⟨y, hy, rfl⟩ := (hforEach x).mp hx
        exact hvalid.plain _ (hvalid.wf.mem_toTree.mpr hy)
      · simp only [List.mem_map, FCompoundWrite.changes, exists_exists_and_eq_and]
        constructor
        · rintro ⟨x, hx, rfl⟩
          obtain ⟨y, hy, rfl⟩ := (hforEach x).mp hx
          exact ⟨y, hy, rfl⟩
        · rintro ⟨y, hy, rfl⟩
          exact ⟨(y.1, true), (hforEach _).mpr ⟨y, hy, rfl⟩, rfl⟩

theorem isEmpty_affectedTree (h : record.Valid) (hfilled : record.changes ≠ []) :
    (affectedTree record.change).isEmpty = false := by
  obtain ⟨-, -, hmem⟩ := affectedTree_spec h
  obtain ⟨x, hx⟩ := List.exists_mem_of_ne_nil _ hfilled
  by_contra hempty
  rw [Bool.not_eq_false, FImmutableTree.isEmpty_iff] at hempty
  have := (hmem x.1).mpr (List.mem_map_of_mem hx)
  rw [hempty] at this
  cases this

/-- What an answered write did was all at its places. -/
theorem agreeOutside_affectedTree (h : record.Valid) (server : Snapshot) :
    AgreeOutside ((affectedTree record.change).forEach.map fun x => record.path ++ x.1)
      (server.graftAll record.changes) server := by
  refine (agreeOutside_graftAll server (FWriteRecord.changes_incomparable h)).mono fun p hp => ?_
  exact ⟨p, ((affectedTree_spec h).2.2 p).mpr hp, List.prefix_refl p⟩

/-- A write that is taken away without a trace. -/
theorem keeps_of_overlay {tree tree' : FWriteTree} (h : tree.Holds) (h' : tree'.Holds)
    (hsame : overlay tree'.visibleWrites = overlay tree.visibleWrites) :
    (tree.contents server).Keeps (tree'.contents server) :=
  FOperation.keeps_of_layered (h.layered_contents server) (h'.layered_contents server) hsame rfl

/-- A write with a change does not leave its path empty. -/
theorem subtree_graftAll_changes_ne_empty (h : record.Valid) (hfilled : record.changes ≠ [])
    (t : Snapshot) : (t.graftAll record.changes).subtree record.path ≠ ∅ := by
  obtain ⟨x, hx⟩ := List.exists_mem_of_ne_nil _ hfilled
  have hdata : x.2 ≠ ∅ := by
    obtain ⟨-, hchange⟩ := h
    unfold FWriteRecord.changes at hx
    cases hc : record.change with
    | overwrite node =>
        rw [hc] at hchange hx
        obtain rfl := List.mem_singleton.mp hx
        rw [Ne, hchange.1.data_eq_empty_iff, hchange.2]
        simp
    | merge write =>
        rw [hc] at hchange hx
        obtain ⟨y, hy, rfl⟩ := List.mem_map.mp hx
        have hwf := hchange.1.wellFormed (hchange.1.wf.mem_toTree.mpr hy)
        rw [Ne, hwf.data_eq_empty_iff, hchange.2 y hy]
        simp
  obtain ⟨r, hr⟩ := FWriteRecord.prefix_of_mem_changes hx
  intro hempty
  have hsub : (t.graftAll record.changes).subtree x.1 = ∅ := by
    rw [← hr, ← subtree_subtree, hempty, subtree_empty]
  -- but the change stands there
  refine hdata ?_
  ext y
  refine ⟨fun hy => ?_, fun hy => ?_⟩
  · rw [← hsub, mem_subtree, mem_graftAll (FWriteRecord.changes_incomparable h)]
    exact Or.inr ⟨x, hx, y.1, hy, rfl⟩
  · rw [leaves_empty] at hy
    cases hy

/-- **The oldest write is answered.** Either it has left no trace, or its operation turns
the contents. When it is acknowledged, the server has something where it wrote. -/
theorem removeWrite_cases {tree tree' : FWriteTree} {writeId : Int} {raised revert : Bool}
    (h : tree.Holds) (h' : tree'.Holds) (hfilled : tree.Filled)
    (holdest : (tree.allWrites.head?.map FWriteRecord.writeId) = some writeId)
    (hserver : revert = false → ∀ w, tree.writeForId writeId = some w → ∀ x ∈ w.changes, x.1 ≠ [] →
      server.subtree x.1 ≠ ∅)
    (hrun : tree.removeWriteId writeId = .ok (tree', raised)) :
    ∃ w, tree.writeForId writeId = some w ∧ w.Valid ∧
      ((raised = false ∧ (tree.contents server).Keeps (tree'.contents server)) ∨
        (raised = true ∧ (FOperation.ackUserWrite w.path (affectedTree w.change) revert).Turns
          (tree.contents server) (tree'.contents server))) := by
  obtain ⟨as, w, bs, hall, hid, hcase⟩ := removeWriteId_cases hrun
  have hnil : as = [] := by
    cases as with
    | nil => rfl
    | cons a as =>
        have hhead : a.writeId = writeId := by simpa [hall] using holdest
        have hlt := h.ids
        rw [hall, List.cons_append, List.pairwise_cons] at hlt
        have := hlt.1 w (by simp)
        omega
  subst hnil
  rw [List.nil_append] at hall
  have hfound : tree.writeForId writeId = some w := by
    rw [writeForId, hall, List.find?_cons_of_pos (by simpa using hid)]
  have hvalid : w.Valid := h.records w (by simp [hall])
  refine ⟨w, hfound, hvalid, ?_⟩
  have hwrites : raised = true → tree'.allWrites = bs ∧ w.visible = true := fun hraised => by
    rcases hcase with ⟨hnot, -⟩ | ⟨-, rfl, hvis, -⟩ | ⟨-, rfl, hvis, -⟩
    · rw [hraised] at hnot
      cases hnot
    · exact ⟨rfl, hvis⟩
    · exact ⟨rfl, hvis⟩
  cases raised with
  | false =>
      rcases hcase with ⟨-, rfl, -⟩ | ⟨hraised, -⟩ | ⟨hraised, -⟩
      · exact Or.inl ⟨rfl, keeps_of_overlay h h' rfl⟩
      · cases hraised
      · cases hraised
  | true =>
      obtain ⟨hrest, hvis⟩ := hwrites rfl
      refine Or.inr ⟨rfl, ?_⟩
      have hfilledW : w.changes ≠ [] := hfilled w (by simp [hall])
      have hchanges : visibleChanges tree.allWrites = w.changes ++ visibleChanges tree'.allWrites := by
        rw [hall, visibleChanges_cons_of_visible hvis, hrest]
      have hhides : ∀ q, (tree'.contents server).Hides q → (tree.contents server).Hides q := fun q hq => by
        obtain ⟨x, hx, hxq⟩ := h'.hides_iff.mp hq
        exact h.hides_iff.mpr ⟨x, hchanges ▸ List.mem_append_right _ hx, hxq⟩
      have hbase : (tree.contents server).shown =
          (tree'.contents server).writes.apply (server.graftAll w.changes) := by
        show server.graftAll (visibleChanges tree.allWrites) = (overlay tree'.visibleWrites).apply _
        rw [hchanges, graftAll_append, h'.layered, Overlay.apply_ofWrites]
      cases revert with
      | true =>
          exact ⟨h'.layered_contents server, rfl, hhides, _, hbase,
            FViewProcessor.agreeBeside_of_affected (agreeOutside_affectedTree hvalid server),
            fun _ => subtree_graftAll_changes_ne_empty hvalid hfilledW server⟩
      | false =>
          refine ⟨h'.layered_contents server, rfl, hhides, fun _ => isEmpty_affectedTree hvalid hfilledW,
            fun x hx hne => ?_, _, hbase, agreeOutside_affectedTree hvalid server⟩
          have hmem := ((affectedTree_spec hvalid).2.2 _).mp (List.mem_map_of_mem hx)
          obtain ⟨y, hy, hyx⟩ := List.mem_map.mp hmem
          rw [← hyx] at hne ⊢
          exact hserver rfl w hfound y hy hne

theorem turns_removeAllWrites (tree : FWriteTree) :
    (FOperation.ackUserWrite [] (FImmutableTree.empty.setValue true []) true).Turns
      (tree.contents server) (tree.removeAllWrites.contents server) := by
  refine ⟨rfl, rfl, fun q hq => absurd ?_ hq, (tree.contents server).shown, rfl, AgreeBeside.nil _ _,
    fun hne => absurd rfl hne⟩
  rfl

/-! ### Functions that apply operations -/

/-- Every view shows what is true at its place: the pending writes, which are answered in
order, on top of what the server has. -/
structure Shows (tree : FSyncTree) (server : Snapshot) : Prop where
  writes : tree.pendingWriteTree.Holds
  plainly : tree.pendingWriteTree.Plainly
  filled : tree.pendingWriteTree.Filled
  keyed : tree.syncPointTree.Keyed Plain
  views : ∀ x ∈ tree.syncPointTree.forEach,
    x.2.viewCache.Shows ((tree.pendingWriteTree.contents server).below x.1)
  paths : ∀ x ∈ tree.syncPointTree.forEach, x.2.path = x.1

/-- A function of the tree goes through. All views go on, and show what is true then. -/
def Goes (precise : Prop) (tree : FSyncTree) (server' : Snapshot)
    (run : Except String (FSyncTree × List FDataEvent)) : Prop :=
  ∃ tree' events, run = .ok (tree', events) ∧ tree'.Shows server' ∧ tree'.listens = tree.listens ∧
    Traversed precise (tree'.pendingWriteTree.contents server') tree.syncPointTree.forEach
      tree'.syncPointTree.forEach events

variable {tree : FSyncTree} {server' : Snapshot} {c : Contents} {operation : FOperation}

theorem Traversed.shows {precise : Prop} {c' : Contents} {views views' : List (Path × FView)}
    {events : List FDataEvent} (h : Traversed precise c' views views' events) :
    ∀ x ∈ views', x.2.viewCache.Shows (c'.below x.1) := by
  obtain ⟨steps, -, rfl, -, hturned⟩ := h
  intro x hx
  obtain ⟨s, hs, rfl⟩ := List.mem_map.mp hx
  exact (hturned s hs).shows

theorem Traversed.paths {precise : Prop} {c' : Contents} {views views' : List (Path × FView)}
    {events : List FDataEvent} (h : Traversed precise c' views views' events)
    (hpaths : ∀ x ∈ views, x.2.path = x.1) : ∀ x ∈ views', x.2.path = x.1 := by
  obtain ⟨steps, rfl, rfl, -, hturned⟩ := h
  intro x hx
  obtain ⟨s, hs, rfl⟩ := List.mem_map.mp hx
  exact (hturned s hs).updated.path.trans (hpaths _ (List.mem_map_of_mem hs))

theorem Goes.mono {precise precise' : Prop} {run : Except String (FSyncTree × List FDataEvent)}
    (h : Goes precise tree server' run) (himp : precise' → precise) : Goes precise' tree server' run := by
  obtain ⟨tree', events, hrun, hshows, hlistens, htraversed⟩ := h
  exact ⟨tree', events, hrun, hshows, hlistens, htraversed.mono himp⟩

/-- An operation that turns what the views show into the contents of the tree. -/
theorem goes_applyOperation (tree : FSyncTree) (server' : Snapshot) (operation : FOperation)
    (hwrites : tree.pendingWriteTree.Holds)
    (hplainly : tree.pendingWriteTree.Plainly) (hfilled : tree.pendingWriteTree.Filled)
    (hkeyed : tree.syncPointTree.Keyed Plain)
    (hviews : ∀ x ∈ tree.syncPointTree.forEach, x.2.viewCache.Shows (c.below x.1))
    (hpaths : ∀ x ∈ tree.syncPointTree.forEach, x.2.path = x.1) (hop : operation.WellFormed)
    (hturns : operation.Turns c (tree.pendingWriteTree.contents server'))
    (hheard : Heard operation tree.syncPointTree.forEach c) :
    Goes (¬ FViewProcessor.IsUserMerge operation) tree server'
      (tree.applyOperationToSyncPoints operation) := by
  have hvalid : (tree.pendingWriteTree.childWritesForPath []).Valid := ⟨hwrites.valid, plainPath_nil⟩
  have hoverlay : (tree.pendingWriteTree.childWritesForPath []).overlay =
      (tree.pendingWriteTree.contents server').writes := Overlay.below_nil _
  have hnone : ∀ n : FNode, none = some n → n.WellFormed := nofun
  obtain ⟨syncPointTree, events, hrun, hkeyed', htraversed⟩ :=
    traversed_applyOperationHelper hkeyed hviews hvalid hoverlay hop rfl hnone hturns hheard
  refine ⟨{ tree with syncPointTree }, events, ?_, ?_, rfl, htraversed⟩
  · simp only [applyOperationToSyncPoints, hrun, bind, Except.bind]
    rfl
  · exact ⟨hwrites, hplainly, hfilled, hkeyed', Traversed.shows htraversed, Traversed.paths htraversed hpaths⟩

/-- Nothing is applied, and the contents are kept. -/
theorem goes_of_keeps {precise : Prop} (tree : FSyncTree) (hwrites : tree.pendingWriteTree.Holds)
    (hplainly : tree.pendingWriteTree.Plainly) (hfilled : tree.pendingWriteTree.Filled)
    (hkeyed : tree.syncPointTree.Keyed Plain)
    (hviews : ∀ x ∈ tree.syncPointTree.forEach, x.2.viewCache.Shows (c.below x.1))
    (hpaths : ∀ x ∈ tree.syncPointTree.forEach, x.2.path = x.1)
    (hkeeps : c.Keeps (tree.pendingWriteTree.contents server')) :
    Goes precise tree server' (.ok (tree, [])) := by
  have hviews' : ∀ x ∈ tree.syncPointTree.forEach,
      x.2.viewCache.Shows ((tree.pendingWriteTree.contents server').below x.1) :=
    fun x hx => (hviews x hx).of_keeps (hkeeps.below x.1)
  exact ⟨tree, [], rfl, ⟨hwrites, hplainly, hfilled, hkeyed, hviews', hpaths⟩, rfl, traversed_refl hviews'⟩

theorem heard_of_ne (hne : ∀ path, operation ≠ .listenComplete path) (views : List (Path × FView)) :
    Heard operation views c := fun path heq => absurd heq (hne path)

variable {path : Path} {node : FNode} {children : FCompoundWrite} {writeId : Int}

theorem Filled.append {writes writes' : FWriteTree} (h : writes.Filled) (record : FWriteRecord)
    (hrecord : record.changes ≠ []) (hall : writes'.allWrites = writes.allWrites ++ [record]) :
    writes'.Filled := by
  intro r hr
  rw [hall, List.mem_append, List.mem_singleton] at hr
  rcases hr with hr | rfl
  · exact h r hr
  · exact hrecord

/-- **The user sets a value.** -/
theorem Shows.applyUserOverwrite (h : tree.Shows server) (hp : PlainPath path) (hnode : node.WellFormed)
    (hne : node.isEmpty = false) (hid : tree.pendingWriteTree.lastWriteId < writeId) :
    Goes True tree server (tree.applyUserOverwrite path node writeId true) := by
  obtain ⟨writes', hadd⟩ : ∃ writes', tree.pendingWriteTree.addOverwriteAtPath path node writeId true =
      .ok writes' := ⟨_, addOverwriteAtPath_eq_ok.mpr ⟨hid, rfl⟩⟩
  have h' : writes'.Holds := h.writes.addOverwrite hp hnode hne hadd
  have hop : FWriteTree.InOrder tree.pendingWriteTree (.addOverwrite path node writeId true) :=
    ⟨⟨hp, hnode, hne⟩, rfl⟩
  have hplainly : writes'.Plainly := h.plainly.step hop hadd
  have hfilled : writes'.Filled := by
    obtain ⟨-, hsame⟩ := addOverwriteAtPath_eq_ok.mp hadd
    exact Filled.append h.filled ⟨path, .overwrite node, writeId, true⟩
      (by simp [FWriteRecord.changes]) (by rw [hsame])
  simp only [FSyncTree.applyUserOverwrite, hadd, bind, Except.bind]
  exact (goes_applyOperation { tree with pendingWriteTree := writes' } server (.overwrite true path node)
    h' hplainly hfilled h.keyed h.views h.paths ⟨hp, hnode⟩ (turns_addOverwrite h.writes h' hnode hne hadd)
    (heard_of_ne (by simp) _)).mono fun _ => by simp [FViewProcessor.IsUserMerge]

/-- **The user merges values.** -/
theorem Shows.applyUserMerge (h : tree.Shows server) (hp : PlainPath path) (hchildren : children.Proper)
    (hshallow : ∀ x ∈ children.forEach, x.1.length ≤ 1)
    (hid : tree.pendingWriteTree.lastWriteId < writeId) :
    Goes False tree server (tree.applyUserMerge path children writeId) := by
  obtain ⟨writes', hadd⟩ : ∃ writes', tree.pendingWriteTree.addMergeAtPath path children writeId =
      .ok writes' := ⟨_, addMergeAtPath_eq_ok.mpr ⟨hid, rfl⟩⟩
  have h' : writes'.Holds := h.writes.addMerge hp hchildren.valid hchildren.nonempty hadd
  have hop : FWriteTree.InOrder tree.pendingWriteTree (.addMerge path children writeId) :=
    ⟨⟨hp, hchildren.valid, hchildren.nonempty⟩, hshallow⟩
  have hplainly : writes'.Plainly := h.plainly.step hop hadd
  have hfilled : writes'.Filled := by
    obtain ⟨-, hsame⟩ := addMergeAtPath_eq_ok.mp hadd
    exact Filled.append h.filled ⟨path, .merge children, writeId, true⟩
      (changes_ne_nil hchildren.valid.toPlaced hchildren.some path) (by rw [hsame])
  simp only [FSyncTree.applyUserMerge, hadd, bind, Except.bind]
  exact (goes_applyOperation { tree with pendingWriteTree := writes' } server (.merge true path children)
    h' hplainly hfilled h.keyed h.views h.paths ⟨hp, hchildren.valid.toPlaced⟩
    (turns_addMerge h.writes h' hchildren hadd) (heard_of_ne (by simp) _)).mono False.elim

theorem exists_removeWriteId {writes : FWriteTree} {w : FWriteRecord}
    (hw : writes.writeForId writeId = some w) : ∃ r, writes.removeWriteId writeId = .ok r := by
  have hlt : writes.allWrites.findIdx (fun record => record.writeId = writeId) < writes.allWrites.length :=
    List.findIdx_lt_length_of_exists ⟨w, List.mem_of_find?_eq_some hw, by simpa using List.find?_some hw⟩
  unfold FWriteTree.removeWriteId
  dsimp only
  rw [List.getElem?_eq_getElem hlt]
  dsimp only
  split <;> exact ⟨_, rfl⟩

/-- **The server answers the oldest write.** When it acknowledges the write, it has
something where that wrote. -/
theorem Shows.ackUserWrite (h : tree.Shows server) {revert : Bool}
    (holdest : (tree.pendingWriteTree.allWrites.head?.map FWriteRecord.writeId) = some writeId)
    (hserver : revert = false → ∀ w, tree.pendingWriteTree.writeForId writeId = some w →
      ∀ x ∈ w.changes, x.1 ≠ [] → server.subtree x.1 ≠ ∅) :
    Goes True tree server (tree.ackUserWrite writeId revert) := by
  have hop : FWriteTree.InOrder tree.pendingWriteTree (.remove writeId) := holdest
  obtain ⟨w₀, hw₀⟩ : ∃ w, tree.pendingWriteTree.writeForId writeId = some w := by
    obtain ⟨w, hw, hid⟩ := Option.map_eq_some_iff.mp holdest
    refine Option.isSome_iff_exists.mp ?_
    rw [writeForId, List.find?_isSome]
    exact ⟨w, List.mem_of_mem_head? hw, by simpa using hid⟩
  obtain ⟨⟨writes', raised⟩, hremove⟩ := exists_removeWriteId hw₀
  have hstep : FWriteTree.step tree.pendingWriteTree (.remove writeId) = .ok writes' := by
    rw [FWriteTree.step, hremove]
    rfl
  have h' : writes'.Holds := h.writes.step (allowed_of_inOrder h.writes h.plainly hop) hstep
  have hplainly : writes'.Plainly := h.plainly.step hop hstep
  have hfilled : writes'.Filled := by
    obtain ⟨as, w, bs, hall, -, hcase⟩ := removeWriteId_cases hremove
    have hrest : writes'.allWrites = as ++ bs := by
      rcases hcase with ⟨-, rfl, -⟩ | ⟨-, rfl, -⟩ | ⟨-, rfl, -⟩ <;> rfl
    intro r hr
    rw [hrest] at hr
    refine h.filled r ?_
    rw [hall, List.mem_append, List.mem_cons]
    exact (List.mem_append.mp hr).imp_right Or.inr
  obtain ⟨w, hw, hvalid, hcase⟩ := removeWrite_cases h.writes h' h.filled holdest hserver hremove
  simp only [FSyncTree.ackUserWrite, hremove, hw, bind, Except.bind]
  rcases hcase with ⟨rfl, hkeeps⟩ | ⟨rfl, hturns⟩
  · exact goes_of_keeps { tree with pendingWriteTree := writes' } h' hplainly hfilled h.keyed h.views
      h.paths hkeeps
  · obtain ⟨hwf, hplain, -⟩ := affectedTree_spec hvalid
    exact (goes_applyOperation { tree with pendingWriteTree := writes' } server
      (.ackUserWrite w.path (affectedTree w.change) revert) h' hplainly hfilled h.keyed h.views h.paths
      ⟨hvalid.1, hwf, hplain⟩ hturns (heard_of_ne (by simp) _)).mono fun _ => by
        simp [FViewProcessor.IsUserMerge]

/-- **All pending writes are dropped.** -/
theorem Shows.removeAllWrites (h : tree.Shows server) : Goes True tree server tree.removeAllWrites := by
  have hstep : FWriteTree.step tree.pendingWriteTree .removeAll =
      .ok tree.pendingWriteTree.removeAllWrites := rfl
  have hop : FWriteTree.InOrder tree.pendingWriteTree .removeAll := trivial
  have h' : tree.pendingWriteTree.removeAllWrites.Holds :=
    h.writes.step (allowed_of_inOrder h.writes h.plainly hop) hstep
  have hplainly : tree.pendingWriteTree.removeAllWrites.Plainly := h.plainly.step hop hstep
  have hfilled : tree.pendingWriteTree.removeAllWrites.Filled := by simp [Filled, FWriteTree.removeAllWrites]
  unfold FSyncTree.removeAllWrites
  dsimp only
  split
  · next hempty =>
    refine goes_of_keeps { tree with pendingWriteTree := tree.pendingWriteTree.removeAllWrites }
      h' hplainly hfilled h.keyed h.views h.paths (keeps_of_overlay h.writes h' ?_)
    rw [h'.layered, h.writes.layered, List.isEmpty_iff.mp hempty]
    rfl
  · have hop : (FOperation.ackUserWrite [] (ofValue true) true).WellFormed := by
      refine ⟨plainPath_nil, wellFormed_ofValue trivial, ?_⟩
      rw [forEach_ofValue]
      simp
    exact (goes_applyOperation { tree with pendingWriteTree := tree.pendingWriteTree.removeAllWrites }
      server (.ackUserWrite [] (ofValue true) true) h' hplainly hfilled h.keyed h.views h.paths hop
      (turns_removeAllWrites tree.pendingWriteTree) (heard_of_ne (by simp) _)).mono fun _ => by
        simp [FViewProcessor.IsUserMerge]

/-- **The server sends a value.** -/
theorem Shows.applyServerOverwrite (h : tree.Shows server) (hp : PlainPath path) (hnode : node.WellFormed)
    (hclear : node.data ≠ ∅ ∨ server.ClearAbove path) :
    Goes True tree (server.graft path node.data) (tree.applyServerOverwrite path node) :=
  (goes_applyOperation tree (server.graft path node.data) (.overwrite false path node)
    h.writes h.plainly h.filled h.keyed h.views h.paths ⟨hp, hnode⟩
    ⟨h.writes.layered_contents server, h.writes.layered_contents _, rfl, rfl, hclear⟩
    (heard_of_ne (by simp) _)).mono fun _ => by simp [FViewProcessor.IsUserMerge]

/-- **The server sends a merge.** -/
theorem Shows.applyServerMerge (h : tree.Shows server) (hp : PlainPath path) (hchildren : children.Proper)
    (hvalue : children.value = none) :
    Goes True tree (server.graft path ((overlay children).apply (server.subtree path)))
      (tree.applyServerMerge path children) :=
  (goes_applyOperation tree (server.graft path ((overlay children).apply (server.subtree path)))
    (.merge false path children)
    h.writes h.plainly h.filled h.keyed h.views h.paths ⟨hp, hchildren.valid.toPlaced⟩
    ⟨h.writes.layered_contents server, h.writes.layered_contents _, rfl, rfl, hchildren, hvalue⟩
    (heard_of_ne (by simp) _)).mono fun _ => by simp [FViewProcessor.IsUserMerge]

/-- **A listen is complete**, and the views there and below have been sent all there is. -/
theorem Shows.applyListenComplete (h : tree.Shows server) (hp : PlainPath path)
    (hclear : server.ClearAbove path)
    (hheard : ∀ x ∈ tree.syncPointTree.forEach, path <+: x.1 →
      x.2.viewCache.cachedServerSnap.node.data = server.subtree x.1) :
    Goes True tree server (tree.applyListenComplete path) :=
  (goes_applyOperation tree server (.listenComplete path)
    h.writes h.plainly h.filled h.keyed h.views h.paths hp
    ⟨rfl, h.writes.layered_contents server, hclear⟩ (fun path' heq => by cases heq; exact hheard)).mono
    fun _ => by simp [FViewProcessor.IsUserMerge]

end FSyncTree

end MyChat
