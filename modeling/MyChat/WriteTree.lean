import MyChat.CompoundWrite
import MyChat.Lib.Transition

/-!
# MyChat.WriteTree

`FWriteTree`: the client's writes that the server has not acknowledged, and what an
observer sees while they are on their way. `allWrites` lists them in the order issued;
`visibleWrites` is all the visible ones layered into one compound write, kept up to
date as writes come and go.

Adding layers one more write. Removing is where the work is: a write that a later one
covers leaves no trace, a write that overlaps with others has `visibleWrites` built
again from the list, and only a write that meets no other is taken back in place.
`Holds` says that `visibleWrites` is the layering of the visible writes in the list. A
removal keeps it if it is `Safe`: every write it is entangled with is one the code
looks for.
-/

namespace MyChat

open PathTree FCompoundWrite

/-- What a write puts: one node, or several below its path. -/
inductive FWriteChange
  | overwrite (node : FNode)
  | merge (write : FCompoundWrite)

/-- `FWriteRecord`. -/
structure FWriteRecord where
  path : Path
  change : FWriteChange
  writeId : Int
  visible : Bool

/-- `FWriteTree`. -/
structure FWriteTree where
  visibleWrites : FCompoundWrite
  allWrites : List FWriteRecord
  lastWriteId : Int

/-- `record:containsPath:`. -/
def FWriteRecord.containsPath (record : FWriteRecord) (path : Path) : Bool :=
  match record.change with
  | .overwrite _ => record.path.isPrefixOf path
  | .merge write => write.forEach.any fun x => (record.path ++ x.1).isPrefixOf path

namespace FWriteTree

/-- `init`. -/
def init : FWriteTree := ⟨emptyWrite, [], -1⟩

/-- `addOverwriteAtPath:newData:writeId:isVisible:`. -/
def addOverwriteAtPath (tree : FWriteTree) (path : Path) (newData : FNode) (writeId : Int)
    (visible : Bool) : Except String FWriteTree :=
  if writeId > tree.lastWriteId then
    .ok {
      visibleWrites := if visible then addWrite tree.visibleWrites newData path else tree.visibleWrites
      allWrites := tree.allWrites ++ [⟨path, .overwrite newData, writeId, visible⟩]
      lastWriteId := writeId }
  else .error "Stacking an older write on top of a newer one"

/-- `addMergeAtPath:changedChildren:writeId:`. -/
def addMergeAtPath (tree : FWriteTree) (path : Path) (changedChildren : FCompoundWrite)
    (writeId : Int) : Except String FWriteTree :=
  if writeId > tree.lastWriteId then
    .ok {
      visibleWrites := addCompoundWrite tree.visibleWrites changedChildren path
      allWrites := tree.allWrites ++ [⟨path, .merge changedChildren, writeId, true⟩]
      lastWriteId := writeId }
  else .error "Stacking an older merge on top of newer one"

/-- One round of `layerTreeFromWrites:filter:treeRoot:`. -/
def layerRecord (treeRoot : Path) (compoundWrite : FCompoundWrite) (record : FWriteRecord) :
    FCompoundWrite :=
  if treeRoot.isPrefixOf record.path then
    let relativePath := record.path.drop treeRoot.length
    match record.change with
    | .overwrite node => addWrite compoundWrite node relativePath
    | .merge write => addCompoundWrite compoundWrite write relativePath
  else if record.path.isPrefixOf treeRoot then
    let relativePath := treeRoot.drop record.path.length
    match record.change with
    | .overwrite node => addWrite compoundWrite (node.getChild relativePath) []
    | .merge write =>
        match completeNodeAtPath write relativePath with
        | some child => addWrite compoundWrite (child.getChild (relativePath.drop 1)) []
        | none => compoundWrite
  else compoundWrite

/-- `layerTreeFromWrites:filter:treeRoot:`. -/
def layerTreeFromWrites (writes : List FWriteRecord) (filter : FWriteRecord → Bool)
    (treeRoot : Path) : FCompoundWrite :=
  (writes.filter filter).foldl (layerRecord treeRoot) emptyWrite

/-- `defaultFilter`: it keeps hidden writes as well. -/
def defaultFilter (_record : FWriteRecord) : Bool := true

/-- `resetTree`. -/
def resetTree (tree : FWriteTree) : FWriteTree :=
  { tree with
    visibleWrites := layerTreeFromWrites tree.allWrites defaultFilter []
    lastWriteId := match tree.allWrites.getLast? with
      | some lastRecord => lastRecord.writeId
      | none => -1 }

/-- The loop of `removeWriteId:` over the remaining writes, the last one first, each with
its index: `none` if a later write covers the removed one, otherwise whether some write
overlaps with it. -/
def scan (writeToRemove : FWriteRecord) (index : Nat) : List (FWriteRecord × Nat) → Bool → Option Bool
  | [], overlaps => some overlaps
  | (currentWrite, i) :: rest, overlaps =>
      if currentWrite.visible then
        if index ≤ i ∧ currentWrite.containsPath writeToRemove.path then none
        else if writeToRemove.path.isPrefixOf currentWrite.path then
          scan writeToRemove index rest true
        else scan writeToRemove index rest overlaps
      else scan writeToRemove index rest overlaps

/-- What `removeWriteId:` does to `visibleWrites` when there is no shadowing. -/
def takeBack (visibleWrites : FCompoundWrite) (writeToRemove : FWriteRecord) : FCompoundWrite :=
  match writeToRemove.change with
  | .overwrite _ => removeWriteAtPath visibleWrites writeToRemove.path
  | .merge write =>
      write.forEach.foldl (fun visibleWrites x =>
        removeWriteAtPath visibleWrites (writeToRemove.path ++ x.1)) visibleWrites

/-- `removeWriteId:`: the tree, and whether the write may have been visible. -/
def removeWriteId (tree : FWriteTree) (writeId : Int) : Except String (FWriteTree × Bool) :=
  let index := tree.allWrites.findIdx fun record => record.writeId = writeId
  match tree.allWrites[index]? with
  | none => .error "[FWriteTree removeWriteId:] called with nonexistent writeId."
  | some writeToRemove =>
      let tree := { tree with allWrites := tree.allWrites.eraseIdx index }
      let found := if writeToRemove.visible then
        scan writeToRemove index tree.allWrites.zipIdx.reverse false else none
      match found with
      | none => .ok (tree, false)
      | some true => .ok (tree.resetTree, true)
      | some false =>
          .ok ({ tree with visibleWrites := takeBack tree.visibleWrites writeToRemove }, true)

/-- `removeAllWrites`. -/
def removeAllWrites (tree : FWriteTree) : FWriteTree :=
  { tree with visibleWrites := emptyWrite, allWrites := [] }

/-- `calculateCompleteEventCacheAtPath:completeServerCache:excludeWriteIds:includeHiddenWrites:`. -/
def calculateCompleteEventCacheAtPath (tree : FWriteTree) (treePath : Path)
    (completeServerCache : Option FNode) (writeIdsToExclude : Option (List Int))
    (includeHiddenWrites : Bool) : Option FNode :=
  if writeIdsToExclude = none ∧ includeHiddenWrites = false then
    match completeNodeAtPath tree.visibleWrites treePath with
    | some shadowingNode => some shadowingNode
    | none =>
        let subMerge := childCompoundWriteAtPath tree.visibleWrites treePath
        if subMerge.isEmpty then completeServerCache
        else if completeServerCache.isNone ∧ hasCompleteWriteAtPath subMerge [] = false then none
        else some (applyToNode subMerge (completeServerCache.getD FNode.emptyNode))
  else
    let merge := childCompoundWriteAtPath tree.visibleWrites treePath
    if includeHiddenWrites = false ∧ merge.isEmpty then completeServerCache
    else if includeHiddenWrites = false ∧ completeServerCache.isNone ∧
        hasCompleteWriteAtPath merge [] = false then none
    else
      let filter := fun record : FWriteRecord =>
        (record.visible || includeHiddenWrites) &&
        (match writeIdsToExclude with
          | none => true
          | some ids => ¬ ids.contains record.writeId) &&
        (record.path.isPrefixOf treePath || treePath.isPrefixOf record.path)
      let mergeAtPath := layerTreeFromWrites tree.allWrites filter treePath
      some (applyToNode mergeAtPath (completeServerCache.getD FNode.emptyNode))

/-- `calculateEventCacheAfterServerOverwriteAtPath:childPath:existingEventSnap:existingServerSnap:`. -/
def calculateEventCacheAfterServerOverwriteAtPath (tree : FWriteTree) (treePath childPath : Path)
    (existingServerSnap : FNode) : Option FNode :=
  let path := treePath ++ childPath
  if hasCompleteWriteAtPath tree.visibleWrites path then none
  else
    let childMerge := childCompoundWriteAtPath tree.visibleWrites path
    if childMerge.isEmpty then some (existingServerSnap.getChild childPath)
    else some (applyToNode childMerge (existingServerSnap.getChild childPath))

end FWriteTree

/-! ### What the records write -/

namespace FWriteRecord

/-- The changes a record makes, with their full paths. -/
def changes (record : FWriteRecord) : List (Path × Snapshot) :=
  match record.change with
  | .overwrite node => [(record.path, node.data)]
  | .merge write => FCompoundWrite.changes write record.path

/-- What the client checks of a write before it records it: keys are valid, and what is
written is a node. Writes that delete are left out. -/
def Valid (record : FWriteRecord) : Prop :=
  PlainPath record.path ∧
    match record.change with
    | .overwrite node => node.WellFormed ∧ node.isEmpty = false
    | .merge write => FCompoundWrite.Valid write ∧ ∀ x ∈ write.forEach, x.2.isEmpty = false

variable {record : FWriteRecord} {path : Path}

theorem prefix_of_mem_changes {x : Path × Snapshot} (hx : x ∈ record.changes) :
    record.path <+: x.1 := by
  unfold changes at hx
  split at hx
  · rw [List.mem_singleton.mp hx]
  · obtain ⟨y, -, rfl⟩ := List.mem_map.mp hx
    exact List.prefix_append _ _

/-- `containsPath` looks for a change at or above the path. -/
theorem containsPath_iff : record.containsPath path ↔ ∃ x ∈ record.changes, x.1 <+: path := by
  unfold containsPath changes
  cases record.change with
  | overwrite node => simp
  | merge write => simp [FCompoundWrite.changes]

theorem changes_incomparable (h : record.Valid) :
    record.changes.Pairwise fun x y => Incomparable x.1 y.1 := by
  unfold Valid at h
  unfold changes
  cases hc : record.change with
  | overwrite node => exact List.pairwise_singleton _ _
  | merge write =>
      rw [hc] at h
      exact FCompoundWrite.changes_incomparable h.2.1 record.path

end FWriteRecord

/-- The changes of several records, in order. -/
def changesOf (records : List FWriteRecord) : List (Path × Snapshot) :=
  records.flatMap FWriteRecord.changes

/-- The changes of the visible ones. -/
def visibleChanges (records : List FWriteRecord) : List (Path × Snapshot) :=
  changesOf (records.filter (·.visible))

@[simp] theorem visibleChanges_nil : visibleChanges [] = [] := rfl

theorem visibleChanges_append (as bs : List FWriteRecord) :
    visibleChanges (as ++ bs) = visibleChanges as ++ visibleChanges bs := by
  simp [visibleChanges, changesOf]

theorem visibleChanges_cons_of_visible {w : FWriteRecord} (h : w.visible = true)
    (bs : List FWriteRecord) : visibleChanges (w :: bs) = w.changes ++ visibleChanges bs := by
  simp [visibleChanges, changesOf, h]

theorem visibleChanges_cons_of_hidden {w : FWriteRecord} (h : w.visible = false)
    (bs : List FWriteRecord) : visibleChanges (w :: bs) = visibleChanges bs := by
  simp [visibleChanges, h]

theorem visibleChanges_of_all {as : List FWriteRecord} (h : ∀ e ∈ as, e.visible = true) :
    visibleChanges as = changesOf as := by
  rw [visibleChanges, List.filter_eq_self.mpr h]

theorem mem_visibleChanges {as : List FWriteRecord} {x : Path × Snapshot} :
    x ∈ visibleChanges as ↔ ∃ e ∈ as, e.visible = true ∧ x ∈ e.changes := by
  simp only [visibleChanges, changesOf, List.mem_flatMap, List.mem_filter, and_assoc]

/-! ### Layering the records -/

theorem overlay_layerRecord {write : FCompoundWrite} {record : FWriteRecord}
    (h : FCompoundWrite.Valid write) (hrecord : record.Valid) :
    FCompoundWrite.Valid (FWriteTree.layerRecord [] write record) ∧
      overlay (FWriteTree.layerRecord [] write record) = (overlay write).addAll record.changes := by
  obtain ⟨hp, hchange⟩ := hrecord
  unfold FWriteTree.layerRecord FWriteRecord.changes
  cases hc : record.change with
  | overwrite node =>
      rw [hc] at hchange
      exact overlay_addWrite h hchange.1 hchange.2 hp
  | merge merge =>
      rw [hc] at hchange
      exact overlay_addCompoundWrite h hchange.1 hchange.2 hp

theorem overlay_layerRecords {write : FCompoundWrite} {records : List FWriteRecord}
    (h : FCompoundWrite.Valid write) (hrecords : ∀ r ∈ records, r.Valid) :
    FCompoundWrite.Valid (records.foldl (FWriteTree.layerRecord []) write) ∧
      overlay (records.foldl (FWriteTree.layerRecord []) write) =
        (overlay write).addAll (changesOf records) := by
  induction records generalizing write with
  | nil => exact ⟨h, rfl⟩
  | cons r records ih =>
      obtain ⟨hr, hrs⟩ := List.forall_mem_cons.mp hrecords
      obtain ⟨hvalid, hoverlay⟩ := overlay_layerRecord h hr
      obtain ⟨hvalid', hoverlay'⟩ := ih hvalid hrs
      refine ⟨hvalid', ?_⟩
      rw [List.foldl_cons, hoverlay', hoverlay, ← Overlay.addAll_append]
      rfl

/-- `takeBack` takes back what the record wrote. -/
theorem overlay_takeBack {write : FCompoundWrite} (h : FCompoundWrite.Valid write)
    (record : FWriteRecord) :
    FCompoundWrite.Valid (FWriteTree.takeBack write record) ∧
      overlay (FWriteTree.takeBack write record) =
        (overlay write).removeAll (record.changes.map Prod.fst) := by
  unfold FWriteTree.takeBack FWriteRecord.changes
  cases record.change with
  | overwrite node => exact overlay_removeWriteAtPath h record.path
  | merge merge =>
      simp only [FCompoundWrite.changes, List.map_map]
      generalize merge.forEach = xs
      induction xs generalizing write with
      | nil => exact ⟨h, rfl⟩
      | cons x xs ih =>
          obtain ⟨hvalid, hoverlay⟩ := overlay_removeWriteAtPath h (record.path ++ x.1)
          rw [List.map_cons, Overlay.removeAll_cons, Function.comp_apply, ← hoverlay]
          exact ih hvalid

namespace FWriteTree

/-! ### The invariant -/

/-- `visibleWrites` is the layering of the visible writes, which are in the order of
their ids. -/
structure Holds (tree : FWriteTree) : Prop where
  valid : FCompoundWrite.Valid tree.visibleWrites
  records : ∀ r ∈ tree.allWrites, r.Valid
  layered : overlay tree.visibleWrites = Overlay.ofWrites (visibleChanges tree.allWrites)
  ids : tree.allWrites.Pairwise fun r s => r.writeId < s.writeId
  last : ∀ r ∈ tree.allWrites, r.writeId ≤ tree.lastWriteId

theorem holds_init : Holds init :=
  ⟨valid_emptyWrite, by simp [init], rfl, by simp [init], by simp [init]⟩

variable {tree tree' : FWriteTree} {path : Path} {node : FNode} {write : FCompoundWrite}
  {writeId : Int} {visible : Bool}

/-- Recording a write that was layered keeps the invariant. -/
theorem Holds.append (h : tree.Holds) {record : FWriteRecord} {visibleWrites : FCompoundWrite}
    (hrecord : record.Valid) (hvalid : FCompoundWrite.Valid visibleWrites)
    (hoverlay : overlay visibleWrites =
      (overlay tree.visibleWrites).addAll (visibleChanges [record]))
    (hid : tree.lastWriteId < record.writeId) :
    Holds ⟨visibleWrites, tree.allWrites ++ [record], record.writeId⟩ where
  valid := hvalid
  records := by
    intro r hr
    rcases List.mem_append.mp hr with hr | hr
    · exact h.records r hr
    · rwa [List.mem_singleton.mp hr]
  layered := by
    rw [hoverlay, h.layered, visibleChanges_append]
    exact (Overlay.addAll_append _ _ _).symm
  ids := by
    refine List.pairwise_append.mpr ⟨h.ids, List.pairwise_singleton _ _, fun r hr s hs => ?_⟩
    rw [List.mem_singleton.mp hs]
    exact (h.last r hr).trans_lt hid
  last := by
    intro r hr
    rcases List.mem_append.mp hr with hr | hr
    · exact (h.last r hr).trans hid.le
    · rw [List.mem_singleton.mp hr]

theorem addOverwriteAtPath_eq_ok :
    addOverwriteAtPath tree path node writeId visible = .ok tree' ↔
      tree.lastWriteId < writeId ∧ tree' = {
        visibleWrites := if visible then addWrite tree.visibleWrites node path else tree.visibleWrites
        allWrites := tree.allWrites ++ [⟨path, .overwrite node, writeId, visible⟩]
        lastWriteId := writeId } := by
  unfold addOverwriteAtPath
  split
  · next hid => simp [hid, eq_comm]
  · next hid => simp [hid]

theorem addMergeAtPath_eq_ok :
    addMergeAtPath tree path write writeId = .ok tree' ↔
      tree.lastWriteId < writeId ∧ tree' = {
        visibleWrites := addCompoundWrite tree.visibleWrites write path
        allWrites := tree.allWrites ++ [⟨path, .merge write, writeId, true⟩]
        lastWriteId := writeId } := by
  unfold addMergeAtPath
  split
  · next hid => simp [hid, eq_comm]
  · next hid => simp [hid]

theorem Holds.addOverwrite (h : tree.Holds) (hp : PlainPath path) (hnode : node.WellFormed)
    (hne : node.isEmpty = false)
    (hadd : addOverwriteAtPath tree path node writeId visible = .ok tree') : tree'.Holds := by
  obtain ⟨hid, rfl⟩ := addOverwriteAtPath_eq_ok.mp hadd
  obtain ⟨hvalid, hoverlay⟩ := overlay_addWrite h.valid hnode hne hp
  refine h.append ⟨hp, hnode, hne⟩ ?_ ?_ hid
  · cases visible
    · exact h.valid
    · exact hvalid
  · cases visible
    · rfl
    · exact hoverlay

theorem Holds.addMerge (h : tree.Holds) (hp : PlainPath path) (hwrite : FCompoundWrite.Valid write)
    (hne : ∀ x ∈ write.forEach, x.2.isEmpty = false)
    (hadd : addMergeAtPath tree path write writeId = .ok tree') : tree'.Holds := by
  obtain ⟨hid, rfl⟩ := addMergeAtPath_eq_ok.mp hadd
  obtain ⟨hvalid, hoverlay⟩ := overlay_addCompoundWrite h.valid hwrite hne hp
  refine h.append ⟨hp, hwrite, hne⟩ hvalid ?_ hid
  rw [hoverlay]
  simp [visibleChanges, changesOf, FWriteRecord.changes]

/-! ### What a removal does -/

/-- The writes at an index from `as.length` on are those of `bs`. -/
theorem exists_mem_zipIdx {as bs : List FWriteRecord} {P : FWriteRecord → Prop} :
    (∃ x ∈ (as ++ bs).zipIdx, as.length ≤ x.2 ∧ P x.1) ↔ ∃ e ∈ bs, P e := by
  simp only [List.mem_zipIdx_iff_getElem?]
  constructor
  · rintro ⟨x, hx, hle, hP⟩
    rw [List.getElem?_append_right hle] at hx
    exact ⟨x.1, List.mem_of_getElem? hx, hP⟩
  · rintro ⟨e, he, hP⟩
    obtain ⟨i, hi⟩ := List.mem_iff_getElem?.mp he
    refine ⟨(e, as.length + i), ?_, Nat.le_add_right _ _, hP⟩
    rwa [List.getElem?_append_right (Nat.le_add_right _ _), Nat.add_sub_cancel_left]

/-- The loop finds a later write that covers the removed one, or tells whether one
overlaps with it. -/
theorem scan_eq (w : FWriteRecord) (index : Nat) (xs : List (FWriteRecord × Nat)) (overlaps : Bool) :
    (scan w index xs overlaps = none ∧
      ∃ x ∈ xs, index ≤ x.2 ∧ (x.1.visible = true ∧ x.1.containsPath w.path = true)) ∨
    ((∀ x ∈ xs, index ≤ x.2 → ¬ (x.1.visible = true ∧ x.1.containsPath w.path = true)) ∧
      ∃ o, scan w index xs overlaps = some o ∧
        (o = true ↔ overlaps = true ∨ ∃ x ∈ xs, x.1.visible = true ∧ w.path <+: x.1.path)) := by
  induction xs generalizing overlaps with
  | nil => exact Or.inr ⟨by simp, overlaps, rfl, by simp⟩
  | cons x xs ih =>
      obtain ⟨cur, i⟩ := x
      rw [scan]
      by_cases hvis : cur.visible = true
      · rw [if_pos hvis]
        by_cases hshadow : index ≤ i ∧ cur.containsPath w.path = true
        · rw [if_pos hshadow]
          exact Or.inl ⟨rfl, (cur, i), List.mem_cons_self, hshadow.1, hvis, hshadow.2⟩
        · rw [if_neg hshadow]
          have hhead : index ≤ i → ¬ (cur.visible = true ∧ cur.containsPath w.path = true) :=
            fun hi hc => hshadow ⟨hi, hc.2⟩
          have hsplit : ∀ o', (if w.path.isPrefixOf cur.path then scan w index xs true
              else scan w index xs o') =
              scan w index xs (o' || decide (w.path <+: cur.path)) := by
            intro o'
            by_cases hp : w.path <+: cur.path <;> simp [hp, List.isPrefixOf_iff_prefix]
          rw [hsplit]
          rcases ih (overlaps || decide (w.path <+: cur.path)) with ⟨hnone, x, hx, hrest⟩ | ⟨hall, o, ho, hiff⟩
          · exact Or.inl ⟨hnone, x, List.mem_cons_of_mem _ hx, hrest⟩
          · refine Or.inr ⟨List.forall_mem_cons.mpr ⟨hhead, hall⟩, o, ho, ?_⟩
            rw [hiff]
            simp [hvis, or_assoc]
      · rw [if_neg hvis]
        rcases ih overlaps with ⟨hnone, x, hx, hrest⟩ | ⟨hall, o, ho, hiff⟩
        · exact Or.inl ⟨hnone, x, List.mem_cons_of_mem _ hx, hrest⟩
        · refine Or.inr ⟨List.forall_mem_cons.mpr ⟨fun _ hc => hvis hc.1, hall⟩, o, ho, ?_⟩
          rw [hiff]
          simp [hvis]

/-- **Inversion of `removeWriteId:`.** The removed write, what was issued before and
after it, and which of the three ways the code went. -/
theorem removeWriteId_cases {raised : Bool} (h : removeWriteId tree writeId = .ok (tree', raised)) :
    ∃ as w bs, tree.allWrites = as ++ w :: bs ∧ w.writeId = writeId ∧
      ((raised = false ∧ tree' = { tree with allWrites := as ++ bs } ∧
          (w.visible = false ∨ ∃ c ∈ bs, c.visible = true ∧ c.containsPath w.path = true)) ∨
        (raised = true ∧ tree' = resetTree { tree with allWrites := as ++ bs } ∧ w.visible = true ∧
          ∃ e ∈ as ++ bs, e.visible = true ∧ w.path <+: e.path) ∨
        (raised = true ∧ tree' = { tree with
            allWrites := as ++ bs, visibleWrites := takeBack tree.visibleWrites w } ∧
          w.visible = true ∧
          (∀ c ∈ bs, ¬ (c.visible = true ∧ c.containsPath w.path = true)) ∧
          ∀ e ∈ as ++ bs, ¬ (e.visible = true ∧ w.path <+: e.path))) := by
  unfold removeWriteId at h
  dsimp only at h
  generalize hindex : tree.allWrites.findIdx (fun record => record.writeId = writeId) = index at h
  cases hw : tree.allWrites[index]? with
  | none => simp [hw] at h
  | some w =>
      simp only [hw] at h
      obtain ⟨hlt, hget⟩ := List.getElem?_eq_some_iff.mp hw
      have hid : w.writeId = writeId := by
        subst hindex
        have := List.findIdx_getElem (w := hlt)
        rw [hget] at this
        simpa using this
      have hsplit : tree.allWrites = tree.allWrites.take index ++ w :: tree.allWrites.drop (index + 1) := by
        rw [← hget, List.getElem_cons_drop, List.take_append_drop]
      have hlen : (tree.allWrites.take index).length = index := by
        rw [List.length_take]
        omega
      rw [List.eraseIdx_eq_take_drop_succ] at h
      refine ⟨tree.allWrites.take index, w, tree.allWrites.drop (index + 1), hsplit, hid, ?_⟩
      generalize tree.allWrites.take index = as at h hlen ⊢
      generalize tree.allWrites.drop (index + 1) = bs at h ⊢
      subst hlen
      by_cases hvis : w.visible = true
      · rw [if_pos hvis] at h
        rcases scan_eq w as.length (as ++ bs).zipIdx.reverse false with
          ⟨hnone, hshadow⟩ | ⟨hall, o, ho, hiff⟩
        · rw [hnone] at h
          cases h
          simp only [List.mem_reverse] at hshadow
          exact Or.inl ⟨rfl, rfl, Or.inr (exists_mem_zipIdx.mp hshadow)⟩
        · have hnoshadow : ∀ c ∈ bs, ¬ (c.visible = true ∧ c.containsPath w.path = true) := by
            intro c hc hcon
            have hmem : ∃ x ∈ (as ++ bs).zipIdx, as.length ≤ x.2 ∧
                (x.1.visible = true ∧ x.1.containsPath w.path = true) :=
              (exists_mem_zipIdx (P := fun c => c.visible = true ∧ c.containsPath w.path = true)).mpr
                ⟨c, hc, hcon⟩
            obtain ⟨x, hx, hle, hP⟩ := hmem
            exact hall x (List.mem_reverse.mpr hx) hle hP
          have hover : o = true ↔ ∃ e ∈ as ++ bs, e.visible = true ∧ w.path <+: e.path := by
            rw [hiff]
            simp only [Bool.false_eq_true, false_or, List.mem_reverse]
            constructor
            · rintro ⟨x, hx, hP⟩
              exact ⟨x.1, List.fst_mem_of_mem_zipIdx hx, hP⟩
            · rintro ⟨e, he, hP⟩
              obtain ⟨i, hi⟩ := List.mem_iff_getElem?.mp he
              exact ⟨(e, i), List.mem_zipIdx_iff_getElem?.mpr hi, hP⟩
          rw [ho] at h
          cases o with
          | true =>
              cases h
              exact Or.inr (Or.inl ⟨rfl, rfl, hvis, hover.mp rfl⟩)
          | false =>
              cases h
              refine Or.inr (Or.inr ⟨rfl, rfl, hvis, hnoshadow, fun e he hP => ?_⟩)
              cases hover.mpr ⟨e, he, hP⟩
      · rw [if_neg hvis] at h
        cases h
        exact Or.inl ⟨rfl, rfl, Or.inl (by simpa using hvis)⟩

/-! ### Removing is safe -/

/-- Some change of one record is at, above or below a change of the other. -/
def Entangled (e w : FWriteRecord) : Prop :=
  ∃ x ∈ e.changes, ∃ y ∈ w.changes, ¬ Incomparable x.1 y.1

/-- The removal of `w`, issued after `as` and before `bs`, is one the code gets right.
Every visible write it is entangled with is a later one that covers its path or one at
or below its path: these the loop looks for. And no write is hidden if there is one of
the second kind, since then all are layered again. -/
def Safe (as : List FWriteRecord) (w : FWriteRecord) (bs : List FWriteRecord) : Prop :=
  (∀ e ∈ as ++ bs, e.visible = true → Entangled e w →
    (e ∈ bs ∧ e.containsPath w.path = true) ∨ w.path <+: e.path) ∧
  ((∃ e ∈ as ++ bs, e.visible = true ∧ w.path <+: e.path) → ∀ e ∈ as ++ bs, e.visible = true)

theorem lastWriteId_resetTree {tree : FWriteTree}
    (hids : tree.allWrites.Pairwise fun r s => r.writeId < s.writeId) {r : FWriteRecord}
    (hr : r ∈ tree.allWrites) : r.writeId ≤ tree.resetTree.lastWriteId := by
  simp only [resetTree]
  cases hlast : tree.allWrites.getLast? with
  | none => simp [List.getLast?_eq_none_iff.mp hlast] at hr
  | some l =>
      obtain ⟨rs, hrs⟩ := List.getLast?_eq_some_iff.mp hlast
      rw [hrs] at hids hr
      rcases List.mem_append.mp hr with hr | hr
      · exact ((List.pairwise_append.mp hids).2.2 r hr l (by simp)).le
      · rw [List.mem_singleton.mp hr]

/-- **A safe removal leaves the layering of the writes that remain.** -/
theorem Holds.remove {raised : Bool} (h : tree.Holds)
    (hrun : removeWriteId tree writeId = .ok (tree', raised))
    (hsafe : ∀ as w bs, tree.allWrites = as ++ w :: bs → w.writeId = writeId → w.visible = true →
      Safe as w bs) : tree'.Holds := by
  obtain ⟨as, w, bs, hall, hid, hcase⟩ := removeWriteId_cases hrun
  have hrecords : ∀ r ∈ as ++ bs, r.Valid := fun r hr => h.records r (by
    rw [hall, List.mem_append, List.mem_cons]
    exact (List.mem_append.mp hr).imp_right Or.inr)
  have hids : (as ++ bs).Pairwise fun r s => r.writeId < s.writeId := by
    refine h.ids.sublist ?_
    rw [hall]
    exact List.Sublist.append_left (List.sublist_cons_self w bs) as
  have hlast : ∀ r ∈ as ++ bs, r.writeId ≤ tree.lastWriteId := fun r hr => h.last r (by
    rw [hall, List.mem_append, List.mem_cons]
    exact (List.mem_append.mp hr).imp_right Or.inr)
  have hlayered := h.layered
  rw [hall, visibleChanges_append] at hlayered
  rcases hcase with ⟨-, rfl, hcase⟩ | ⟨-, rfl, hvis, hover⟩ | ⟨-, rfl, hvis, hshadow, hover⟩
  · -- hidden or shadowed: the write has left no trace
    refine ⟨h.valid, hrecords, ?_, hids, hlast⟩
    show overlay tree.visibleWrites = Overlay.ofWrites (visibleChanges (as ++ bs))
    rw [hlayered, visibleChanges_append]
    by_cases hw : w.visible = true
    · obtain ⟨c, hc, hcvis, hcontains⟩ := hcase.resolve_left (by simp [hw])
      rw [visibleChanges_cons_of_visible hw, Overlay.ofWrites, Overlay.ofWrites,
        Overlay.addAll_append, Overlay.addAll_append, Overlay.addAll_append]
      refine Overlay.addAll_drop_all_shadowed fun y hy => ?_
      obtain ⟨x, hx, hxw⟩ := FWriteRecord.containsPath_iff.mp hcontains
      exact ⟨x, mem_visibleChanges.mpr ⟨c, hc, hcvis, hx⟩,
        hxw.trans (FWriteRecord.prefix_of_mem_changes hy)⟩
    · rw [visibleChanges_cons_of_hidden (by simpa using hw)]
  · -- overlapping: everything is layered again
    obtain ⟨hvalid, hoverlay⟩ := overlay_layerRecords valid_emptyWrite hrecords
    have hvisible := (hsafe as w bs hall hid hvis).2 hover
    have hfilter : layerTreeFromWrites (as ++ bs) defaultFilter [] =
        (as ++ bs).foldl (layerRecord []) emptyWrite := by
      have hself : (as ++ bs).filter defaultFilter = as ++ bs := List.filter_eq_self.mpr fun _ _ => rfl
      rw [layerTreeFromWrites, hself]
    refine ⟨?_, hrecords, ?_, hids, fun r hr => lastWriteId_resetTree hids hr⟩
    · show FCompoundWrite.Valid (layerTreeFromWrites (as ++ bs) defaultFilter [])
      rw [hfilter]
      exact hvalid
    · show overlay (layerTreeFromWrites (as ++ bs) defaultFilter []) = _
      rw [hfilter, hoverlay]
      show _ = Overlay.ofWrites (visibleChanges (as ++ bs))
      rw [visibleChanges_of_all hvisible]
      rfl
  · -- meeting no other write: taken back in place
    obtain ⟨hvalid, hoverlay⟩ := overlay_takeBack h.valid w
    refine ⟨hvalid, hrecords, ?_, hids, hlast⟩
    show overlay (takeBack tree.visibleWrites w) = Overlay.ofWrites (visibleChanges (as ++ bs))
    have hfree : ∀ e ∈ as ++ bs, e.visible = true → ∀ x ∈ e.changes, ∀ y ∈ w.changes,
        Incomparable y.1 x.1 := by
      intro e he hevis x hx y hy
      by_contra hinc
      have hent : Entangled e w := ⟨x, hx, y, hy, fun h => hinc h.symm⟩
      rcases (hsafe as w bs hall hid hvis).1 e he hevis hent with ⟨hebs, hcontains⟩ | hbelow
      · exact hshadow e hebs ⟨hevis, hcontains⟩
      · exact hover e he ⟨hevis, hbelow⟩
    have hw : w.Valid := h.records w (by rw [hall]; simp)
    rw [hoverlay, hlayered, visibleChanges_append, visibleChanges_cons_of_visible hvis,
      Overlay.ofWrites, Overlay.ofWrites, Overlay.addAll_append, Overlay.addAll_append,
      Overlay.addAll_append]
    refine Overlay.removeAll_addAll (FWriteRecord.changes_incomparable hw) ?_ ?_
    · intro y hy e he
      obtain ⟨x, hx, hxe⟩ := Overlay.exists_write_of_mem he
      obtain ⟨e', he', hvis', hx'⟩ := mem_visibleChanges.mp hx
      rw [← hxe]
      exact hfree e' (List.mem_append_left _ he') hvis' x hx' y hy
    · intro y hy x hx
      obtain ⟨e, he, hevis, hx⟩ := mem_visibleChanges.mp hx
      exact hfree e (List.mem_append_right _ he) hevis x hx y hy

/-! ### Runs -/

/-- What the client does to its write tree. -/
inductive Op
  | addOverwrite (path : Path) (newData : FNode) (writeId : Int) (visible : Bool)
  | addMerge (path : Path) (changedChildren : FCompoundWrite) (writeId : Int)
  | remove (writeId : Int)
  | removeAll

/-- One of these. -/
def step (tree : FWriteTree) : Op → Except String FWriteTree
  | .addOverwrite path newData writeId visible =>
      tree.addOverwriteAtPath path newData writeId visible
  | .addMerge path changedChildren writeId => tree.addMergeAtPath path changedChildren writeId
  | .remove writeId => (tree.removeWriteId writeId).map Prod.fst
  | .removeAll => .ok tree.removeAllWrites

/-- Writes are valid, and removals are safe. -/
def Allowed (tree : FWriteTree) : Op → Prop
  | .addOverwrite path newData _ _ =>
      PlainPath path ∧ newData.WellFormed ∧ newData.isEmpty = false
  | .addMerge path changedChildren _ =>
      PlainPath path ∧ FCompoundWrite.Valid changedChildren ∧
        ∀ x ∈ changedChildren.forEach, x.2.isEmpty = false
  | .remove writeId => ∀ as w bs, tree.allWrites = as ++ w :: bs → w.writeId = writeId →
      w.visible = true → Safe as w bs
  | .removeAll => True

theorem Holds.step {op : Op} (h : tree.Holds) (hop : Allowed tree op)
    (hstep : FWriteTree.step tree op = .ok tree') : tree'.Holds := by
  cases op with
  | addOverwrite path newData writeId visible => exact h.addOverwrite hop.1 hop.2.1 hop.2.2 hstep
  | addMerge path changedChildren writeId => exact h.addMerge hop.1 hop.2.1 hop.2.2 hstep
  | remove writeId =>
      rw [FWriteTree.step] at hstep
      cases hrun : tree.removeWriteId writeId with
      | error e => simp [hrun, Except.map] at hstep
      | ok r =>
          obtain rfl : r.1 = tree' := by simpa [hrun, Except.map] using hstep
          exact h.remove hrun hop
  | removeAll =>
      cases hstep
      exact ⟨valid_emptyWrite, by simp [removeAllWrites], rfl, by simp [removeAllWrites],
        by simp [removeAllWrites]⟩

/-- In every run of valid writes and safe removals the visible writes are the layering
of those that are pending. -/
theorem holds_of_reach (h : Transition.Reach step (· = init) Allowed tree) : tree.Holds :=
  h.invariant (fun _ hs => hs ▸ holds_init) fun _ _ _ _ hs hop hstep => hs.step hop hstep

/-- A tree after one write. -/
def oneWrite : FWriteTree where
  visibleWrites := addWrite emptyWrite (.leaf (.bool true)) ["a"]
  allWrites := [⟨["a"], .overwrite (.leaf (.bool true)), 0, true⟩]
  lastWriteId := 0

end FWriteTree

end MyChat
