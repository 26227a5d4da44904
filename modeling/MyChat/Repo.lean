import MyChat.SyncListens

/-!
# MyChat.Repo

`FRepo`: where the calls of the user and the messages of the connection come together.
Writes get their ids here, in the order in which they are made, and the events that the
sync tree hands out are raised.

Left out: the `.info` tree, persistence, transactions, and the data that the server
fills in (`.sv`).
-/

namespace MyChat

open PathTree FUtilities FCompoundWrite NetChange

/-! ### The repository -/

/-- What the server sends for a place: all there is, or some of its children. -/
inductive FServerData
  | snap (snap : FNode)
  | changedChildren (changedChildren : FCompoundWrite)

/-- `kFErrorWriteCanceled`. -/
def kFErrorWriteCanceled : String := "write_canceled"

/-- `FRepo`, with the events it has raised. -/
structure FRepo where
  serverSyncTree : FSyncTree
  writeIdCounter : Int
  raisedEvents : List FDataEvent

namespace FRepo

def init : FRepo := ⟨.init, 0, []⟩

/-- `nextWriteId`. -/
def nextWriteId (repo : FRepo) : Int × FRepo :=
  (repo.writeIdCounter, { repo with writeIdCounter := repo.writeIdCounter + 1 })

/-- The tree has changed, and `raiseEvents:`. -/
def raiseEvents (repo : FRepo) (result : FSyncTree × List FDataEvent) : FRepo :=
  { repo with serverSyncTree := result.1, raisedEvents := repo.raisedEvents ++ result.2 }

/-- `set:withNode:withCallback:`. -/
def set (repo : FRepo) (path : Path) (node : FNode) : Except String FRepo := do
  let (writeId, repo) := repo.nextWriteId
  let result ← repo.serverSyncTree.applyUserOverwrite path node writeId true
  return repo.raiseEvents result

/-- `update:withNodes:withCallback:`. -/
def update (repo : FRepo) (path : Path) (nodes : FCompoundWrite) : Except String FRepo :=
  if ¬ nodes.isEmpty then do
    let (writeId, repo) := repo.nextWriteId
    let result ← repo.serverSyncTree.applyUserMerge path nodes writeId
    return repo.raiseEvents result
  else return repo

/-- `purgeOutstandingWrites`. -/
def purgeOutstandingWrites (repo : FRepo) : Except String FRepo := do
  let result ← repo.serverSyncTree.removeAllWrites
  return repo.raiseEvents result

/-- `addEventRegistration:forQuery:`. -/
def addEventRegistration (repo : FRepo) (eventRegistration : FEventRegistration) (path : Path) :
    Except String FRepo := do
  let result ← repo.serverSyncTree.addEventRegistration eventRegistration path
  return repo.raiseEvents result

/-- `removeEventRegistration:forQuery:`. -/
def removeEventRegistration (repo : FRepo) (eventRegistration : FEventRegistration) (path : Path) :
    Except String FRepo := do
  let serverSyncTree ← repo.serverSyncTree.removeEventRegistration (some eventRegistration) path false
  return repo.raiseEvents (serverSyncTree, [])

/-- `ackWrite:rerunTransactionsAtPath:status:`. -/
def ackWrite (repo : FRepo) (writeId : Int) (status : String) : Except String FRepo :=
  if status = kFErrorWriteCanceled then return repo
  else do
    let success := decide (status = kFWPResponseForActionStatusOk)
    let result ← repo.serverSyncTree.ackUserWrite writeId !success
    return repo.raiseEvents result

/-- `onDataUpdate:forPath:message:isMerge:tagId:`. -/
def onDataUpdate (repo : FRepo) (path : Path) (data : FServerData) : Except String FRepo := do
  let result ← match data with
    | .changedChildren changedChildren => repo.serverSyncTree.applyServerMerge path changedChildren
    | .snap snap => repo.serverSyncTree.applyServerOverwrite path snap
  return repo.raiseEvents result

/-- The connection's answer to a listen. -/
def onListenResponse (repo : FRepo) (path : Path) (status : String) : Except String FRepo := do
  let result ← repo.serverSyncTree.onListenResponse path status
  return repo.raiseEvents result

end FRepo

/-! ### What happens to the writes -/

theorem FWriteTree.lastWriteId_removeWriteId {writes writes' : FWriteTree} {writeId n : Int} {raised : Bool}
    (h : writes.Holds) (hn : -1 < n) (hlast : writes.lastWriteId < n)
    (hrun : writes.removeWriteId writeId = .ok (writes', raised)) : writes'.lastWriteId < n := by
  obtain ⟨as, w, bs, hall, -, hcase⟩ := removeWriteId_cases hrun
  rcases hcase with ⟨-, rfl, -⟩ | ⟨-, rfl, -⟩ | ⟨-, rfl, -⟩
  · exact hlast
  · simp only [resetTree]
    cases hrecord : (as ++ bs).getLast? with
    | none => exact hn
    | some record =>
        have hmem : record ∈ writes.allWrites := by
          have hmem := List.mem_of_getLast? hrecord
          rw [hall]
          simp only [List.mem_append, List.mem_cons] at hmem ⊢
          exact hmem.imp_right Or.inr
        exact (h.last record hmem).trans_lt hlast
  · exact hlast

/-- The oldest write is the one that goes. -/
theorem FWriteTree.allWrites_removeWriteId {writes writes' : FWriteTree} {writeId : Int} {raised : Bool}
    (h : writes.Holds) (holdest : writes.allWrites.head?.map FWriteRecord.writeId = some writeId)
    (hrun : writes.removeWriteId writeId = .ok (writes', raised)) :
    writes'.allWrites = writes.allWrites.tail := by
  obtain ⟨as, w, bs, hall, hid, hcase⟩ := removeWriteId_cases hrun
  have hrest : writes'.allWrites = as ++ bs := by
    rcases hcase with ⟨-, rfl, -⟩ | ⟨-, rfl, -⟩ | ⟨-, rfl, -⟩ <;> rfl
  have hids := h.ids
  rw [hrest, hall]
  rw [hall] at holdest hids
  cases as with
  | nil => rfl
  | cons a as =>
      -- the first one is older than the one removed
      have ha : a.writeId = writeId := by simpa using holdest
      have hlt : a.writeId < w.writeId := (List.pairwise_cons.mp hids).1 w (by simp)
      omega

namespace FSyncTree

variable {tree : FSyncTree} {result : FSyncTree × List FDataEvent} {path : Path} {writeId : Int}

theorem pendingWriteTree_applyOperationToSyncPoints {operation : FOperation}
    (h : tree.applyOperationToSyncPoints operation = .ok result) :
    result.1.pendingWriteTree = tree.pendingWriteTree := by
  obtain ⟨r, -, h⟩ := bind_eq_ok.mp h
  cases h
  rfl

theorem pendingWriteTree_applyUserOverwrite {node : FNode}
    (h : tree.applyUserOverwrite path node writeId true = .ok result) :
    tree.pendingWriteTree.addOverwriteAtPath path node writeId true = .ok result.1.pendingWriteTree := by
  obtain ⟨writes, hadd, h⟩ := bind_eq_ok.mp h
  rw [hadd, pendingWriteTree_applyOperationToSyncPoints h]

theorem pendingWriteTree_applyUserMerge {children : FCompoundWrite}
    (h : tree.applyUserMerge path children writeId = .ok result) :
    tree.pendingWriteTree.addMergeAtPath path children writeId = .ok result.1.pendingWriteTree := by
  obtain ⟨writes, hadd, h⟩ := bind_eq_ok.mp h
  rw [hadd, pendingWriteTree_applyOperationToSyncPoints h]

theorem pendingWriteTree_ackUserWrite {revert : Bool} (h : tree.ackUserWrite writeId revert = .ok result) :
    ∃ raised, tree.pendingWriteTree.removeWriteId writeId = .ok (result.1.pendingWriteTree, raised) := by
  obtain ⟨⟨writes, raised⟩, hremove, h⟩ := bind_eq_ok.mp h
  dsimp only at h
  split at h
  · rw [pendingWriteTree_applyOperationToSyncPoints h]
    exact ⟨_, hremove⟩
  · cases h
    exact ⟨_, hremove⟩

theorem pendingWriteTree_removeAllWrites (h : tree.removeAllWrites = .ok result) :
    result.1.pendingWriteTree = tree.pendingWriteTree.removeAllWrites := by
  unfold removeAllWrites at h
  dsimp only at h
  split at h
  · cases h
    rfl
  · rw [pendingWriteTree_applyOperationToSyncPoints h]

theorem pendingWriteTree_foldlM_startListening {tree' : FSyncTree} {ps : List Path}
    (h : ps.foldlM startListening tree = .ok tree') : tree'.pendingWriteTree = tree.pendingWriteTree := by
  induction ps generalizing tree with
  | nil =>
      cases h
      rfl
  | cons p ps ih =>
      rw [List.foldlM_cons] at h
      obtain ⟨t, hstart, h⟩ := bind_eq_ok.mp h
      rw [ih h]
      unfold startListening at hstart
      split at hstart
      · cases hstart
      · cases hstart
        rfl

theorem pendingWriteTree_removeEventRegistration {tree' : FSyncTree}
    {registration : Option FEventRegistration} {cancelError : Bool}
    (h : tree.removeEventRegistration registration path cancelError = .ok tree') :
    tree'.pendingWriteTree = tree.pendingWriteTree := by
  unfold removeEventRegistration at h
  split at h
  · cases h
    rfl
  · dsimp only at h
    split at h
    · cases h
      rfl
    · split at h
      · cases h
        rfl
      · obtain ⟨t, hstart, h⟩ := bind_eq_ok.mp h
        have hsame := pendingWriteTree_foldlM_startListening hstart
        cases cancelError with
        | true =>
            cases h
            exact hsame
        | false =>
            cases h
            exact hsame

theorem pendingWriteTree_onListenResponse {status : String}
    (h : tree.onListenResponse path status = .ok result) :
    result.1.pendingWriteTree = tree.pendingWriteTree := by
  unfold onListenResponse at h
  split at h
  · cases h
    rfl
  · split at h
    · exact pendingWriteTree_applyOperationToSyncPoints h
    · obtain ⟨t, hremove, h⟩ := bind_eq_ok.mp h
      cases h
      show t.pendingWriteTree = (tree.stopListening path).pendingWriteTree
      exact pendingWriteTree_removeEventRegistration hremove

theorem forEach_init : init.syncPointTree.forEach = [] := by
  simp [init, FImmutableTree.empty, FImmutableTree.forEach_node, FImmutableTree.forEachChild]

theorem shows_init (server : Snapshot) : init.Shows server where
  writes := FWriteTree.holds_init
  plainly := by simp [FWriteTree.Plainly, init, FWriteTree.init]
  filled := by simp [FWriteTree.Filled, init, FWriteTree.init]
  keyed := FImmutableTree.keyed_empty
  views := by simp [forEach_init]
  paths := by simp [forEach_init]

/-- What the server has where no view knows all makes no difference. -/
theorem Shows.of_server {server server' : Snapshot} (h : tree.Shows server)
    (hsame : ∀ x ∈ tree.syncPointTree.forEach, x.2.viewCache.cachedServerSnap.isFullyInitialized = true →
      server'.subtree x.1 = server.subtree x.1) : tree.Shows server' where
  writes := h.writes
  plainly := h.plainly
  filled := h.filled
  keyed := h.keyed
  paths := h.paths
  views := fun x hx => by
    have hshows := h.views x hx
    have hlayered := (h.writes.layered_contents server).below x.1
    have hlayered' := (h.writes.layered_contents server').below x.1
    refine ⟨hshows.toWellFormed, fun hfull => (hshows.serverSnap hfull).trans (hsame x hx hfull).symm,
      fun hor => ?_⟩
    have hshown : ((tree.pendingWriteTree.contents server').below x.1).shown =
        ((tree.pendingWriteTree.contents server).below x.1).shown := by
      rcases hor with hfull | hhides
      · rw [hlayered, hlayered']
        exact congrArg _ (hsame x hx hfull)
      · exact hlayered.shown_eq hlayered' rfl hhides
    rw [hshown]
    exact hshows.eventSnap hor

/-- Views that go on stay at their places, and so do the listens. -/
theorem Listens.of_traversed {precise : Prop} {c' : Contents} {tree' : FSyncTree} {events : List FDataEvent}
    (h : tree.Listens) (hkeyed : tree.syncPointTree.Keyed Plain) (hkeyed' : tree'.syncPointTree.Keyed Plain)
    (hlistens : tree'.listens = tree.listens)
    (htraversed : Traversed precise c' tree.syncPointTree.forEach tree'.syncPointTree.forEach events) :
    tree'.Listens :=
  h.of_values hlistens fun q => by
    rw [hkeyed.valueAtPath_ne_none_iff, hkeyed'.valueAtPath_ne_none_iff, htraversed.places]

end FSyncTree

end MyChat
