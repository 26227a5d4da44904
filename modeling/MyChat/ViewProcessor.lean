import MyChat.EventCache
import MyChat.ChildChanges

/-!
# MyChat.ViewProcessor

What the client does at one location that is observed: `FView`, with the data the server
sent for it and the data its observers were shown (`FViewCache`), and `FViewProcessor`,
which brings both up to date when something was written, sent by the server,
acknowledged or taken back, and tells which children changed.

The views are those of the app: the whole of a location, no query and no filter, so the
filter is an `FIndexedFilter`, and children are ordered by key. An assertion that fails
and an exception that is thrown are errors.
-/

namespace MyChat

open FUtilities FCompoundWrite NetChange

/-- `FChange`: one of a child, or of the whole value. -/
inductive FChange
  | child (childKey : String) (change : Change FNode)
  | value (node : FNode)

/-- `FViewCache`. -/
structure FViewCache where
  cachedEventSnap : FCacheNode
  cachedServerSnap : FCacheNode

namespace FViewCache

/-- `updateEventSnap:isComplete:isFiltered:`; `FIndexedFilter` filters nothing. -/
def updateEventSnap (viewCache : FViewCache) (eventSnap : FNode) (complete : Bool) : FViewCache :=
  { viewCache with cachedEventSnap := ⟨eventSnap, complete, false⟩ }

/-- `updateServerSnap:isComplete:isFiltered:`. -/
def updateServerSnap (viewCache : FViewCache) (serverSnap : FNode) (complete : Bool) : FViewCache :=
  { viewCache with cachedServerSnap := ⟨serverSnap, complete, false⟩ }

/-- `completeEventSnap`. -/
def completeEventSnap (viewCache : FViewCache) : Option FNode :=
  if viewCache.cachedEventSnap.isFullyInitialized then some viewCache.cachedEventSnap.node else none

/-- `completeServerSnap`. -/
def completeServerSnap (viewCache : FViewCache) : Option FNode :=
  if viewCache.cachedServerSnap.isFullyInitialized then some viewCache.cachedServerSnap.node else none

end FViewCache

/-! ### Operations -/

/-- `FOverwrite`, `FMerge`, `FAckUserWrite` and `FListenComplete`. -/
inductive FOperation
  | overwrite (fromUser : Bool) (path : Path) (snap : FNode)
  | merge (fromUser : Bool) (path : Path) (children : FCompoundWrite)
  | ackUserWrite (path : Path) (affectedTree : FImmutableTree Bool) (revert : Bool)
  | listenComplete (path : Path)

namespace FOperation

def path : FOperation → Path
  | overwrite _ path _ => path
  | merge _ path _ => path
  | ackUserWrite path _ _ => path
  | listenComplete path => path

/-- `operationForChild:`. -/
def operationForChild (operation : FOperation) (childKey : String) : Option FOperation :=
  match operation with
  | overwrite fromUser path snap =>
      if path = [] then some (overwrite fromUser [] (snap.getImmediateChild childKey))
      else some (overwrite fromUser (path.drop 1) snap)
  | merge fromUser path children =>
      if path = [] then
        let childTree := childCompoundWriteAtPath children [childKey]
        if childTree.isEmpty then none
        else
          match rootWrite childTree with
          | some snap => some (overwrite fromUser [] snap)
          | none => some (merge fromUser [] childTree)
      else some (merge fromUser (path.drop 1) children)
  | ackUserWrite path affectedTree revert =>
      if path ≠ [] then some (ackUserWrite (path.drop 1) affectedTree revert)
      else if affectedTree.value.isSome then some operation
      else some (ackUserWrite [] (affectedTree.subtreeAtPath [childKey]) revert)
  | listenComplete path => some (listenComplete (path.drop 1))

end FOperation

/-! ### FViewProcessor -/

namespace FViewProcessor

/-- `completeChild:` of an `FWriteTreeCompleteChildSource`. -/
def completeChild (writes : FWriteTreeRef) (viewCache : FViewCache)
    (optCompleteServerCache : Option FNode) (childKey : String) : Option FNode :=
  let node := viewCache.cachedEventSnap
  if node.isCompleteForChild childKey then some (node.node.getImmediateChild childKey)
  else
    let serverNode := match optCompleteServerCache with
      | some server => ⟨server, true, false⟩
      | none => viewCache.cachedServerSnap
    writes.calculateCompleteChild childKey serverNode

/-- `newEventChild` in `generateEventCacheAfterServerEvent:`. -/
def newEventChild (viewCache : FViewCache) (childKey : String) (childChangePath : Path)
    (writesCache : FWriteTreeRef) : Option FNode :=
  let oldEventSnap := viewCache.cachedEventSnap
  if oldEventSnap.isCompleteForChild childKey then
    let oldChild := oldEventSnap.node.getImmediateChild childKey
    match writesCache.calculateEventCacheAfterServerOverwrite (childKey :: childChangePath)
        viewCache.cachedServerSnap.node with
    | some eventChildUpdate => some (oldChild.updateChild childChangePath eventChildUpdate)
    | none => some oldChild
  else writesCache.calculateCompleteChild childKey viewCache.cachedServerSnap

/-- `generateEventCacheAfterServerEvent:path:writesCache:`. -/
def generateEventCacheAfterServerEvent (viewCache : FViewCache) (changePath : Path)
    (writesCache : FWriteTreeRef) : Except String (FViewCache × Tracked) :=
  let oldEventSnap := viewCache.cachedEventSnap
  if (writesCache.shadowingWriteAtPath changePath).isSome then .ok (viewCache, [])
  else
    match changePath with
    | [] =>
        if viewCache.cachedServerSnap.isFullyInitialized then
          -- with complete server data there always is a complete event cache
          let nodeWithLocalWrites :=
            (writesCache.calculateCompleteEventCache viewCache.completeServerSnap).getD FNode.emptyNode
          let (newEventCache, tracked) :=
            FIndexedFilter.updateFullNode oldEventSnap.node nodeWithLocalWrites
          .ok (viewCache.updateEventSnap newEventCache true, tracked)
        else .error "If change path is empty, we must have complete server data"
    | childKey :: childChangePath =>
        let (newEventCache, tracked) :=
          match newEventChild viewCache childKey childChangePath writesCache with
          | some newEventChild =>
              FIndexedFilter.updateChildIn oldEventSnap.node childKey newEventChild childChangePath
          | none => (oldEventSnap.node, [])
        .ok (viewCache.updateEventSnap newEventCache oldEventSnap.isFullyInitialized, tracked)

/-- `applyServerOverwriteTo:changePath:snap:writesCache:`. -/
def applyServerOverwriteTo (oldViewCache : FViewCache) (changePath : Path) (changedSnap : FNode)
    (writesCache : FWriteTreeRef) : Except String (FViewCache × Tracked) :=
  let oldServerSnap := oldViewCache.cachedServerSnap
  match changePath with
  | [] =>
      let newServerCache := (FIndexedFilter.updateFullNode oldServerSnap.node changedSnap).1
      generateEventCacheAfterServerEvent (oldViewCache.updateServerSnap newServerCache true) []
        writesCache
  | childKey :: childChangePath =>
      -- updates intended for other listeners do not go into an incomplete node
      if ¬ oldServerSnap.isCompleteForPath changePath ∧ 1 < changePath.length then .ok (oldViewCache, [])
      else
        let childNode := oldServerSnap.node.getImmediateChild childKey
        let newChildNode := childNode.updateChild childChangePath changedSnap
        let newServerCache :=
          (FIndexedFilter.updateChildIn oldServerSnap.node childKey newChildNode childChangePath).1
        generateEventCacheAfterServerEvent
          (oldViewCache.updateServerSnap newServerCache oldServerSnap.isFullyInitialized)
          changePath writesCache

/-- `newChild` in `applyUserOverwriteTo:`. -/
def newUserChild (oldViewCache : FViewCache) (childKey : String) (childChangePath : Path)
    (changedSnap : FNode) (writesCache : FWriteTreeRef) (optCompleteCache : Option FNode) : FNode :=
  if childChangePath = [] then changedSnap
  else
    match completeChild writesCache oldViewCache optCompleteCache childKey with
    | some childNode => childNode.updateChild childChangePath changedSnap
    | none => FNode.emptyNode

/-- `applyUserOverwriteTo:changePath:changedSnap:writesCache:completeCache:`. -/
def applyUserOverwriteTo (oldViewCache : FViewCache) (changePath : Path) (changedSnap : FNode)
    (writesCache : FWriteTreeRef) (optCompleteCache : Option FNode) : FViewCache × Tracked :=
  let oldEventSnap := oldViewCache.cachedEventSnap
  match changePath with
  | [] =>
      let (newEventCache, tracked) := FIndexedFilter.updateFullNode oldEventSnap.node changedSnap
      (oldViewCache.updateEventSnap newEventCache true, tracked)
  | childKey :: childChangePath =>
      let oldChild := oldEventSnap.node.getImmediateChild childKey
      let newChild :=
        newUserChild oldViewCache childKey childChangePath changedSnap writesCache optCompleteCache
      if oldChild.isEqual newChild then (oldViewCache, [])
      else
        let (newEventSnap, tracked) :=
          FIndexedFilter.updateChildIn oldEventSnap.node childKey newChild childChangePath
        (oldViewCache.updateEventSnap newEventSnap oldEventSnap.isFullyInitialized, tracked)

/-- `cache:hasChild:` on the first piece of a path. -/
def cacheHasChild (viewCache : FViewCache) (path : Path) : Bool :=
  match path.head? with
  | some childKey => viewCache.cachedEventSnap.isCompleteForChild childKey
  | none => viewCache.cachedEventSnap.isFullyInitialized && ¬ viewCache.cachedEventSnap.isFiltered

/-- `applyUserMergeTo:path:changedChildren:writesCache:completeCache:`: changes of children in
view first. -/
def applyUserMergeTo (viewCache : FViewCache) (path : Path) (changedChildren : FCompoundWrite)
    (writesCache : FWriteTreeRef) (serverCache : Option FNode) : FViewCache × Tracked :=
  let writes := changedChildren.forEach.map fun x => (path ++ x.1, x.2)
  let inView := writes.filter fun x => cacheHasChild viewCache x.1
  let others := writes.filter fun x => ¬ cacheHasChild viewCache x.1
  (inView ++ others).foldl (fun cur x =>
    let (newViewCache, tracked) := applyUserOverwriteTo cur.1 x.1 x.2 writesCache serverCache
    (newViewCache, cur.2 ++ tracked)) (viewCache, [])

/-- `applyServerMergeTo:path:changedChildren:writesCache:`. -/
def applyServerMergeTo (viewCache : FViewCache) (path : Path) (changedChildren : FCompoundWrite)
    (writesCache : FWriteTreeRef) : Except String (FViewCache × Tracked) :=
  let serverSnap := viewCache.cachedServerSnap
  -- the merge was intended for a previous listen
  if serverSnap.node.isEmpty ∧ ¬ serverSnap.isFullyInitialized then .ok (viewCache, [])
  else
    let actualMerge :=
      if path = [] then changedChildren else addCompoundWrite emptyWrite changedChildren path
    let writes := childCompoundWrites actualMerge
    let known := writes.filter fun x => serverSnap.node.hasChild x.1
    let others := writes.filter fun x =>
      let isUnknownDeepMerge := ¬ serverSnap.isCompleteForChild x.1 ∧ (rootWrite x.2).isNone
      ¬ serverSnap.node.hasChild x.1 ∧ ¬ isUnknownDeepMerge
    (known ++ others).foldlM (fun cur x => do
      let newChild := applyToNode x.2 (serverSnap.node.getImmediateChild x.1)
      let (newViewCache, tracked) ← applyServerOverwriteTo cur.1 [x.1] newChild writesCache
      return (newViewCache, cur.2 ++ tracked)) (viewCache, [])

/-- `ackUserWriteOn:ackPath:affectedTree:writesCache:`. -/
def ackUserWriteOn (viewCache : FViewCache) (ackPath : Path) (affectedTree : FImmutableTree Bool)
    (writesCache : FWriteTreeRef) : Except String (FViewCache × Tracked) :=
  let serverCache := viewCache.cachedServerSnap
  if (writesCache.shadowingWriteAtPath ackPath).isSome then .ok (viewCache, [])
  else if affectedTree.value.isSome then
    if (ackPath = [] ∧ serverCache.isFullyInitialized) ∨ serverCache.isCompleteForPath ackPath then
      applyServerOverwriteTo viewCache ackPath (serverCache.node.getChild ackPath) writesCache
    else if ackPath = [] then
      let changedChildren := serverCache.node.enumerateChildren.foldl (fun changedChildren x =>
        addWrite changedChildren x.2 [x.1]) emptyWrite
      applyServerMergeTo viewCache ackPath changedChildren writesCache
    else .ok (viewCache, [])
  else
    let affected := affectedTree.forEach.filter fun x => serverCache.isCompleteForPath (ackPath ++ x.1)
    let changedChildren := affected.foldl (fun changedChildren x =>
      addWrite changedChildren (serverCache.node.getChild (ackPath ++ x.1)) x.1) emptyWrite
    applyServerMergeTo viewCache ackPath changedChildren writesCache

/-- `revertUserWriteOn:` at a child: the event cache without the write. -/
def revertChild (viewCache : FViewCache) (childKey : String) (childPath : Path)
    (writesCache : FWriteTreeRef) : FNode × Tracked :=
  let oldEventCache := viewCache.cachedEventSnap.node
  let newChild := match writesCache.calculateCompleteChild childKey viewCache.cachedServerSnap with
    | some newChild => some newChild
    | none =>
        if viewCache.cachedServerSnap.isCompleteForChild childKey then
          some (oldEventCache.getImmediateChild childKey)
        else none
  match newChild with
  | some newChild => FIndexedFilter.updateChildIn oldEventCache childKey newChild childPath
  | none =>
      if oldEventCache.hasChild childKey then
        FIndexedFilter.updateChildIn oldEventCache childKey FNode.emptyNode childPath
      else (oldEventCache, [])

/-- `revertUserWriteOn:` when the event cache is empty then: it may have been a leaf before
the write. -/
def restoreLeaf (viewCache : FViewCache) (newEventCache : FNode) (writesCache : FWriteTreeRef) :
    FNode × Tracked :=
  if newEventCache.isEmpty ∧ viewCache.cachedServerSnap.isFullyInitialized then
    match writesCache.calculateCompleteEventCache viewCache.completeServerSnap with
    | some complete =>
        if complete.isLeafNode then FIndexedFilter.updateFullNode newEventCache complete
        else (newEventCache, [])
    | none => (newEventCache, [])
  else (newEventCache, [])

/-- `revertUserWriteOn:path:writesCache:`. -/
def revertUserWriteOn (viewCache : FViewCache) (path : Path) (writesCache : FWriteTreeRef) :
    FViewCache × Tracked :=
  if (writesCache.shadowingWriteAtPath path).isSome then (viewCache, [])
  else
    let serverSnap := viewCache.cachedServerSnap
    let (newEventCache, tracked) := match path with
      | [] =>
          let newNode :=
            if serverSnap.isFullyInitialized then
              (writesCache.calculateCompleteEventCache viewCache.completeServerSnap).getD FNode.emptyNode
            else writesCache.calculateCompleteEventChildren serverSnap.node
          FIndexedFilter.updateFullNode viewCache.cachedEventSnap.node newNode
      | childKey :: childPath =>
          let (newEventCache, tracked) := revertChild viewCache childKey childPath writesCache
          let (newEventCache, added) := restoreLeaf viewCache newEventCache writesCache
          (newEventCache, tracked ++ added)
    let complete := serverSnap.isFullyInitialized || (writesCache.shadowingWriteAtPath []).isSome
    (viewCache.updateEventSnap newEventCache complete, tracked)

/-- `listenCompleteOldCache:path:writesCache:`. -/
def listenCompleteOldCache (viewCache : FViewCache) (path : Path) (writesCache : FWriteTreeRef) :
    Except String (FViewCache × Tracked) :=
  let oldServerNode := viewCache.cachedServerSnap
  let newViewCache :=
    viewCache.updateServerSnap oldServerNode.node (oldServerNode.isFullyInitialized || path.isEmpty)
  generateEventCacheAfterServerEvent newViewCache path writesCache

/-- `maybeAddValueFromOldViewCache:newViewCache:changes:`. -/
def maybeAddValue (oldViewCache newViewCache : FViewCache) (changes : List FChange) : List FChange :=
  let eventSnap := newViewCache.cachedEventSnap
  if eventSnap.isFullyInitialized then
    let isLeafOrEmpty := eventSnap.node.isLeafNode || eventSnap.node.isEmpty
    if changes ≠ [] ∨ ¬ oldViewCache.cachedEventSnap.isFullyInitialized ∨
        (isLeafOrEmpty ∧ ¬ eventSnap.node.isEqual oldViewCache.cachedEventSnap.node) then
      changes ++ [.value eventSnap.node]
    else changes
  else changes

/-- The view after an operation, and the children it tracks. -/
def process (oldViewCache : FViewCache) (writesCache : FWriteTreeRef)
    (optCompleteCache : Option FNode) : FOperation → Except String (FViewCache × Tracked)
  | .overwrite true path snap =>
      .ok (applyUserOverwriteTo oldViewCache path snap writesCache optCompleteCache)
  | .overwrite false path snap => applyServerOverwriteTo oldViewCache path snap writesCache
  | .merge true path children =>
      .ok (applyUserMergeTo oldViewCache path children writesCache optCompleteCache)
  | .merge false path children => applyServerMergeTo oldViewCache path children writesCache
  | .ackUserWrite path affectedTree false => ackUserWriteOn oldViewCache path affectedTree writesCache
  | .ackUserWrite path _ true => .ok (revertUserWriteOn oldViewCache path writesCache)
  | .listenComplete path => listenCompleteOldCache oldViewCache path writesCache

/-- `applyOperationOn:operation:writesCache:completeCache:`. -/
def applyOperationOn (oldViewCache : FViewCache) (operation : FOperation)
    (writesCache : FWriteTreeRef) (optCompleteCache : Option FNode) :
    Except String (FViewCache × List FChange) := do
  let (newViewCache, tracked) ← process oldViewCache writesCache optCompleteCache operation
  let changeMap ← tracked.foldlM (fun changeMap x => trackChildChange changeMap x.1 x.2) []
  let changes := changeMap.map fun x => FChange.child x.1 x.2
  return (newViewCache, maybeAddValue oldViewCache newViewCache changes)

end FViewProcessor

end MyChat
