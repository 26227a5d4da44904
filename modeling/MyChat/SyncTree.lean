import MyChat.ViewProcessor
import Mathlib.Data.List.Sort

/-!
# MyChat.SyncTree

`FSyncTree`: all that the client observes. A tree of sync points has a view at every
location with observers; the write tree has the writes on their way. An operation, of the
user or of the server, is taken down the tree: the sync points on its path get it
relative to their locations, those below the part that is theirs. The views hand out
what changed, and `FEventGenerator` makes the events of it for the registrations.

The client listens at the topmost views only: a listen covers what is below.

As in the app, queries are default ones: a sync point has one view, which loads all data,
and there are no priorities, so no child ever moves. Nothing is persisted. Events come
without the key of the previous sibling, which the app's callbacks do not ask for.
-/

namespace MyChat

open FUtilities FCompoundWrite NetChange

/-- `kFWPResponseForActionStatusOk`. -/
def kFWPResponseForActionStatusOk : String := "ok"

/-! ### Events -/

/-- `FIRDataEventType`. -/
inductive FIRDataEventType
  | childAdded | childRemoved | childChanged | childMoved | value
  deriving DecidableEq

namespace FChange

def type : FChange → FIRDataEventType
  | child _ (.added _) => .childAdded
  | child _ (.removed _) => .childRemoved
  | child _ (.changed _ _) => .childChanged
  | value _ => .value

def childKey : FChange → Option String
  | child childKey _ => some childKey
  | value _ => none

end FChange

/-- `NSNotFound`, the handle that stands for all. -/
def NSNotFound : Nat := 2 ^ 63 - 1

/-- `FValueEventRegistration`, and `FChildEventRegistration` with the types that it has
callbacks for. -/
inductive FEventRegistration
  | value (handle : Nat)
  | child (handle : Nat) (callbacks : List FIRDataEventType)
  deriving DecidableEq

namespace FEventRegistration

def handle : FEventRegistration → Nat
  | value handle => handle
  | child handle _ => handle

/-- `responseTo:`. -/
def responseTo : FEventRegistration → FIRDataEventType → Bool
  | value _, eventType => eventType = .value
  | child _ callbacks, eventType => callbacks.contains eventType

/-- `matches:`. -/
def matchesRegistration (registration other : FEventRegistration) : Bool :=
  registration.handle = NSNotFound || other.handle = NSNotFound || registration.handle = other.handle

end FEventRegistration

/-- `FDataEvent`: the path of its query, and the change, whose node is the snapshot. -/
structure FDataEvent where
  path : Path
  eventRegistration : FEventRegistration
  change : FChange

namespace FEventGenerator

/-- The comparator of `generateEvents:`. Without priorities the index compares keys. -/
def compareChanges (one two : FChange) : Ordering :=
  match one.childKey, two.childKey with
  | some key, some otherKey => keyComparator key otherKey
  | _, _ => .eq

/-- `generateEvents:forType:changes:eventCache:eventRegistrations:`, for the query at a path.
Sorting throws when it compares a change that has no key. -/
def generateEvents (path : Path) (eventType : FIRDataEventType) (changes : List FChange)
    (registrations : List FEventRegistration) : Except String (List FDataEvent) :=
  let filteredChanges := changes.filter fun change => change.type = eventType
  if 1 < filteredChanges.length ∧ filteredChanges.any (fun change => change.childKey.isNone) then
    .error "Should only compare child_ events"
  else
    let sorted := filteredChanges.insertionSort fun one two => (compareChanges one two).isLE
    .ok (sorted.flatMap fun change =>
      (registrations.filter fun registration => registration.responseTo eventType).map fun registration =>
        ⟨path, registration, change⟩)

/-- `generateEventsForChanges:eventCache:eventRegistrations:`. -/
def generateEventsForChanges (path : Path) (changes : List FChange)
    (registrations : List FEventRegistration) : Except String (List FDataEvent) := do
  let removed ← generateEvents path .childRemoved changes registrations
  let added ← generateEvents path .childAdded changes registrations
  let changed ← generateEvents path .childChanged changes registrations
  let values ← generateEvents path .value changes registrations
  return removed ++ added ++ changed ++ values

end FEventGenerator

/-! ### Views -/

/-- `FView`, of the default query at a path. -/
structure FView where
  path : Path
  viewCache : FViewCache
  eventRegistrations : List FEventRegistration

namespace FView

/-- `initWithQuery:initialViewCache:`. -/
def ofViewCache (path : Path) (initialViewCache : FViewCache) : FView :=
  let initialServerCache := initialViewCache.cachedServerSnap
  let initialEventCache := initialViewCache.cachedEventSnap
  let serverSnap := (FIndexedFilter.updateFullNode FNode.emptyNode initialServerCache.node).1
  let eventSnap := (FIndexedFilter.updateFullNode FNode.emptyNode initialEventCache.node).1
  ⟨path, ⟨⟨eventSnap, initialEventCache.isFullyInitialized, false⟩,
    ⟨serverSnap, initialServerCache.isFullyInitialized, false⟩⟩, []⟩

/-- `completeServerCacheFor:`. -/
def completeServerCacheFor (view : FView) (path : Path) : Option FNode :=
  view.viewCache.completeServerSnap.map fun cache => cache.getChild path

/-- `isEmpty`. -/
def isEmpty (view : FView) : Bool := view.eventRegistrations.isEmpty

/-- `removeEventRegistration:cancelError:`, of one registration or of all. The app cancels
no registration. -/
def removeEventRegistration (view : FView) (eventRegistration : Option FEventRegistration) : FView :=
  { view with
    eventRegistrations := match eventRegistration with
      | some registration =>
          view.eventRegistrations.filter fun existing => ¬ existing.matchesRegistration registration
      | none => [] }

/-- `applyOperation:writesCache:serverCache:`. -/
def applyOperation (view : FView) (operation : FOperation) (writesCache : FWriteTreeRef)
    (optCompleteServerCache : Option FNode) : Except String (FView × List FDataEvent) := do
  let oldViewCache := view.viewCache
  let (viewCache, changes) ←
    FViewProcessor.applyOperationOn oldViewCache operation writesCache optCompleteServerCache
  if viewCache.cachedServerSnap.isFullyInitialized ∨ ¬ oldViewCache.cachedServerSnap.isFullyInitialized then
    let events ← FEventGenerator.generateEventsForChanges view.path changes view.eventRegistrations
    return ({ view with viewCache }, events)
  else throw "Once a server snap is complete, it should never go back."

/-- The changes that `initialEvents:` makes events of. -/
def initialChanges (view : FView) : List FChange :=
  let eventSnap := view.viewCache.cachedEventSnap
  let children := eventSnap.node.enumerateChildren.map fun x => FChange.child x.1 (.added x.2)
  if eventSnap.isFullyInitialized then children ++ [.value eventSnap.node] else children

/-- `initialEvents:`. -/
def initialEvents (view : FView) (registration : FEventRegistration) :
    Except String (List FDataEvent) :=
  FEventGenerator.generateEventsForChanges view.path view.initialChanges [registration]

end FView

/-! ### Sync points -/

namespace FWriteTree

/-- `childWritesForPath:`. -/
def childWritesForPath (tree : FWriteTree) (path : Path) : FWriteTreeRef := ⟨path, tree⟩

/-- `writeForId:`. -/
def writeForId (tree : FWriteTree) (writeId : Int) : Option FWriteRecord :=
  tree.allWrites.find? fun write => write.writeId = writeId

end FWriteTree

/-- `childWriteTreeRef:`. -/
def FWriteTreeRef.childWriteTreeRef (writes : FWriteTreeRef) (childKey : String) : FWriteTreeRef :=
  { writes with path := writes.path ++ [childKey] }

namespace FSyncPoint

/-- `addEventRegistration:forExistingViewForQuery:`. -/
def addToExistingView (view : FView) (eventRegistration : FEventRegistration) :
    Except String (FView × List FDataEvent) := do
  let view := { view with eventRegistrations := view.eventRegistrations ++ [eventRegistration] }
  let events ← view.initialEvents eventRegistration
  return (view, events)

/-- The view that `addEventRegistration:forNonExistingViewForQuery:` makes. -/
def newView (path : Path) (writesCache : FWriteTreeRef) (serverCache : FCacheNode) : FView :=
  let eventCache := writesCache.calculateCompleteEventCache
    (if serverCache.isFullyInitialized then some serverCache.node else none)
  let eventCacheNode : FCacheNode := match eventCache with
    | some eventCache => ⟨eventCache, true, false⟩
    | none => ⟨writesCache.calculateCompleteEventChildren serverCache.node, false, false⟩
  FView.ofViewCache path ⟨eventCacheNode, serverCache⟩

/-- `addEventRegistration:forNonExistingViewForQuery:writesCache:serverCache:`. -/
def addToNonExistingView (eventRegistration : FEventRegistration) (path : Path)
    (writesCache : FWriteTreeRef) (serverCache : FCacheNode) :
    Except String (FView × List FDataEvent) :=
  addToExistingView (newView path writesCache serverCache) eventRegistration

end FSyncPoint

/-! ### Trees of sync points -/

namespace FImmutableTree

variable {α : Type}

/-- `valueAtPath:`. -/
def valueAtPath : FImmutableTree α → Path → Option α
  | .node value _, [] => value
  | .node _ children, front :: path =>
      match SortedList.get stringComparator front children with
      | some child => child.valueAtPath path
      | none => none

/-- `removeValueAtPath:`. -/
def removeValueAtPath : FImmutableTree α → Path → FImmutableTree α
  | .node _ children, [] => .node none children
  | .node value children, front :: path =>
      match SortedList.get stringComparator front children with
      | some child =>
          let newChild := child.removeValueAtPath path
          .node value
            (if newChild.isEmpty then SortedList.erase stringComparator front children
             else SortedList.insert stringComparator front newChild children)
      | none => .node value children

/-- The calls that `forEachOnPath:` makes of its block, with the path that is left: the
values above the path and at it, the root first. -/
def forEachOnPath : FImmutableTree α → Path → List (α × Path)
  | .node value _, [] => (value.map fun v => (v, [])).toList
  | .node value children, front :: path =>
      (value.map fun v => (v, front :: path)).toList ++
        match SortedList.get stringComparator front children with
        | some child => child.forEachOnPath path
        | none => []

/-- The calls that `forEachChild:` makes of its block. -/
def childValues (tree : FImmutableTree α) : List (String × α) :=
  tree.children.filterMap fun x => x.2.value.map fun v => (x.1, v)

mutual

/-- The places of the values that have none above them. -/
def topmost : FImmutableTree α → List Path
  | .node (some _) _ => [[]]
  | .node none children => topmostBelow children

def topmostBelow : List (String × FImmutableTree α) → List Path
  | [] => []
  | (childKey, childTree) :: children =>
      childTree.topmost.map (childKey :: ·) ++ topmostBelow children

end

end FImmutableTree

/-- `FSyncTree`, with the listens that its provider has. -/
structure FSyncTree where
  syncPointTree : FImmutableTree FView
  pendingWriteTree : FWriteTree
  listens : List Path

namespace FSyncTree

/-- `initWithListenProvider:`. -/
def init : FSyncTree := ⟨.empty, .init, []⟩

/-! ### Operations -/

/-- The server's data at a sync point: if it is not known from above, what the sync point has. -/
def resolveServerCache (serverCache : Option FNode) (syncPoint : Option FView) : Option FNode :=
  match serverCache, syncPoint with
  | none, some view => view.completeServerCacheFor []
  | serverCache, _ => serverCache

mutual

/-- `applyOperationDescendantsHelper:syncPointTree:serverCache:writesCache:`: the events,
and the tree with its views as they are then. -/
def applyOperationDescendantsHelper (operation : FOperation) (serverCache : Option FNode)
    (writesCache : FWriteTreeRef) :
    FImmutableTree FView → Except String (FImmutableTree FView × List FDataEvent)
  | .node syncPoint children => do
      let resolvedServerCache := resolveServerCache serverCache syncPoint
      let (children, events) ←
        applyOperationToChildren operation resolvedServerCache writesCache children
      match syncPoint with
      | some view => do
          let (view, eventsForView) ← view.applyOperation operation writesCache resolvedServerCache
          return (.node (some view) children, events ++ eventsForView)
      | none => return (.node none children, events)

def applyOperationToChildren (operation : FOperation) (resolvedServerCache : Option FNode)
    (writesCache : FWriteTreeRef) :
    List (String × FImmutableTree FView) →
      Except String (List (String × FImmutableTree FView) × List FDataEvent)
  | [] => return ([], [])
  | (childKey, childTree) :: children => do
      let childServerCache := resolvedServerCache.map fun cache => cache.getImmediateChild childKey
      let childWritesCache := writesCache.childWriteTreeRef childKey
      let (childTree, eventsForChild) ← match operation.operationForChild childKey with
        | some childOperation =>
            applyOperationDescendantsHelper childOperation childServerCache childWritesCache childTree
        | none => pure (childTree, [])
      let (children, events) ←
        applyOperationToChildren operation resolvedServerCache writesCache children
      return ((childKey, childTree) :: children, eventsForChild ++ events)

end

/-- `applyOperationHelper:syncPointTree:serverCache:writesCache:`, along the path of the
operation. -/
def applyOperationHelper (operation : FOperation) (serverCache : Option FNode)
    (writesCache : FWriteTreeRef) :
    FImmutableTree FView → Path → Except String (FImmutableTree FView × List FDataEvent)
  | tree, [] => applyOperationDescendantsHelper operation serverCache writesCache tree
  | .node syncPoint children, childKey :: path => do
      let serverCache := resolveServerCache serverCache syncPoint
      let (children, events) ←
        match SortedList.get stringComparator childKey children, operation.operationForChild childKey with
        | some childTree, some childOperation => do
            let childServerCache := serverCache.map fun cache => cache.getImmediateChild childKey
            let (childTree, events) ← applyOperationHelper childOperation childServerCache
              (writesCache.childWriteTreeRef childKey) childTree path
            pure (SortedList.insert stringComparator childKey childTree children, events)
        | _, _ => pure (children, [])
      match syncPoint with
      | some view => do
          let (view, eventsForView) ← view.applyOperation operation writesCache serverCache
          return (.node (some view) children, events ++ eventsForView)
      | none => return (.node none children, events)

/-- `applyOperationToSyncPoints:`. -/
def applyOperationToSyncPoints (tree : FSyncTree) (operation : FOperation) :
    Except String (FSyncTree × List FDataEvent) := do
  let (syncPointTree, events) ← applyOperationHelper operation none
    (tree.pendingWriteTree.childWritesForPath []) tree.syncPointTree operation.path
  return ({ tree with syncPointTree }, events)

/-- `applyUserOverwriteAtPath:newData:writeId:isVisible:`. -/
def applyUserOverwrite (tree : FSyncTree) (path : Path) (newData : FNode) (writeId : Int)
    (visible : Bool) : Except String (FSyncTree × List FDataEvent) := do
  let pendingWriteTree ← tree.pendingWriteTree.addOverwriteAtPath path newData writeId visible
  let tree := { tree with pendingWriteTree }
  if visible then tree.applyOperationToSyncPoints (.overwrite true path newData)
  else return (tree, [])

/-- `applyUserMergeAtPath:changedChildren:writeId:`. -/
def applyUserMerge (tree : FSyncTree) (path : Path) (changedChildren : FCompoundWrite)
    (writeId : Int) : Except String (FSyncTree × List FDataEvent) := do
  let pendingWriteTree ← tree.pendingWriteTree.addMergeAtPath path changedChildren writeId
  let tree := { tree with pendingWriteTree }
  tree.applyOperationToSyncPoints (.merge true path changedChildren)

/-- The paths that a write affects, in `ackUserWriteWithWriteId:`. -/
def affectedTree : FWriteChange → FImmutableTree Bool
  | .overwrite _ => FImmutableTree.empty.setValue true []
  | .merge write =>
      write.forEach.foldl (fun affectedTree x => affectedTree.setValue true x.1) FImmutableTree.empty

/-- `ackUserWriteWithWriteId:revert:persist:clock:`. -/
def ackUserWrite (tree : FSyncTree) (writeId : Int) (revert : Bool) :
    Except String (FSyncTree × List FDataEvent) := do
  let write := tree.pendingWriteTree.writeForId writeId
  let (pendingWriteTree, needToReevaluate) ← tree.pendingWriteTree.removeWriteId writeId
  let tree := { tree with pendingWriteTree }
  match write, needToReevaluate with
  | some write, true =>
      tree.applyOperationToSyncPoints (.ackUserWrite write.path (affectedTree write.change) revert)
  | _, _ => return (tree, [])

/-- `removeAllWrites`. -/
def removeAllWrites (tree : FSyncTree) : Except String (FSyncTree × List FDataEvent) :=
  let removedWrites := tree.pendingWriteTree.allWrites
  let tree := { tree with pendingWriteTree := tree.pendingWriteTree.removeAllWrites }
  if removedWrites.isEmpty then return (tree, [])
  else
    let affectedTree := FImmutableTree.empty.setValue true []
    tree.applyOperationToSyncPoints (.ackUserWrite [] affectedTree true)

/-- `applyServerOverwriteAtPath:newData:`. -/
def applyServerOverwrite (tree : FSyncTree) (path : Path) (newData : FNode) :
    Except String (FSyncTree × List FDataEvent) :=
  tree.applyOperationToSyncPoints (.overwrite false path newData)

/-- `applyServerMergeAtPath:changedChildren:`. -/
def applyServerMerge (tree : FSyncTree) (path : Path) (changedChildren : FCompoundWrite) :
    Except String (FSyncTree × List FDataEvent) :=
  tree.applyOperationToSyncPoints (.merge false path changedChildren)

/-- `applyListenCompleteAtPath:`. -/
def applyListenComplete (tree : FSyncTree) (path : Path) :
    Except String (FSyncTree × List FDataEvent) :=
  tree.applyOperationToSyncPoints (.listenComplete path)

/-! ### Registrations -/

/-- `startListening`: the connection has at most one listen at a place. -/
def startListening (tree : FSyncTree) (path : Path) : Except String FSyncTree :=
  if tree.listens.contains path then throw "listen() called twice for the same query"
  else return { tree with listens := tree.listens ++ [path] }

/-- `stopListening`. -/
def stopListening (tree : FSyncTree) (path : Path) : FSyncTree :=
  { tree with listens := tree.listens.erase path }

/-- `serverCacheForQuery:`. -/
def serverCacheForQuery (tree : FSyncTree) (path : Path) : FCacheNode :=
  let serverCacheNode := (tree.syncPointTree.forEachOnPath path).findSome? fun x =>
    x.1.completeServerCacheFor x.2
  match serverCacheNode with
  | some node => ⟨node, true, false⟩
  | none =>
      let node := (tree.syncPointTree.subtreeAtPath path).childValues.foldl (fun node x =>
        match x.2.completeServerCacheFor [] with
        | some completeCache => node.updateImmediateChild x.1 completeCache
        | none => node) FNode.emptyNode
      ⟨node, false, false⟩

/-- `setupListenerOnQuery:view:`: the listens below are not needed any more. -/
def setupListener (tree : FSyncTree) (path : Path) : Except String FSyncTree := do
  let tree ← tree.startListening path
  let queriesToStop := FImmutableTree.topmostBelow (tree.syncPointTree.subtreeAtPath path).children
  return (queriesToStop.map (path ++ ·)).foldl stopListening tree

/-- `addEventRegistration:forQuery:`. -/
def addEventRegistration (tree : FSyncTree) (eventRegistration : FEventRegistration) (path : Path) :
    Except String (FSyncTree × List FDataEvent) := do
  let foundAncestorDefaultView := ¬ (tree.syncPointTree.forEachOnPath path).isEmpty
  match tree.syncPointTree.valueAtPath path with
  | some view => do
      let (view, events) ← FSyncPoint.addToExistingView view eventRegistration
      return ({ tree with syncPointTree := tree.syncPointTree.setValue view path }, events)
  | none => do
      let writesCache := tree.pendingWriteTree.childWritesForPath path
      let (view, events) ← FSyncPoint.addToNonExistingView eventRegistration path writesCache
        (tree.serverCacheForQuery path)
      let tree := { tree with syncPointTree := tree.syncPointTree.setValue view path }
      let tree ← if foundAncestorDefaultView then pure tree else tree.setupListener path
      return (tree, events)

/-- `removeEventRegistration:forQuery:cancelError:`. When a listen failed there is an error,
and the connection has removed the listen. -/
def removeEventRegistration (tree : FSyncTree) (eventRegistration : Option FEventRegistration)
    (path : Path) (cancelError : Bool) : Except String FSyncTree :=
  match tree.syncPointTree.valueAtPath path with
  | none => return tree
  | some view =>
      let view := view.removeEventRegistration eventRegistration
      if ¬ view.isEmpty then
        return { tree with syncPointTree := tree.syncPointTree.setValue view path }
      else do
        let syncPointTree := tree.syncPointTree.removeValueAtPath path
        let tree := { tree with syncPointTree }
        let covered := ¬ (syncPointTree.forEachOnPath path).isEmpty
        if covered then return tree
        else
          let newViews := (syncPointTree.subtreeAtPath path).topmost.map (path ++ ·)
          let tree ← newViews.foldlM startListening tree
          return if cancelError then tree else tree.stopListening path

/-- The connection's answer to a listen, unless that was removed. Whatever is not ok ends
the listen. -/
def onListenResponse (tree : FSyncTree) (path : Path) (status : String) :
    Except String (FSyncTree × List FDataEvent) := do
  if ¬ tree.listens.contains path then return (tree, [])
  else if status = kFWPResponseForActionStatusOk then tree.applyListenComplete path
  else
    let tree ← (tree.stopListening path).removeEventRegistration none path true
    return (tree, [])

end FSyncTree

end MyChat
