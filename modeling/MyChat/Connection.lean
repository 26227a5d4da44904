import MyChat.Repo
import MyChat.Lib.CounterTable

/-!
# MyChat.Connection

`FPersistentConnection`: how writes and listens get to the server, over connections that
come and go. A write waits among the outstanding puts until it is answered. When a
connection is there again the listens are sent again, and then the puts, in their order.
An answer to a write is held back as long as a listen is not answered, so that the data
comes first.

The invariant is `Sound`: the puts without an answer are the last ones that were sent on
this connection, in their order, and a block waits for the answer to each. It holds as
long as the server answers in order (`InOrder`), listens apart, and as long as a
connection is not restored without a listen while answers are held back (`Restorable`):
nobody would hand them out.

Left out: transactions and the operations for a lost connection, statistics, the clock,
the hashes of the listens, and when a connection is tried again.
-/

namespace MyChat

open CounterTable

/-- `ConnectionState`. -/
inductive ConnectionState
  | disconnected | gettingToken | connecting | authenticating | connected
  deriving DecidableEq

/-- `FOutstandingQuery`. It is an object: a listen that was removed and added again is
another one. -/
structure FOutstandingQuery where
  query : Path
  object : Nat
  deriving DecidableEq

/-- `FOutstandingPut`, with the id of the write that its block acknowledges. -/
structure FOutstandingPut where
  action : String
  pathString : Path
  data : FWriteChange
  onCompleteBlock : Int

/-- What is sent to the server. -/
inductive FRequest
  | auth (credential : String)
  | unauth
  | listen (path : Path)
  | unlisten (path : Path)
  | put (put : FOutstandingPut)

/-- The blocks that wait for a response. -/
inductive FResponseBlock
  | auth (restoreStateAfterComplete : Bool)
  | listen (listenSpec : FOutstandingQuery)
  | put (index : Nat)
  deriving DecidableEq

/-- `FConnection`, with what was sent on it. -/
structure FConnection where
  connected : Bool
  sent : List (Nat × FRequest)

/-- `sendRequest:sensitive:`. -/
def FConnection.sendRequest (conn : FConnection) (rn : Nat) (request : FRequest) :
    Except String FConnection :=
  if conn.connected then return { conn with sent := conn.sent ++ [(rn, request)] }
  else throw "Tried to send data on an unconnected FConnection"

/-- `FPersistentConnection`. -/
structure FPersistentConnection where
  connectionState : ConnectionState
  realtime : Option FConnection
  authToken : Option String
  listens : List FOutstandingQuery
  objects : Nat
  outstandingPuts : List (Nat × FOutstandingPut)
  putCounter : Nat
  requestNumber : Nat
  requestCBHash : List (Nat × FResponseBlock)
  unackedListensCount : Nat
  putsToAck : List (Int × String)

namespace FPersistentConnection

/-- `initWithRepoInfo:dispatchQueue:config:`. -/
def init : FPersistentConnection where
  connectionState := .disconnected
  realtime := none
  authToken := none
  listens := []
  objects := 0
  outstandingPuts := []
  putCounter := 1
  requestNumber := 1
  requestCBHash := []
  unackedListensCount := 0
  putsToAck := []

/-- `connected`. -/
def connected (c : FPersistentConnection) : Bool :=
  c.connectionState = .authenticating || c.connectionState = .connected

/-- `canSendWrites`. -/
def canSendWrites (c : FPersistentConnection) : Bool := c.connectionState = .connected

/-! ### Requests -/

/-- `sendAction:body:sensitive:callback:`. Without a connection nothing is sent. -/
def sendAction (c : FPersistentConnection) (action : FRequest) (onMessage : Option FResponseBlock) :
    Except String FPersistentConnection := do
  let rn := c.requestNumber
  let realtime ← match c.realtime with
    | some conn => some <$> conn.sendRequest rn action
    | none => pure none
  return { c with
    requestNumber := rn + 1
    realtime
    requestCBHash := c.requestCBHash ++ (onMessage.map fun block => (rn, block)).toList }

/-- `sendListen:`. -/
def sendListen (c : FPersistentConnection) (listenSpec : FOutstandingQuery) :
    Except String FPersistentConnection := do
  let c ← c.sendAction (.listen listenSpec.query) (some (.listen listenSpec))
  return { c with unackedListensCount := c.unackedListensCount + 1 }

/-- `listen:tagId:hash:onComplete:`. -/
def listen (c : FPersistentConnection) (query : Path) : Except String FPersistentConnection :=
  if c.listens.any fun outstanding => outstanding.query = query then
    throw "listen() called twice for the same query"
  else
    let outstanding : FOutstandingQuery := ⟨query, c.objects⟩
    let c := { c with listens := c.listens ++ [outstanding], objects := c.objects + 1 }
    if c.connected then c.sendListen outstanding else return c

/-- `removeListen:`. -/
def removeListen (c : FPersistentConnection) (query : Path) : FPersistentConnection :=
  { c with listens := c.listens.filter fun outstanding => outstanding.query ≠ query }

/-- `unlisten:tagId:`. -/
def unlisten (c : FPersistentConnection) (query : Path) : Except String FPersistentConnection :=
  let outstanding := c.listens.any fun outstanding => outstanding.query = query
  let c := c.removeListen query
  if outstanding ∧ c.connected then c.sendAction (.unlisten query) none else return c

/-- `sendPut:`. -/
def sendPut (c : FPersistentConnection) (index : Nat) : Except String FPersistentConnection :=
  if ¬ c.canSendWrites then throw "sendPut called when not able to send writes"
  else
    match c.outstandingPuts.lookup index with
    | some put => c.sendAction (.put put) (some (.put index))
    | none => throw "put != nil"

/-- `putInternal:forAction:forPath:withHash:withCallback:`. -/
def putInternal (c : FPersistentConnection) (put : FOutstandingPut) :
    Except String FPersistentConnection :=
  let index := c.putCounter
  let c := { c with
    putCounter := index + 1
    outstandingPuts := c.outstandingPuts ++ [(index, put)] }
  if c.canSendWrites then c.sendPut index else return c

/-- `sendAuthAndRestoreStateAfterComplete:`. -/
def sendAuth (c : FPersistentConnection) (restoreStateAfterComplete : Bool) :
    Except String FPersistentConnection :=
  if ¬ c.connected then throw "Must be connected to send auth"
  else
    match c.authToken with
    | some credential => c.sendAction (.auth credential) (some (.auth restoreStateAfterComplete))
    | none => throw "Can't send auth if there is no credential"

/-- `restoreState`. -/
def restoreState (c : FPersistentConnection) : Except String FPersistentConnection :=
  if c.connectionState ≠ .connected then throw "Should be connected if we're restoring state"
  else do
    let c ← c.listens.foldlM sendListen c
    let keys := c.outstandingPuts.map Prod.fst
    keys.foldlM sendPut c

/-! ### Connections -/

/-- What happens to the connection itself. -/
inductive ConnectionEvent
  | tryScheduleReconnect
  | openNetworkConnection (token : Option String)
  | onReady
  | onDisconnect
  | onAuthRevoked
  | interruptForReason
  | refreshAuthToken (token : Option String)

/-- `tryScheduleReconnect`: the token is fetched. -/
def tryScheduleReconnect (c : FPersistentConnection) : Except String FPersistentConnection :=
  if c.connectionState ≠ .disconnected then throw "Not in disconnected state"
  else return { c with connectionState := .gettingToken }

/-- `openNetworkConnectionWithToken:`. -/
def openNetworkConnection (c : FPersistentConnection) (token : Option String) :
    Except String FPersistentConnection :=
  if c.connectionState ≠ .gettingToken then
    throw "Trying to open network connection while in wrong state"
  else return { c with
    authToken := token
    connectionState := .connecting
    realtime := some ⟨false, []⟩ }

/-- `restoreAuth`. -/
def restoreAuth (c : FPersistentConnection) : Except String FPersistentConnection :=
  if c.connectionState ≠ .connecting then throw "Wanted to restore auth, but was in wrong state"
  else if c.authToken = none then restoreState { c with connectionState := .connected }
  else sendAuth { c with connectionState := .authenticating } true

/-- `onReady:atTime:sessionID:`, after the handshake. -/
def onReady (c : FPersistentConnection) : Except String FPersistentConnection :=
  restoreAuth { c with realtime := c.realtime.map fun conn => { conn with connected := true } }

/-- `onDisconnect:withReason:`. -/
def onDisconnect (c : FPersistentConnection) : FPersistentConnection :=
  { c with
    connectionState := .disconnected
    realtime := none
    requestCBHash := []
    unackedListensCount := 0 }

/-- `[self.realtime close]`. -/
def close (c : FPersistentConnection) : FPersistentConnection :=
  if c.realtime.isSome then c.onDisconnect else c

/-- `interruptForReason:`. -/
def interruptForReason (c : FPersistentConnection) : FPersistentConnection :=
  if c.realtime.isSome then c.close else { c with connectionState := .disconnected }

/-- `refreshAuthToken:`. -/
def refreshAuthToken (c : FPersistentConnection) (token : Option String) :
    Except String FPersistentConnection :=
  let c := { c with authToken := token }
  if c.connected then
    if token ≠ none then c.sendAuth false else c.sendAction .unauth none
  else return c

/-- One event. -/
def step (c : FPersistentConnection) : ConnectionEvent → Except String FPersistentConnection
  | .tryScheduleReconnect => c.tryScheduleReconnect
  | .openNetworkConnection token => c.openNetworkConnection token
  | .onReady => c.onReady
  | .onDisconnect => return c.onDisconnect
  | .onAuthRevoked => return { c with authToken := none }.close
  | .interruptForReason => return c.interruptForReason
  | .refreshAuthToken token => c.refreshAuthToken token

/-! ### Responses -/

/-- The block for a response, which is taken out. -/
def takeBlock (c : FPersistentConnection) (rn : Nat) : Option (FResponseBlock × FPersistentConnection) :=
  (c.requestCBHash.lookup rn).map fun block =>
    (block, { c with requestCBHash := c.requestCBHash.filter fun x => x.1 ≠ rn })

/-- The block of `sendAuthAndRestoreStateAfterComplete:`. -/
def onAuthResponse (c : FPersistentConnection) (restoreStateAfterComplete : Bool) (status : String) :
    Except String FPersistentConnection :=
  let c := { c with connectionState := .connected }
  if status = kFWPResponseForActionStatusOk then
    if restoreStateAfterComplete then c.restoreState else return c
  else return { c with authToken := none }.close

/-- The block of `sendPut:`, with the acknowledgements that it makes. -/
def onPutResponse (c : FPersistentConnection) (index : Nat) (status : String) :
    FPersistentConnection × List (Int × String) :=
  match c.outstandingPuts.lookup index with
  | some put =>
      let c := { c with outstandingPuts := c.outstandingPuts.filter fun x => x.1 ≠ index }
      if c.unackedListensCount = 0 then (c, [(put.onCompleteBlock, status)])
      else ({ c with putsToAck := c.putsToAck ++ [(put.onCompleteBlock, status)] }, [])
  | none => (c, [])

/-- `ackPuts`. -/
def ackPuts (c : FPersistentConnection) : FPersistentConnection × List (Int × String) :=
  ({ c with putsToAck := [] }, c.putsToAck)

/-- The end of the block of `sendListen:`. -/
def listenAnswered (c : FPersistentConnection) :
    Except String (FPersistentConnection × List (Int × String)) :=
  if c.unackedListensCount = 0 then throw "unackedListensCount decremented to be negative."
  else
    let c := { c with unackedListensCount := c.unackedListensCount - 1 }
    return if c.unackedListensCount = 0 then c.ackPuts else (c, [])

/-- `purgeOutstandingWrites`. -/
def purgeOutstandingWrites (c : FPersistentConnection) : FPersistentConnection × List (Int × String) :=
  let (c, acks) := c.ackPuts
  let canceled := c.outstandingPuts.map fun x => (x.2.onCompleteBlock, kFErrorWriteCanceled)
  ({ c with outstandingPuts := [] }, acks ++ canceled)

end FPersistentConnection

/-! ### What was sent, and what waits for an answer -/

/-- The block of a listen. -/
def FResponseBlock.isListen : FResponseBlock → Bool
  | .listen _ => true
  | _ => false

/-- The put that a block is for. -/
def FResponseBlock.put? : FResponseBlock → Option Nat
  | .put index => some index
  | _ => none

/-- The put of a request. -/
def FRequest.put? : FRequest → Option FOutstandingPut
  | .put outstanding => some outstanding
  | _ => none

namespace FPersistentConnection

variable {c c' d : FPersistentConnection} {sent sent' : List (FRequest × Option FResponseBlock)}

/-- The connection is there. -/
def Ready (c : FPersistentConnection) : Prop := ∃ conn, c.realtime = some conn ∧ conn.connected = true

/-- What was sent on the connection. -/
def requests (c : FPersistentConnection) : List FRequest :=
  (c.realtime.map fun conn => conn.sent.map Prod.snd).getD []

/-- The puts that were sent on it. -/
def sentPuts (c : FPersistentConnection) : List FOutstandingPut := c.requests.filterMap FRequest.put?

/-- The blocks that wait. -/
def blocks (c : FPersistentConnection) : List FResponseBlock := c.requestCBHash.map Prod.snd

/-- The puts that were sent and not answered. -/
def unanswered (c : FPersistentConnection) : List Nat := c.blocks.filterMap FResponseBlock.put?

/-- The blocks whose answers come in order. -/
def inOrder (c : FPersistentConnection) : List FResponseBlock :=
  c.blocks.filter fun block => !block.isListen

/-- Nobody but the connection itself is concerned. -/
structure Untouched (c c' : FPersistentConnection) : Prop where
  listens : c'.listens = c.listens
  outstandingPuts : c'.outstandingPuts = c.outstandingPuts
  putCounter : c'.putCounter = c.putCounter
  putsToAck : c'.putsToAck = c.putsToAck

theorem Untouched.trans (h : Untouched c d) (h' : Untouched d c') : Untouched c c' :=
  ⟨h'.listens.trans h.listens, h'.outstandingPuts.trans h.outstandingPuts,
    h'.putCounter.trans h.putCounter, h'.putsToAck.trans h.putsToAck⟩

/-- Requests were sent, and nothing else has changed. -/
structure Sends (c c' : FPersistentConnection) (sent : List (FRequest × Option FResponseBlock)) : Prop
    extends Untouched c c' where
  connectionState : c'.connectionState = c.connectionState
  ready : c'.Ready
  numbered : Counted (c.requestCBHash.map Prod.fst) c.requestNumber →
    Counted (c'.requestCBHash.map Prod.fst) c'.requestNumber
  requests : c'.requests = c.requests ++ sent.map Prod.fst
  blocks : c'.blocks = c.blocks ++ sent.filterMap Prod.snd
  balanced : ∀ answered, c.unackedListensCount = c.blocks.countP FResponseBlock.isListen + answered →
    c'.unackedListensCount = c'.blocks.countP FResponseBlock.isListen + answered

theorem sends_refl (h : c.Ready) : Sends c c [] where
  listens := rfl
  outstandingPuts := rfl
  putCounter := rfl
  putsToAck := rfl
  connectionState := rfl
  ready := h
  numbered := id
  requests := (List.append_nil _).symm
  blocks := (List.append_nil _).symm
  balanced := fun _ => id

theorem Sends.trans (h : Sends c d sent) (h' : Sends d c' sent') : Sends c c' (sent ++ sent') where
  toUntouched := h.toUntouched.trans h'.toUntouched
  connectionState := h'.connectionState.trans h.connectionState
  ready := h'.ready
  numbered := h'.numbered ∘ h.numbered
  requests := by rw [h'.requests, h.requests, List.map_append, List.append_assoc]
  blocks := by rw [h'.blocks, h.blocks, List.filterMap_append, List.append_assoc]
  balanced := fun answered => h'.balanced answered ∘ h.balanced answered

theorem Sends.canSendWrites (h : Sends c c' sent) : c'.canSendWrites = c.canSendWrites := by
  rw [FPersistentConnection.canSendWrites, FPersistentConnection.canSendWrites, h.connectionState]

theorem Sends.sentPuts (h : Sends c c' sent) :
    c'.sentPuts = c.sentPuts ++ sent.filterMap fun x => x.1.put? := by
  rw [FPersistentConnection.sentPuts, h.requests, List.filterMap_append, List.filterMap_map]
  rfl

theorem Sends.unanswered (h : Sends c c' sent) :
    c'.unanswered = c.unanswered ++ (sent.filterMap Prod.snd).filterMap FResponseBlock.put? := by
  rw [FPersistentConnection.unanswered, h.blocks, List.filterMap_append]
  rfl

theorem Sends.inOrder (h : Sends c c' sent) :
    c'.inOrder = c.inOrder ++ (sent.filterMap Prod.snd).filter fun block => !block.isListen := by
  rw [FPersistentConnection.inOrder, h.blocks, List.filter_append]
  rfl

/-- With a connection every request is sent. -/
theorem sendAction_of_ready {action : FRequest} {onMessage : Option FResponseBlock} {conn : FConnection}
    (hconn : c.realtime = some conn) (hready : conn.connected = true) :
    c.sendAction action onMessage = .ok { c with
      requestNumber := c.requestNumber + 1
      realtime := some { conn with sent := conn.sent ++ [(c.requestNumber, action)] }
      requestCBHash := c.requestCBHash ++ (onMessage.map fun block => (c.requestNumber, block)).toList } := by
  simp only [sendAction, hconn, FConnection.sendRequest, hready, if_true]
  rfl

theorem numbered_append (h : Counted (c.requestCBHash.map Prod.fst) c.requestNumber)
    (onMessage : Option FResponseBlock) :
    Counted ((c.requestCBHash ++ (onMessage.map fun block => (c.requestNumber, block)).toList).map Prod.fst)
      (c.requestNumber + 1) := by
  cases onMessage with
  | none => simpa using h.succ
  | some block => simpa using h.next

theorem exists_sendAction {action : FRequest} {onMessage : Option FResponseBlock} (h : c.Ready)
    (hblock : ∀ block ∈ onMessage, block.isListen = false) :
    ∃ c', c.sendAction action onMessage = .ok c' ∧ Sends c c' [(action, onMessage)] := by
  obtain ⟨conn, hconn, hready⟩ := h
  refine ⟨_, sendAction_of_ready hconn hready, ⟨rfl, rfl, rfl, rfl⟩, rfl, ⟨_, rfl, hready⟩,
    fun hnumbered => numbered_append hnumbered onMessage, ?_, ?_, fun answered hbalanced => ?_⟩
  · simp [requests, hconn]
  · cases onMessage <;> simp [blocks]
  · cases onMessage with
    | none => simpa [blocks] using hbalanced
    | some block =>
        have hnot : block.isListen = false := hblock block rfl
        simpa [blocks, hnot] using hbalanced

theorem sendListen_of_ready {listenSpec : FOutstandingQuery} {conn : FConnection}
    (hconn : c.realtime = some conn) (hready : conn.connected = true) :
    c.sendListen listenSpec = .ok { c with
      requestNumber := c.requestNumber + 1
      realtime := some { conn with sent := conn.sent ++ [(c.requestNumber, .listen listenSpec.query)] }
      requestCBHash := c.requestCBHash ++ [(c.requestNumber, .listen listenSpec)]
      unackedListensCount := c.unackedListensCount + 1 } := by
  rw [sendListen, sendAction_of_ready hconn hready]
  rfl

theorem exists_sendListen {listenSpec : FOutstandingQuery} (h : c.Ready) :
    ∃ c', c.sendListen listenSpec = .ok c' ∧
      Sends c c' [(.listen listenSpec.query, some (.listen listenSpec))] := by
  obtain ⟨conn, hconn, hready⟩ := h
  refine ⟨_, sendListen_of_ready hconn hready, ⟨rfl, rfl, rfl, rfl⟩, rfl, ⟨_, rfl, hready⟩,
    fun hnumbered => numbered_append hnumbered (some (.listen listenSpec)), ?_, ?_, fun answered hbalanced => ?_⟩
  · simp [requests, hconn]
  · simp [blocks]
  · simp only [blocks] at hbalanced ⊢
    simp [FResponseBlock.isListen, hbalanced, Nat.add_right_comm]

theorem exists_sendPut {index : Nat} {put : FOutstandingPut} (h : c.Ready) (hcan : c.canSendWrites = true)
    (hput : c.outstandingPuts.lookup index = some put) :
    ∃ c', c.sendPut index = .ok c' ∧ Sends c c' [(.put put, some (.put index))] := by
  have hblock : ∀ block ∈ some (FResponseBlock.put index), block.isListen = false := by
    rintro block ⟨⟩
    rfl
  obtain ⟨c', hrun, hsends⟩ := exists_sendAction h hblock
  refine ⟨c', ?_, hsends⟩
  rw [sendPut, if_neg (not_not.mpr hcan), hput]
  exact hrun

/-- One request after the other. -/
theorem exists_foldlM_sends {α : Type} {f : FPersistentConnection → α → Except String FPersistentConnection}
    (g : α → FRequest × Option FResponseBlock) {xs : List α}
    (hf : ∀ x ∈ xs, ∀ d sent, Sends c d sent → ∃ d', f d x = .ok d' ∧ Sends d d' [g x])
    (h : Sends c d sent) : ∃ c', xs.foldlM f d = .ok c' ∧ Sends c c' (sent ++ xs.map g) := by
  induction xs generalizing d sent with
  | nil => exact ⟨d, rfl, by rwa [List.map_nil, List.append_nil]⟩
  | cons x xs ih =>
      obtain ⟨d', hrun, hsends⟩ := hf x List.mem_cons_self d sent h
      obtain ⟨c', hrest, hall⟩ := ih (fun y hy => hf y (List.mem_cons_of_mem x hy)) (h.trans hsends)
      refine ⟨c', ?_, ?_⟩
      · rw [List.foldlM_cons, hrun]
        exact hrest
      · rwa [List.append_assoc, List.singleton_append] at hall

/-- What `restoreState` sends. -/
def restored (c : FPersistentConnection) : List (FRequest × Option FResponseBlock) :=
  (c.listens.map fun listenSpec => (.listen listenSpec.query, some (.listen listenSpec))) ++
    c.outstandingPuts.map fun x => (.put x.2, some (.put x.1))

theorem exists_restoreState (h : c.Ready) (hstate : c.connectionState = .connected)
    (hkeys : Counted (c.outstandingPuts.map Prod.fst) c.putCounter) :
    ∃ c', c.restoreState = .ok c' ∧ Sends c c' c.restored := by
  have hlisten : ∀ listenSpec ∈ c.listens, ∀ d sent, Sends c d sent → ∃ d', d.sendListen listenSpec = .ok d' ∧
      Sends d d' [(.listen listenSpec.query, some (.listen listenSpec))] :=
    fun listenSpec _ d sent hd => exists_sendListen hd.ready
  have hput : ∀ x ∈ c.outstandingPuts, ∀ d sent, Sends c d sent → ∃ d', d.sendPut x.1 = .ok d' ∧
      Sends d d' [(.put x.2, some (.put x.1))] := fun x hx d sent hd =>
    exists_sendPut hd.ready (hd.canSendWrites.trans (decide_eq_true hstate))
      (by rw [hd.outstandingPuts]; exact hkeys.lookup_of_mem hx)
  obtain ⟨d, hlistens, hsends⟩ := exists_foldlM_sends _ hlisten (sends_refl h)
  obtain ⟨c', hputs, hall⟩ := exists_foldlM_sends _ hput hsends
  refine ⟨c', ?_, hall⟩
  rw [restoreState, if_neg (not_not.mpr hstate)]
  show (c.listens.foldlM sendListen c >>= fun c => (c.outstandingPuts.map Prod.fst).foldlM sendPut c) = _
  rw [hlistens, ← hputs]
  show (d.outstandingPuts.map Prod.fst).foldlM sendPut d = _
  rw [hsends.outstandingPuts, List.foldlM_map]

/-! ### The invariant -/

/-- The numbers and the blocks are in order. While the connection authenticates, the state
is restored after the first answer, and only then. A listen was answered, perhaps, and is
still counted. -/
structure Orderly (answered : Nat) (c : FPersistentConnection) : Prop where
  numbered : Counted (c.requestCBHash.map Prod.fst) c.requestNumber
  keys : Counted (c.outstandingPuts.map Prod.fst) c.putCounter
  asked : Counted c.unanswered c.putCounter
  balanced : c.unackedListensCount = c.blocks.countP FResponseBlock.isListen + answered
  opened : c.connectionState = .connecting → c.realtime.isSome = true
  ready : c.connected = true → c.Ready
  offline : c.connected = false → c.requestCBHash = []
  restores : ∃ rest, .auth true ∉ rest ∧
    c.inOrder = (if c.connectionState = .authenticating then [.auth true] else []) ++ rest

/-- Puts are sent when the connection is there again. The ones without an answer are the
last that were sent on it, in their order, and a block waits for the answer to each. -/
structure Sound (answered : Nat) (c : FPersistentConnection) : Prop extends Orderly answered c where
  unsent : c.canSendWrites = false → c.unanswered = [] ∧ c.sentPuts = []
  sent : c.canSendWrites = true → c.outstandingPuts.map Prod.fst <:+ c.unanswered ∧
    c.outstandingPuts.map Prod.snd <:+ c.sentPuts
  held : c.canSendWrites = true → c.unackedListensCount = 0 → c.putsToAck = []

/-- What is listened to was asked for on this connection. -/
structure Listening (c : FPersistentConnection) : Prop where
  nodup : (c.listens.map FOutstandingQuery.query).Nodup
  sent : c.canSendWrites = true → ∀ listenSpec ∈ c.listens, .listen listenSpec.query ∈ c.requests

variable {answered : Nat}

theorem connected_of_canSendWrites (h : c.canSendWrites = true) : c.connected = true := by
  rw [connected, of_decide_eq_true h]
  rfl

/-- Before there is a connection nothing was sent. -/
theorem sound_of_quiet (hkeys : Counted (c.outstandingPuts.map Prod.fst) c.putCounter)
    (hblocks : c.requestCBHash = []) (hunacked : c.unackedListensCount = 0) (hsent : c.sentPuts = [])
    (hopened : c.connectionState = .connecting → c.realtime.isSome = true) (hconn : c.connected = false) :
    c.Sound 0 := by
  have hcannot : c.canSendWrites = false := by
    by_contra h
    rw [connected_of_canSendWrites (by simpa using h)] at hconn
    cases hconn
  have hnot : c.connectionState ≠ .authenticating := fun hstate => by
    rw [connected, hstate] at hconn
    cases hconn
  have hnone : c.unanswered = [] := by simp [unanswered, blocks, hblocks]
  exact {
    numbered := by simpa [hblocks] using counted_nil _
    keys := hkeys
    asked := hnone ▸ counted_nil _
    balanced := by simp [hunacked, blocks, hblocks]
    opened := hopened
    ready := fun h => by rw [hconn] at h; cases h
    offline := fun _ => hblocks
    restores := ⟨[], by simp, by simp [inOrder, blocks, hblocks, hnot]⟩
    unsent := fun _ => ⟨hnone, hsent⟩
    sent := fun h => by rw [hcannot] at h; cases h
    held := fun h => by rw [hcannot] at h; cases h }

/-- Requests are sent on a connection. -/
theorem Orderly.of_sends (h : c.Orderly answered) (hsends : Sends c c' sent) (hconn : c.connected = true)
    (hasked : Counted c'.unanswered c.putCounter) (hauth : .auth true ∉ sent.filterMap Prod.snd) :
    c'.Orderly answered := by
  have hconn' : c'.connected = c.connected := by
    rw [connected, connected, hsends.connectionState]
  obtain ⟨rest, hrest, heq⟩ := h.restores
  exact {
    numbered := hsends.numbered h.numbered
    keys := by rw [hsends.outstandingPuts, hsends.putCounter]; exact h.keys
    asked := by rw [hsends.putCounter]; exact hasked
    balanced := hsends.balanced answered h.balanced
    opened := fun _ => by obtain ⟨conn, hsome, -⟩ := hsends.ready; rw [hsome]; rfl
    ready := fun _ => hsends.ready
    offline := fun hnot => by rw [hconn', hconn] at hnot; cases hnot
    restores := by
      refine ⟨rest ++ (sent.filterMap Prod.snd).filter fun block => !block.isListen, ?_, ?_⟩
      · rw [List.mem_append, not_or]
        exact ⟨hrest, fun hmem => hauth (List.mem_of_mem_filter hmem)⟩
      · rw [hsends.inOrder, heq, hsends.connectionState, List.append_assoc] }

/-- Neither a put nor what restores the state. -/
def Plain (x : FRequest × Option FResponseBlock) : Prop :=
  x.1.put? = none ∧ ∀ block ∈ x.2, block.put? = none ∧ block ≠ .auth true

/-- Plain requests are sent on a connection. -/
theorem Sound.of_sends (h : c.Sound answered) (hsends : Sends c c' sent) (hconn : c.connected = true)
    (hplain : ∀ x ∈ sent, Plain x) : c'.Sound answered := by
  have hblock : ∀ block ∈ sent.filterMap Prod.snd, block.put? = none ∧ block ≠ .auth true := by
    intro block hmem
    obtain ⟨x, hx, hsome⟩ := List.mem_filterMap.mp hmem
    exact (hplain x hx).2 block hsome
  have hunanswered : c'.unanswered = c.unanswered := by
    rw [hsends.unanswered, List.filterMap_eq_nil_iff.mpr fun block hmem => (hblock block hmem).1,
      List.append_nil]
  have hputs : c'.sentPuts = c.sentPuts := by
    rw [hsends.sentPuts, List.filterMap_eq_nil_iff.mpr fun x hx => (hplain x hx).1, List.append_nil]
  have hbalanced := hsends.balanced answered h.balanced
  refine ⟨h.toOrderly.of_sends hsends hconn (hunanswered ▸ h.asked) fun hmem => (hblock _ hmem).2 rfl,
    fun hcan => ?_, fun hcan => ?_, fun hcan hzero => ?_⟩
  · rw [hunanswered, hputs]
    exact h.unsent (hsends.canSendWrites ▸ hcan)
  · rw [hunanswered, hputs, hsends.outstandingPuts]
    exact h.sent (hsends.canSendWrites ▸ hcan)
  · rw [hsends.putsToAck]
    refine h.held (hsends.canSendWrites ▸ hcan) ?_
    rw [h.balanced]
    rw [hzero, hsends.blocks, List.countP_append] at hbalanced
    omega

theorem Listening.of_sends (h : c.Listening) (hsends : Sends c c' sent) : c'.Listening where
  nodup := hsends.listens ▸ h.nodup
  sent := fun hcan listenSpec hmem => by
    rw [hsends.requests]
    exact List.mem_append_left _
      (h.sent (hsends.canSendWrites ▸ hcan) listenSpec (hsends.listens ▸ hmem))

/-! ### Connections come and go -/

/-- There is a listen whose answer lets go of what is held back, or nothing is. -/
def Restorable (c : FPersistentConnection) : Prop := c.putsToAck = [] ∨ c.listens ≠ []

/-- **The state is restored**: the listens are sent, and then the puts, in their order. -/
theorem Orderly.restoreState (h : c.Orderly 0) (hstate : c.connectionState = .connected)
    (hnone : c.unanswered = []) (hunsent : c.sentPuts = []) (hrestorable : c.Restorable)
    (hnodup : (c.listens.map FOutstandingQuery.query).Nodup) :
    ∃ c', c.restoreState = .ok c' ∧ c'.Sound 0 ∧ c'.Listening ∧ Untouched c c' ∧
      c'.sentPuts = c.outstandingPuts.map Prod.snd := by
  have hcan : c.canSendWrites = true := decide_eq_true hstate
  have hconn := connected_of_canSendWrites hcan
  obtain ⟨c', hrun, hsends⟩ := exists_restoreState (h.ready hconn) hstate h.keys
  have hblocks : c.restored.filterMap Prod.snd = c.listens.map FResponseBlock.listen ++
      c.outstandingPuts.map fun x => FResponseBlock.put x.1 := by
    simp [restored, List.filterMap_map, List.filterMap_eq_map']
  have hunanswered : c'.unanswered = c.outstandingPuts.map Prod.fst := by
    rw [hsends.unanswered, hnone, hblocks]
    simp [List.filterMap_map, Function.comp_def, FResponseBlock.put?, List.filterMap_eq_map']
  have hputs : c'.sentPuts = c.outstandingPuts.map Prod.snd := by
    rw [hsends.sentPuts, hunsent]
    simp [restored, List.filterMap_map, FRequest.put?, List.filterMap_eq_map']
  have hbalanced := hsends.balanced 0 h.balanced
  refine ⟨c', hrun, ⟨h.of_sends hsends hconn (hunanswered ▸ h.keys) (by simp [hblocks]), fun hnot => ?_,
    fun _ => ?_, fun _ hzero => ?_⟩, ⟨hsends.listens ▸ hnodup, fun _ listenSpec hmem => ?_⟩,
    hsends.toUntouched, hputs⟩
  · rw [hsends.canSendWrites, hcan] at hnot
    cases hnot
  · rw [hunanswered, hputs, hsends.outstandingPuts]
    exact ⟨List.suffix_refl _, List.suffix_refl _⟩
  · -- every listen waits for its answer
    rw [hsends.putsToAck]
    refine hrestorable.resolve_right (not_not.mpr ?_)
    rw [hzero, hsends.blocks, hblocks, List.countP_append, List.countP_append, List.countP_map] at hbalanced
    have hlength : c.listens.countP (FResponseBlock.isListen ∘ FResponseBlock.listen) = c.listens.length :=
      List.countP_eq_length.mpr fun _ _ => rfl
    exact List.eq_nil_of_length_eq_zero (by omega)
  · rw [hsends.requests, restored, List.map_append, List.map_map]
    rw [hsends.listens] at hmem
    exact List.mem_append_right _ (List.mem_append_left _ (List.mem_map_of_mem hmem))

/-- What an event leaves alone, and which puts were sent after it. -/
structure Keeps (c c' : FPersistentConnection) : Prop extends Untouched c c' where
  sentPuts : c'.sentPuts = c.sentPuts ∨ c'.sentPuts = [] ∨ c'.sentPuts = c.outstandingPuts.map Prod.snd

/-- The events that the network brings, and the state is restored only when it can be. -/
def Expected (c : FPersistentConnection) : ConnectionEvent → Prop
  | .tryScheduleReconnect => c.connectionState = .disconnected
  | .openNetworkConnection _ => c.connectionState = .gettingToken
  | .onReady => c.connectionState = .connecting ∧ (c.authToken = none → c.Restorable)
  | _ => True

theorem sound_onDisconnect (hkeys : Counted (c.outstandingPuts.map Prod.fst) c.putCounter)
    (hnodup : (c.listens.map FOutstandingQuery.query).Nodup) :
    c.onDisconnect.Sound 0 ∧ c.onDisconnect.Listening ∧ Keeps c c.onDisconnect :=
  ⟨sound_of_quiet hkeys rfl rfl rfl nofun rfl, ⟨hnodup, nofun⟩, ⟨rfl, rfl, rfl, rfl⟩, Or.inr (Or.inl rfl)⟩

/-- Without a connection there is nothing to close. -/
theorem Sound.close (h : c.Sound 0) (hlistening : c.Listening) :
    c.close.Sound 0 ∧ c.close.Listening ∧ Keeps c c.close := by
  unfold FPersistentConnection.close
  split
  · exact sound_onDisconnect h.keys hlistening.nodup
  · exact ⟨h, hlistening, ⟨rfl, rfl, rfl, rfl⟩, Or.inl rfl⟩

theorem Sound.offline_eq (h : c.Sound 0) (hconn : c.connected = false) :
    c.requestCBHash = [] ∧ c.unackedListensCount = 0 ∧ c.sentPuts = [] := by
  have hblocks := h.offline hconn
  have hcannot : c.canSendWrites = false := by
    by_contra hcan
    rw [connected_of_canSendWrites (by simpa using hcan)] at hconn
    cases hconn
  refine ⟨hblocks, ?_, (h.unsent hcannot).2⟩
  rw [h.balanced, blocks, hblocks]
  rfl

theorem sendAuth_of_token {restore : Bool} {credential : String} (hconn : c.connected = true)
    (htoken : c.authToken = some credential) :
    c.sendAuth restore = c.sendAction (.auth credential) (some (.auth restore)) := by
  rw [sendAuth, if_neg (not_not.mpr hconn), htoken]

/-- The token is sent on the new connection, and the state waits for the answer. -/
theorem Sound.sendAuth (h : c.Sound 0) (hlistening : c.Listening) (hconn : c.connected = false)
    (htoken : c.authToken ≠ none) (conn : FConnection) (hready : conn.connected = true)
    (hsent : (conn.sent.map Prod.snd).filterMap FRequest.put? = []) :
    ∃ c', FPersistentConnection.sendAuth
        { c with realtime := some conn, connectionState := .authenticating } true = .ok c' ∧
      c'.Sound 0 ∧ c'.Listening ∧ Untouched c c' ∧ c'.sentPuts = [] := by
  obtain ⟨hblocks, hunacked, -⟩ := h.offline_eq hconn
  obtain ⟨credential, htoken⟩ := Option.ne_none_iff_exists'.mp htoken
  obtain ⟨c', hrun, hsends⟩ : ∃ c', FPersistentConnection.sendAction
      { c with realtime := some conn, connectionState := .authenticating }
      (.auth credential) (some (.auth true)) = .ok c' ∧ Sends _ c' _ := by
    refine exists_sendAction ⟨conn, rfl, hready⟩ ?_
    rintro block ⟨⟩
    rfl
  have hall : c'.blocks = [.auth true] := by
    rw [hsends.blocks, blocks, hblocks]
    rfl
  have hunanswered : c'.unanswered = [] := by simp [unanswered, hall, FResponseBlock.put?]
  have hputs : c'.sentPuts = [] := by
    rw [hsends.sentPuts, sentPuts, requests]
    simpa [FRequest.put?] using hsent
  have hcannot : c'.canSendWrites = false := hsends.canSendWrites
  refine ⟨c', ?_, ⟨⟨hsends.numbered h.numbered, ?_, hunanswered ▸ counted_nil _, ?_, ?_, fun _ => hsends.ready,
    ?_, ⟨[], by simp, ?_⟩⟩, fun _ => ⟨hunanswered, hputs⟩, ?_, ?_⟩, ⟨hsends.listens ▸ hlistening.nodup, ?_⟩,
    ⟨hsends.listens, hsends.outstandingPuts, hsends.putCounter, hsends.putsToAck⟩, hputs⟩
  · have hsend : FPersistentConnection.sendAuth
        { c with realtime := some conn, connectionState := .authenticating } true = _ :=
      sendAuth_of_token rfl htoken
    exact hsend.trans hrun
  · rw [hsends.outstandingPuts, hsends.putCounter]
    exact h.keys
  · refine hsends.balanced 0 ?_
    simp [blocks, hblocks, hunacked]
  · rw [hsends.connectionState]
    nofun
  · rw [connected, hsends.connectionState]
    nofun
  · rw [FPersistentConnection.inOrder, hall, hsends.connectionState]
    rfl
  · rw [hcannot]
    nofun
  · rw [hcannot]
    nofun
  · rw [hcannot]
    nofun

/-- A connection is there, and its state is restored, perhaps after an answer. -/
theorem Sound.onReady (h : c.Sound 0) (hlistening : c.Listening) (hstate : c.connectionState = .connecting)
    (hrestorable : c.authToken = none → c.Restorable) :
    ∃ c', c.onReady = .ok c' ∧ c'.Sound 0 ∧ c'.Listening ∧ Keeps c c' := by
  have hconn : c.connected = false := by rw [connected, hstate]; rfl
  obtain ⟨hblocks, -, hputs⟩ := h.offline_eq hconn
  obtain ⟨conn, hsome⟩ := Option.isSome_iff_exists.mp (h.opened hstate)
  have hsent : (conn.sent.map Prod.snd).filterMap FRequest.put? = [] := by
    rw [sentPuts, requests, hsome] at hputs
    exact hputs
  unfold FPersistentConnection.onReady restoreAuth
  rw [if_neg (not_not.mpr hstate), hsome]
  by_cases htoken : c.authToken = none
  · rw [if_pos htoken]
    have horderly : Orderly 0 { c with
        realtime := some { conn with connected := true }, connectionState := .connected } := {
      numbered := h.numbered
      keys := h.keys
      asked := h.asked
      balanced := h.balanced
      opened := fun _ => rfl
      ready := fun _ => ⟨_, rfl, rfl⟩
      offline := fun _ => hblocks
      restores := ⟨[], by simp, by simp [inOrder, blocks, hblocks]⟩ }
    obtain ⟨c', hrun, hsound, hlistening', huntouched, hsentPuts⟩ := horderly.restoreState rfl
      (by simp [unanswered, blocks, hblocks]) hsent (hrestorable htoken) hlistening.nodup
    exact ⟨c', hrun, hsound, hlistening', ⟨huntouched.listens, huntouched.outstandingPuts,
      huntouched.putCounter, huntouched.putsToAck⟩, Or.inr (Or.inr hsentPuts)⟩
  · rw [if_neg htoken]
    obtain ⟨c', hrun, hsound, hlistening', huntouched, hsentPuts⟩ :=
      h.sendAuth hlistening hconn htoken { conn with connected := true } rfl hsent
    exact ⟨c', hrun, hsound, hlistening', huntouched, Or.inr (Or.inl hsentPuts)⟩

/-- A token is sent as long as there is a connection. -/
theorem Sound.refreshAuthToken (h : c.Sound 0) (hlistening : c.Listening) (token : Option String) :
    ∃ c', c.refreshAuthToken token = .ok c' ∧ c'.Sound 0 ∧ c'.Listening ∧ Keeps c c' := by
  have hsound : Sound 0 { c with authToken := token } :=
    ⟨⟨h.numbered, h.keys, h.asked, h.balanced, h.opened, h.ready, h.offline, h.restores⟩, h.unsent, h.sent, h.held⟩
  have hlistening' : Listening { c with authToken := token } := ⟨hlistening.nodup, hlistening.sent⟩
  by_cases hconn : c.connected = true
  · obtain ⟨request, onMessage, hplain, hblock, heq⟩ : ∃ request onMessage, Plain (request, onMessage) ∧
        (∀ block ∈ onMessage, block.isListen = false) ∧
        c.refreshAuthToken token = sendAction { c with authToken := token } request onMessage := by
      have hrefresh : c.refreshAuthToken token = if token ≠ none then
          FPersistentConnection.sendAuth { c with authToken := token } false
        else sendAction { c with authToken := token } .unauth none := if_pos hconn
      cases token with
      | some credential =>
          refine ⟨.auth credential, some (.auth false), by simp [Plain, FRequest.put?, FResponseBlock.put?],
            by simp [FResponseBlock.isListen], ?_⟩
          rw [hrefresh, if_pos (by simp)]
          exact sendAuth_of_token hconn rfl
      | none => exact ⟨.unauth, none, by simp [Plain, FRequest.put?], by simp, hrefresh⟩
    obtain ⟨c', hrun, hsends⟩ := exists_sendAction (hsound.ready hconn) hblock
    refine ⟨c', heq.trans hrun, hsound.of_sends hsends hconn (by simpa using hplain), hlistening'.of_sends hsends,
      ⟨hsends.listens, hsends.outstandingPuts, hsends.putCounter, hsends.putsToAck⟩, Or.inl ?_⟩
    rw [hsends.sentPuts, List.filterMap_cons, hplain.1]
    exact List.append_nil _
  · exact ⟨_, if_neg hconn, hsound, hlistening', ⟨rfl, rfl, rfl, rfl⟩, Or.inl rfl⟩

/-- **The connection comes and goes**, and no event that is expected fails. -/
theorem Sound.step (h : c.Sound 0) (hlistening : c.Listening) {event : ConnectionEvent}
    (hexpected : c.Expected event) :
    ∃ c', c.step event = .ok c' ∧ c'.Sound 0 ∧ c'.Listening ∧ Keeps c c' := by
  have hquiet : ∀ state token realtime, c.connected = false → sentPuts { c with realtime } = [] →
      FPersistentConnection.connected { c with connectionState := state } = false →
      (state = .connecting → realtime.isSome = true) →
      Sound 0 { c with connectionState := state, authToken := token, realtime } ∧
        Listening { c with connectionState := state, authToken := token, realtime } := by
    intro state token realtime hconn hsent hstate hopened
    obtain ⟨hblocks, hunacked, -⟩ := h.offline_eq hconn
    refine ⟨sound_of_quiet h.keys hblocks hunacked hsent hopened hstate, hlistening.nodup, fun hcan => ?_⟩
    have hconn' := connected_of_canSendWrites hcan
    exact absurd (hstate.symm.trans hconn') (by simp)
  cases event with
  | tryScheduleReconnect =>
      have hconn : c.connected = false := by rw [connected, hexpected]; rfl
      obtain ⟨hsound, hlistening'⟩ := hquiet .gettingToken c.authToken c.realtime hconn
        (h.offline_eq hconn).2.2 rfl nofun
      exact ⟨_, if_neg (not_not.mpr hexpected), hsound, hlistening', ⟨rfl, rfl, rfl, rfl⟩, Or.inl rfl⟩
  | openNetworkConnection token =>
      have hconn : c.connected = false := by rw [connected, hexpected]; rfl
      obtain ⟨hsound, hlistening'⟩ := hquiet .connecting token (some ⟨false, []⟩) hconn rfl rfl fun _ => rfl
      exact ⟨_, if_neg (not_not.mpr hexpected), hsound, hlistening', ⟨rfl, rfl, rfl, rfl⟩, Or.inr (Or.inl rfl)⟩
  | onReady => exact h.onReady hlistening hexpected.1 hexpected.2
  | onDisconnect => exact ⟨_, rfl, sound_onDisconnect h.keys hlistening.nodup⟩
  | onAuthRevoked =>
      have hsound : Sound 0 { c with authToken := none } :=
        ⟨⟨h.numbered, h.keys, h.asked, h.balanced, h.opened, h.ready, h.offline, h.restores⟩, h.unsent,
          h.sent, h.held⟩
      obtain ⟨hsound', hlistening', hkeeps⟩ := hsound.close ⟨hlistening.nodup, hlistening.sent⟩
      exact ⟨_, rfl, hsound', hlistening', ⟨hkeeps.listens, hkeeps.outstandingPuts, hkeeps.putCounter,
        hkeeps.putsToAck⟩, hkeeps.sentPuts⟩
  | interruptForReason =>
      refine ⟨_, rfl, ?_⟩
      unfold FPersistentConnection.interruptForReason
      by_cases hsome : c.realtime.isSome = true
      · rw [if_pos hsome]
        exact h.close hlistening
      · rw [if_neg hsome]
        have hconn : c.connected = false := by
          by_contra hconn
          obtain ⟨conn, hreal, -⟩ := h.ready (by simpa using hconn)
          rw [hreal] at hsome
          exact hsome rfl
        obtain ⟨hsound, hlistening'⟩ := hquiet .disconnected c.authToken c.realtime hconn
          (h.offline_eq hconn).2.2 rfl nofun
        exact ⟨hsound, hlistening', ⟨rfl, rfl, rfl, rfl⟩, Or.inl rfl⟩
  | refreshAuthToken token => exact h.refreshAuthToken hlistening token

/-! ### Listens and puts -/

/-- The places that are listened to. -/
def queries (c : FPersistentConnection) : List Path := c.listens.map FOutstandingQuery.query

/-- No put is concerned. -/
structure SamePuts (c c' : FPersistentConnection) : Prop where
  outstandingPuts : c'.outstandingPuts = c.outstandingPuts
  putsToAck : c'.putsToAck = c.putsToAck
  sentPuts : c'.sentPuts = c.sentPuts

theorem SamePuts.trans (h : SamePuts c d) (h' : SamePuts d c') : SamePuts c c' :=
  ⟨h'.outstandingPuts.trans h.outstandingPuts, h'.putsToAck.trans h.putsToAck,
    h'.sentPuts.trans h.sentPuts⟩

theorem Sound.with_listens (h : c.Sound answered) (listens : List FOutstandingQuery) (objects : Nat) :
    Sound answered { c with listens, objects } :=
  ⟨⟨h.numbered, h.keys, h.asked, h.balanced, h.opened, h.ready, h.offline, h.restores⟩, h.unsent,
    h.sent, h.held⟩

theorem Sound.listen (h : c.Sound answered) (hlistening : c.Listening) {query : Path}
    (hnew : query ∉ c.queries) : ∃ c', c.listen query = .ok c' ∧ c'.Sound answered ∧ c'.Listening ∧
      SamePuts c c' ∧ c'.queries = c.queries ++ [query] := by
  have hnone : ¬ (c.listens.any fun outstanding => outstanding.query = query) = true := by
    simpa [queries] using hnew
  have hsound := h.with_listens (c.listens ++ [⟨query, c.objects⟩]) (c.objects + 1)
  have hqueries : (c.listens ++ [(⟨query, c.objects⟩ : FOutstandingQuery)]).map FOutstandingQuery.query =
      c.queries ++ [query] := List.map_append
  have hnodup : (c.queries ++ [query]).Nodup := List.nodup_append'.mpr
    ⟨hlistening.nodup, List.nodup_singleton _, fun p hp hq => hnew (List.mem_singleton.mp hq ▸ hp)⟩
  unfold FPersistentConnection.listen
  rw [if_neg hnone]
  by_cases hconn : c.connected = true
  · obtain ⟨c', hrun, hsends⟩ := exists_sendListen (hsound.ready hconn)
    refine ⟨c', (if_pos hconn).trans hrun, hsound.of_sends hsends hconn
      (by simp [Plain, FRequest.put?, FResponseBlock.put?]), ⟨?_, fun hcan listenSpec hmem => ?_⟩,
      ⟨hsends.outstandingPuts, hsends.putsToAck, ?_⟩, ?_⟩
    · rwa [hsends.listens, hqueries]
    · rw [hsends.listens] at hmem
      rw [hsends.requests]
      rcases List.mem_append.mp hmem with hmem | hmem
      · exact List.mem_append_left _ (hlistening.sent (hsends.canSendWrites ▸ hcan) listenSpec hmem)
      · rw [List.mem_singleton.mp hmem]
        exact List.mem_append_right _ (List.mem_singleton.mpr rfl)
    · rw [hsends.sentPuts]
      exact List.append_nil _
    · rw [queries, hsends.listens, hqueries]
  · refine ⟨_, if_neg hconn, hsound, ⟨hqueries ▸ hnodup, fun hcan => ?_⟩, ⟨rfl, rfl, rfl⟩, hqueries⟩
    exact absurd (connected_of_canSendWrites hcan) hconn

theorem Listening.removeListen (h : c.Listening) (query : Path) : (c.removeListen query).Listening where
  nodup := h.nodup.sublist (List.filter_sublist.map _)
  sent := fun hcan listenSpec hmem => h.sent hcan listenSpec (List.mem_of_mem_filter hmem)

theorem queries_removeListen (query : Path) :
    (c.removeListen query).queries = c.queries.filter fun p => p ≠ query := by
  simp [queries, removeListen, List.filter_map, Function.comp_def]

theorem Sound.unlisten (h : c.Sound answered) (hlistening : c.Listening) (query : Path) :
    ∃ c', c.unlisten query = .ok c' ∧ c'.Sound answered ∧ c'.Listening ∧ SamePuts c c' ∧
      c'.queries = c.queries.filter fun p => p ≠ query := by
  have hsound : (c.removeListen query).Sound answered := h.with_listens _ c.objects
  have hlistening' := hlistening.removeListen query
  unfold FPersistentConnection.unlisten
  dsimp only
  split
  · next hconn =>
      obtain ⟨c', hrun, hsends⟩ : ∃ c', (c.removeListen query).sendAction (.unlisten query) none = .ok c' ∧
          Sends _ c' [(.unlisten query, none)] := exists_sendAction (hsound.ready hconn.2) nofun
      refine ⟨c', hrun, hsound.of_sends hsends hconn.2 (by simp [Plain, FRequest.put?]),
        hlistening'.of_sends hsends, ⟨hsends.outstandingPuts, hsends.putsToAck, ?_⟩, ?_⟩
      · rw [hsends.sentPuts]
        exact List.append_nil _
      · rw [queries, hsends.listens]
        exact queries_removeListen query
  · exact ⟨_, rfl, hsound, hlistening', ⟨rfl, rfl, rfl⟩, queries_removeListen query⟩

theorem Sound.exists_foldlM_listen {ps : List Path} (h : c.Sound answered) (hlistening : c.Listening)
    (hnodup : (c.queries ++ ps).Nodup) : ∃ c', ps.foldlM FPersistentConnection.listen c = .ok c' ∧
      c'.Sound answered ∧ c'.Listening ∧ SamePuts c c' ∧ c'.queries = c.queries ++ ps := by
  induction ps generalizing c with
  | nil => exact ⟨c, rfl, h, hlistening, ⟨rfl, rfl, rfl⟩, (List.append_nil _).symm⟩
  | cons p ps ih =>
      have hnew : p ∉ c.queries := fun hmem =>
        (List.nodup_append'.mp hnodup).2.2 hmem List.mem_cons_self
      obtain ⟨d, hrun, hsound, hlistening', hsame, hqueries⟩ := h.listen hlistening hnew
      obtain ⟨c', hrest, hsound', hlistening'', hsame', hqueries'⟩ := ih hsound hlistening'
        (by rwa [hqueries, List.append_assoc])
      refine ⟨c', ?_, hsound', hlistening'', hsame.trans hsame', ?_⟩
      · rw [List.foldlM_cons, hrun]
        exact hrest
      · rw [hqueries', hqueries, List.append_assoc]
        rfl

theorem Sound.exists_foldlM_unlisten {ps : List Path} (h : c.Sound answered) (hlistening : c.Listening) :
    ∃ c', ps.foldlM FPersistentConnection.unlisten c = .ok c' ∧ c'.Sound answered ∧ c'.Listening ∧
      SamePuts c c' ∧ ∀ p, p ∈ c'.queries ↔ p ∈ c.queries ∧ p ∉ ps := by
  induction ps generalizing c with
  | nil => exact ⟨c, rfl, h, hlistening, ⟨rfl, rfl, rfl⟩, by simp⟩
  | cons p ps ih =>
      obtain ⟨d, hrun, hsound, hlistening', hsame, hqueries⟩ := h.unlisten hlistening p
      obtain ⟨c', hrest, hsound', hlistening'', hsame', hqueries'⟩ := ih hsound hlistening'
      refine ⟨c', ?_, hsound', hlistening'', hsame.trans hsame', fun q => ?_⟩
      · rw [List.foldlM_cons, hrun]
        exact hrest
      · rw [hqueries', hqueries, List.mem_filter, List.mem_cons, not_or, and_assoc]
        simp

/-- A put is sent when the connection is there, and else it waits for it. -/
theorem Sound.putInternal (h : c.Sound 0) (hlistening : c.Listening) (put : FOutstandingPut) :
    ∃ c', c.putInternal put = .ok c' ∧ c'.Sound 0 ∧ c'.Listening ∧ c'.listens = c.listens ∧
      c'.putsToAck = c.putsToAck ∧ c'.outstandingPuts.map Prod.snd = c.outstandingPuts.map Prod.snd ++ [put] ∧
      (c'.sentPuts = c.sentPuts ∨ c'.sentPuts = c.sentPuts ++ [put]) := by
  have hkeys : Counted ((c.outstandingPuts ++ [(c.putCounter, put)]).map Prod.fst) (c.putCounter + 1) := by
    rw [List.map_append]
    exact h.keys.next
  have horderly : Orderly 0 { c with
      putCounter := c.putCounter + 1, outstandingPuts := c.outstandingPuts ++ [(c.putCounter, put)] } :=
    ⟨h.numbered, hkeys, h.asked.succ, h.balanced, h.opened, h.ready, h.offline, h.restores⟩
  have hlistening' : Listening { c with
      putCounter := c.putCounter + 1, outstandingPuts := c.outstandingPuts ++ [(c.putCounter, put)] } :=
    ⟨hlistening.nodup, hlistening.sent⟩
  by_cases hcan : c.canSendWrites = true
  · have hconn := connected_of_canSendWrites hcan
    obtain ⟨c', hrun, hsends⟩ : ∃ c', FPersistentConnection.sendPut { c with
        putCounter := c.putCounter + 1, outstandingPuts := c.outstandingPuts ++ [(c.putCounter, put)] }
        c.putCounter = .ok c' ∧ Sends _ c' [(.put put, some (.put c.putCounter))] :=
      exists_sendPut (horderly.ready hconn) hcan (hkeys.lookup_of_mem (by simp))
    have hunanswered : c'.unanswered = c.unanswered ++ [c.putCounter] := hsends.unanswered
    have hputs : c'.sentPuts = c.sentPuts ++ [put] := hsends.sentPuts
    have hunacked : c'.unackedListensCount = c.unackedListensCount := by
      rw [hsends.balanced 0 h.balanced, hsends.blocks, List.countP_append, h.balanced]
      rfl
    obtain ⟨⟨us, hus⟩, ⟨ps, hps⟩⟩ := h.sent hcan
    refine ⟨c', (if_pos hcan).trans hrun, ⟨horderly.of_sends hsends hconn (hunanswered ▸ h.asked.next)
      (by simp), fun hnot => ?_, fun _ => ⟨⟨us, ?_⟩, ⟨ps, ?_⟩⟩, fun _ hzero => ?_⟩, hlistening'.of_sends hsends,
      hsends.listens, hsends.putsToAck, ?_, Or.inr hputs⟩
    · rw [hsends.canSendWrites] at hnot
      exact absurd (hcan.symm.trans hnot) (by simp)
    · rw [hunanswered, hsends.outstandingPuts, List.map_append, ← List.append_assoc, hus]
      rfl
    · rw [hputs, hsends.outstandingPuts, List.map_append, ← List.append_assoc, hps]
      rfl
    · exact hsends.putsToAck.trans (h.held hcan (hunacked ▸ hzero))
    · rw [hsends.outstandingPuts, List.map_append]
      rfl
  · refine ⟨_, if_neg hcan, ⟨horderly, h.unsent, fun h => absurd h hcan, fun h => absurd h hcan⟩, hlistening',
      rfl, rfl, ?_, Or.inl rfl⟩
    rw [List.map_append]
    rfl

/-! ### Responses -/

/-- The server answers in order. It may answer a listen earlier. -/
def InOrder (c : FPersistentConnection) (rn : Nat) : Prop :=
  ∀ block, c.requestCBHash.lookup rn = some block → block.isListen = false →
    ∀ x ∈ c.requestCBHash, x.1 < rn → x.2.isListen = true

/-- A block is taken out. -/
theorem exists_of_takeBlock {rn : Nat} {block : FResponseBlock}
    (hnumbered : Counted (c.requestCBHash.map Prod.fst) c.requestNumber)
    (htake : c.takeBlock rn = some (block, d)) : ∃ as bs, c.requestCBHash = as ++ (rn, block) :: bs ∧
      d = { c with requestCBHash := as ++ bs } ∧
      (c.InOrder rn → block.isListen = false → ∀ x ∈ as, x.2.isListen = true) := by
  rw [takeBlock, Option.map_eq_some_iff] at htake
  obtain ⟨found, hlookup, heq⟩ := htake
  cases heq
  obtain ⟨as, bs, hall, hrest, hless⟩ := hnumbered.exists_of_lookup hlookup
  refine ⟨as, bs, hall, by rw [hrest], fun hin hnot x hx => ?_⟩
  exact hin block hlookup hnot x (by rw [hall]; exact List.mem_append_left _ hx) (hless x hx)

theorem Orderly.connected_of_mem (h : c.Orderly answered) {x : Nat × FResponseBlock}
    (hmem : x ∈ c.requestCBHash) : c.connected = true := by
  by_contra hnot
  rw [h.offline (by simpa using hnot)] at hmem
  exact absurd hmem List.not_mem_nil

section Take

variable {as bs : List (Nat × FResponseBlock)} {rn : Nat} {block : FResponseBlock}

theorem unanswered_of_take (hall : c.requestCBHash = as ++ (rn, block) :: bs) (hnone : block.put? = none) :
    unanswered { c with requestCBHash := as ++ bs } = c.unanswered := by
  simp only [unanswered, blocks, hall, List.map_append, List.map_cons, List.filterMap_append,
    List.filterMap_cons, hnone]

/-- The first put without an answer is answered. -/
theorem unanswered_of_take_put {index : Nat} (hall : c.requestCBHash = as ++ (rn, .put index) :: bs)
    (has : ∀ x ∈ as, x.2.isListen = true) :
    c.unanswered = index :: unanswered { c with requestCBHash := as ++ bs } := by
  have hnone : (as.map Prod.snd).filterMap FResponseBlock.put? = [] := by
    refine List.filterMap_eq_nil_iff.mpr fun block hmem => ?_
    obtain ⟨x, hx, rfl⟩ := List.mem_map.mp hmem
    have hlisten := has x hx
    cases hblock : x.2 <;> simp_all [FResponseBlock.isListen, FResponseBlock.put?]
  simp only [unanswered, blocks, hall, List.map_append, List.map_cons, List.filterMap_append,
    List.filterMap_cons, hnone, List.nil_append, FResponseBlock.put?]

theorem inOrder_of_take_listen (hall : c.requestCBHash = as ++ (rn, block) :: bs)
    (hlisten : block.isListen = true) : inOrder { c with requestCBHash := as ++ bs } = c.inOrder := by
  simp [inOrder, blocks, hall, hlisten]

/-- What comes in order is answered in order. -/
theorem inOrder_of_take (hall : c.requestCBHash = as ++ (rn, block) :: bs) (hnot : block.isListen = false)
    (has : ∀ x ∈ as, x.2.isListen = true) :
    c.inOrder = block :: inOrder { c with requestCBHash := as ++ bs } := by
  have hnone : (as.map Prod.snd).filter (fun block => !block.isListen) = [] := by
    refine List.filter_eq_nil_iff.mpr fun block hmem => ?_
    obtain ⟨x, hx, rfl⟩ := List.mem_map.mp hmem
    simp [has x hx]
  simp only [inOrder, blocks, hall, List.map_append, List.map_cons, List.filter_append, hnone, List.nil_append]
  exact List.filter_cons_of_pos (by simp [hnot])

/-- A block is taken out, and the connection goes on. -/
theorem Orderly.of_take (h : c.Orderly answered) (hall : c.requestCBHash = as ++ (rn, block) :: bs)
    (state : ConnectionState)
    (hconn : FPersistentConnection.connected { c with connectionState := state } = true)
    (hrestores : ∃ rest, .auth true ∉ rest ∧ FPersistentConnection.inOrder { c with requestCBHash := as ++ bs } =
      (if state = .authenticating then [.auth true] else []) ++ rest) :
    Orderly (answered + if block.isListen then 1 else 0)
      { c with connectionState := state, requestCBHash := as ++ bs } := by
  have hsub : (as ++ bs).Sublist c.requestCBHash := by
    rw [hall]
    exact (List.sublist_cons_self _ bs).append_left as
  have hready := h.ready (h.connected_of_mem (hall ▸ List.mem_append_right as List.mem_cons_self))
  refine ⟨h.numbered.sublist (hsub.map _), h.keys, h.asked.sublist ((hsub.map _).filterMap _), ?_,
    fun hstate => ?_, fun _ => hready, fun hoff => ?_, hrestores⟩
  · have hcount := h.balanced
    simp only [blocks, hall, List.map_append, List.map_cons, List.countP_append, List.countP_cons] at hcount ⊢
    omega
  · obtain ⟨conn, hsome, -⟩ := hready
    exact hsome ▸ rfl
  · exact absurd (hconn.symm.trans hoff) (by simp)

end Take

/-- The answer to a listen is there, and counted until its block ends. -/
theorem Sound.takeListen (h : c.Sound 0) (hlistening : c.Listening) {rn : Nat} {listenSpec : FOutstandingQuery}
    (htake : c.takeBlock rn = some (.listen listenSpec, d)) :
    d.Sound 1 ∧ d.Listening ∧ d.listens = c.listens ∧ SamePuts c d := by
  obtain ⟨as, bs, hall, rfl, -⟩ := exists_of_takeBlock h.numbered htake
  have hsame := unanswered_of_take hall rfl
  have hconn := h.connected_of_mem (hall ▸ List.mem_append_right as List.mem_cons_self)
  have horderly := h.toOrderly.of_take hall c.connectionState hconn
    (by rw [inOrder_of_take_listen hall rfl]; exact h.restores)
  refine ⟨⟨horderly, fun hnot => ?_, fun hcan => ?_, fun _ hzero => ?_⟩, ⟨hlistening.nodup, hlistening.sent⟩,
    rfl, ⟨rfl, rfl, rfl⟩⟩
  · rw [hsame]
    exact h.unsent hnot
  · rw [hsame]
    exact h.sent hcan
  · have hcount := horderly.balanced
    rw [hzero] at hcount
    exact absurd hcount (by simp [FResponseBlock.isListen])

theorem close_of_ready (h : c.Ready) : c.close = c.onDisconnect := by
  obtain ⟨conn, hsome, -⟩ := h
  rw [close, hsome]
  rfl

/-- **The answer to a token.** The state is restored after the first one, and without
success the connection is closed. -/
theorem Sound.onAuthResponse (h : c.Sound 0) (hlistening : c.Listening) {rn : Nat} {restore : Bool}
    {status : String} (htake : c.takeBlock rn = some (.auth restore, d)) (hin : c.InOrder rn)
    (hrestorable : restore = true → status = kFWPResponseForActionStatusOk → c.Restorable) :
    ∃ c', d.onAuthResponse restore status = .ok c' ∧ c'.Sound 0 ∧ c'.Listening ∧ Keeps c c' := by
  obtain ⟨as, bs, hall, rfl, hbefore⟩ := exists_of_takeBlock h.numbered htake
  have hconn := h.connected_of_mem (hall ▸ List.mem_append_right as List.mem_cons_self)
  have hunanswered := unanswered_of_take hall rfl
  have hinOrder := inOrder_of_take hall rfl (hbefore hin rfl)
  obtain ⟨rest, hrest, heq⟩ := h.restores
  by_cases hok : status = kFWPResponseForActionStatusOk
  · by_cases hstate : c.connectionState = .authenticating
    · -- the first answer on this connection
      rw [if_pos hstate, hinOrder] at heq
      obtain ⟨hrestore, hrest'⟩ := List.cons_eq_cons.mp heq
      cases hrestore
      have hcannot : c.canSendWrites = false := by rw [canSendWrites, hstate]; rfl
      obtain ⟨hnone, hputs⟩ := h.unsent hcannot
      have horderly := h.toOrderly.of_take hall .connected rfl ⟨rest, hrest, hrest'⟩
      obtain ⟨c', hrun, hsound, hlistening', huntouched, hsentPuts⟩ := horderly.restoreState rfl
        (hunanswered.trans hnone) hputs (hrestorable rfl hok) hlistening.nodup
      refine ⟨c', (if_pos hok).trans hrun, hsound, hlistening', ⟨huntouched.listens, huntouched.outstandingPuts,
        huntouched.putCounter, huntouched.putsToAck⟩, Or.inr (Or.inr hsentPuts)⟩
    · -- a later one, and the state is restored already
      have hconnected : c.connectionState = .connected := by
        rw [connected, Bool.or_eq_true, decide_eq_true_eq, decide_eq_true_eq] at hconn
        exact hconn.resolve_left hstate
      rw [if_neg hstate, List.nil_append] at heq
      have hrestore : restore = false := by
        rw [← heq, hinOrder, List.mem_cons, not_or] at hrest
        cases restore with
        | false => rfl
        | true => exact absurd rfl hrest.1
      subst hrestore
      have horderly := h.toOrderly.of_take hall .connected rfl
        ⟨_, fun hmem => hrest (heq ▸ hinOrder ▸ List.mem_cons_of_mem _ hmem), rfl⟩
      have hcan : c.canSendWrites = true := decide_eq_true hconnected
      refine ⟨_, if_pos hok, ⟨horderly, nofun, fun _ => ?_, fun _ => h.held hcan⟩,
        ⟨hlistening.nodup, fun _ => hlistening.sent hcan⟩, ⟨rfl, rfl, rfl, rfl⟩, Or.inl rfl⟩
      have hsame : unanswered { c with connectionState := .connected, requestCBHash := as ++ bs } =
          c.unanswered := hunanswered
      rw [hsame]
      exact h.sent hcan
  · obtain ⟨hsound, hlistening', -⟩ := sound_onDisconnect (c := { c with
      requestCBHash := as ++ bs, connectionState := .connected, authToken := none }) h.keys hlistening.nodup
    refine ⟨_, (if_neg hok).trans (congrArg Except.ok (close_of_ready (h.ready hconn))), hsound, hlistening',
      ⟨rfl, rfl, rfl, rfl⟩, Or.inr (Or.inl rfl)⟩

/-- Writes are acknowledged: those that were answered are, after those that were held back,
or they are held back as well. -/
structure Acknowledges (c : FPersistentConnection) (status : String)
    (result : FPersistentConnection × List (Int × String)) : Prop where
  listens : result.1.listens = c.listens
  sentPuts : result.1.sentPuts = c.sentPuts
  acks : ∃ puts : List FOutstandingPut,
    c.outstandingPuts.map Prod.snd = puts ++ result.1.outstandingPuts.map Prod.snd ∧
    c.putsToAck ++ puts.map (fun put => (put.onCompleteBlock, status)) = result.2 ++ result.1.putsToAck

/-- **The answer to a put.** It is the oldest of those that wait, or it was canceled. -/
theorem Sound.onPutResponse (h : c.Sound 0) (hlistening : c.Listening) {rn index : Nat} (status : String)
    (htake : c.takeBlock rn = some (.put index, d)) (hin : c.InOrder rn) :
    (d.onPutResponse index status).1.Sound 0 ∧ (d.onPutResponse index status).1.Listening ∧
      Acknowledges c status (d.onPutResponse index status) := by
  obtain ⟨as, bs, hall, rfl, hbefore⟩ := exists_of_takeBlock h.numbered htake
  have hunanswered := unanswered_of_take_put hall (hbefore hin rfl)
  have hcan : c.canSendWrites = true := by
    by_contra hnot
    rw [(h.unsent (by simpa using hnot)).1] at hunanswered
    cases hunanswered
  have hstate : c.connectionState = .connected := of_decide_eq_true hcan
  obtain ⟨rest, hrest, heq⟩ := h.restores
  rw [hstate, if_neg (by simp), List.nil_append] at heq
  have horderly := h.toOrderly.of_take hall c.connectionState (connected_of_canSendWrites hcan) ⟨_, fun hmem =>
    hrest (heq ▸ inOrder_of_take hall rfl (hbefore hin rfl) ▸ List.mem_cons_of_mem _ hmem),
    by rw [hstate]; rfl⟩
  obtain ⟨hasked, hsent⟩ := h.sent hcan
  rw [hunanswered, List.suffix_cons_iff] at hasked
  have hfirst : ∀ i ∈ unanswered { c with requestCBHash := as ++ bs }, index < i := by
    have hgrow := h.asked.pairwise
    rw [hunanswered] at hgrow
    exact (List.pairwise_cons.mp hgrow).1
  unfold FPersistentConnection.onPutResponse
  rcases hasked with hkeys | hkeys
  · -- it is outstanding
    obtain ⟨⟨key, put⟩, puts, houtstanding, rfl, hrest⟩ := List.map_eq_cons_iff.mp hkeys
    rw [houtstanding, List.map_cons] at hsent
    have hfilter : ((key, put) :: puts).filter (fun x => x.1 ≠ key) = puts := by
      rw [List.filter_cons_of_neg (by simp), List.filter_eq_self]
      intro x hx
      have hlt := hfirst x.1 (hrest ▸ List.mem_map_of_mem hx)
      simpa using hlt.ne'
    have hkeys' : Counted (puts.map Prod.fst) c.putCounter := by
      have hkeys := h.keys
      rw [houtstanding] at hkeys
      exact hkeys.sublist (List.sublist_cons_self _ _)
    have hputs : puts.map Prod.snd <:+ c.sentPuts := (List.suffix_cons _ _).trans hsent
    have horderly' : Orderly 0 { c with requestCBHash := as ++ bs, outstandingPuts := puts } :=
      ⟨horderly.numbered, hkeys', horderly.asked, horderly.balanced, horderly.opened, horderly.ready,
        horderly.offline, horderly.restores⟩
    simp only [houtstanding, List.lookup_cons_self, hfilter]
    by_cases hunacked : c.unackedListensCount = 0
    · rw [if_pos hunacked]
      refine ⟨⟨horderly', fun hnot => absurd (hcan.symm.trans hnot) (by simp),
        fun _ => ⟨hrest ▸ List.suffix_refl _, hputs⟩, h.held⟩, ⟨hlistening.nodup, hlistening.sent⟩, rfl, rfl,
        [put], ?_, ?_⟩
      · rw [houtstanding]
        rfl
      · show c.putsToAck ++ [(put.onCompleteBlock, status)] = [(put.onCompleteBlock, status)] ++ c.putsToAck
        rw [h.held hcan hunacked]
        rfl
    · rw [if_neg hunacked]
      refine ⟨⟨⟨horderly'.numbered, hkeys', horderly'.asked, horderly'.balanced, horderly'.opened,
        horderly'.ready, horderly'.offline, horderly'.restores⟩, fun hnot => absurd (hcan.symm.trans hnot)
        (by simp), fun _ => ⟨hrest ▸ List.suffix_refl _, hputs⟩, fun _ hzero => absurd hzero hunacked⟩,
        ⟨hlistening.nodup, hlistening.sent⟩, rfl, rfl, [put], ?_, rfl⟩
      rw [houtstanding]
      rfl
  · -- it was canceled
    have hlookup : c.outstandingPuts.lookup index = none := by
      refine List.lookup_eq_none_iff.mpr fun x hx => ?_
      have hlt := hfirst x.1 (hkeys.subset (List.mem_map_of_mem hx))
      simpa using hlt.ne
    rw [hlookup]
    exact ⟨⟨horderly, fun hnot => absurd (hcan.symm.trans hnot) (by simp), fun _ => ⟨hkeys, hsent⟩, h.held⟩,
      ⟨hlistening.nodup, hlistening.sent⟩, rfl, rfl, [], rfl, List.append_nil _⟩

/-- **The answer to a listen ends.** With the last one all that was held back is handed out. -/
theorem Sound.listenAnswered (h : c.Sound 1) (hlistening : c.Listening) (status : String) :
    ∃ result, c.listenAnswered = .ok result ∧ result.1.Sound 0 ∧ result.1.Listening ∧
      Acknowledges c status result ∧ result.2 <+: c.putsToAck := by
  have hpos : c.unackedListensCount ≠ 0 := by
    rw [h.balanced]
    simp
  have hcount : c.unackedListensCount - 1 = c.blocks.countP FResponseBlock.isListen := by
    rw [h.balanced]
    rfl
  unfold FPersistentConnection.listenAnswered
  rw [if_neg hpos]
  by_cases hlast : c.unackedListensCount - 1 = 0
  · exact ⟨_, congrArg Except.ok (if_pos hlast), ⟨⟨h.numbered, h.keys, h.asked, hcount, h.opened, h.ready,
      h.offline, h.restores⟩, h.unsent, h.sent, fun _ _ => rfl⟩, ⟨hlistening.nodup, hlistening.sent⟩,
      ⟨rfl, rfl, [], rfl, rfl⟩, List.prefix_refl _⟩
  · exact ⟨_, congrArg Except.ok (if_neg hlast), ⟨⟨h.numbered, h.keys, h.asked, hcount, h.opened, h.ready,
      h.offline, h.restores⟩, h.unsent, h.sent, fun _ hzero => absurd hzero hlast⟩,
      ⟨hlistening.nodup, hlistening.sent⟩, ⟨rfl, rfl, [], rfl, List.append_nil _⟩, List.nil_prefix⟩

/-- All that waits is canceled. -/
theorem Sound.purgeOutstandingWrites (h : c.Sound 0) (hlistening : c.Listening) :
    c.purgeOutstandingWrites.1.Sound 0 ∧ c.purgeOutstandingWrites.1.Listening ∧
      Acknowledges c kFErrorWriteCanceled c.purgeOutstandingWrites :=
  ⟨⟨⟨h.numbered, counted_nil _, h.asked, h.balanced, h.opened, h.ready, h.offline, h.restores⟩, h.unsent,
      fun _ => ⟨List.nil_suffix, List.nil_suffix⟩, fun _ _ => rfl⟩, ⟨hlistening.nodup, hlistening.sent⟩,
    rfl, rfl, c.outstandingPuts.map Prod.snd, (List.append_nil _).symm, by
      simp [FPersistentConnection.purgeOutstandingWrites, ackPuts, Function.comp_def]⟩

theorem sound_init : init.Sound 0 ∧ init.Listening :=
  ⟨sound_of_quiet (counted_nil _) rfl rfl rfl nofun rfl, List.nodup_nil, nofun⟩

/-- Without a listen nothing hands out the answers that were held back, and the next put is
acknowledged before them. -/
theorem Sound.exists_younger (h : c.Sound 0) (hstate : c.connectionState = .connecting) (htoken : c.authToken = none)
    (hnone : c.listens = []) {index : Nat} {put : FOutstandingPut} {puts : List (Nat × FOutstandingPut)}
    (hputs : c.outstandingPuts = (index, put) :: puts) :
    ∃ c' rn d, c.onReady = .ok c' ∧ c'.InOrder rn ∧ c'.takeBlock rn = some (.put index, d) ∧
      ∀ status, (d.onPutResponse index status).2 = [(put.onCompleteBlock, status)] ∧
        (d.onPutResponse index status).1.putsToAck = c.putsToAck := by
  have hconn : c.connected = false := by rw [connected, hstate]; rfl
  obtain ⟨hblocks, hunacked, -⟩ := h.offline_eq hconn
  obtain ⟨conn, hsome⟩ := Option.isSome_iff_exists.mp (h.opened hstate)
  obtain ⟨c', hrun, hsends⟩ : ∃ c', FPersistentConnection.restoreState { c with
      realtime := some { conn with connected := true }, connectionState := .connected } = .ok c' ∧
      Sends _ c' c.restored := exists_restoreState ⟨_, rfl, rfl⟩ rfl h.keys
  have hall : c'.blocks = .put index :: puts.map fun x => .put x.1 := by
    rw [hsends.blocks, blocks, hblocks, restored, hnone, hputs]
    simp [List.filterMap_map, List.filterMap_eq_map']
  obtain ⟨⟨rn, block⟩, rest, hfirst, rfl, -⟩ := List.map_eq_cons_iff.mp hall
  have hzero : c'.unackedListensCount = 0 := by
    rw [hsends.balanced 0 (by rw [blocks, hblocks]; exact hunacked), hall]
    simp [FResponseBlock.isListen]
  have hnumbered := (hsends.numbered h.numbered).pairwise
  rw [hfirst, List.map_cons, List.pairwise_cons] at hnumbered
  refine ⟨c', rn, { c' with requestCBHash := c'.requestCBHash.filter fun x => x.1 ≠ rn }, ?_,
    fun _ _ _ x hx hlt => ?_, ?_, fun status => ?_⟩
  · unfold FPersistentConnection.onReady restoreAuth
    rw [if_neg (not_not.mpr hstate), if_pos htoken, hsome]
    exact hrun
  · rw [hfirst] at hx
    rcases List.mem_cons.mp hx with rfl | hx
    · exact absurd hlt (Nat.lt_irrefl _)
    · exact absurd hlt (hnumbered.1 x.1 (List.mem_map_of_mem hx)).not_gt
  · rw [takeBlock, hfirst, List.lookup_cons_self]
    rfl
  · have houtstanding : c'.outstandingPuts = (index, put) :: puts := hsends.outstandingPuts.trans hputs
    simp only [FPersistentConnection.onPutResponse, houtstanding, List.lookup_cons_self, hzero, if_true]
    exact ⟨trivial, hsends.putsToAck⟩

end FPersistentConnection

end MyChat
