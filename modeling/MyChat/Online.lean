import MyChat.Session
import MyChat.Connection

/-!
# MyChat.Online

A session and its connection: every write of the user goes to the connection, and every
answer that the connection hands out acknowledges the write.

What a `Session` takes for granted about the server is proved here of the connection: the
writes are acknowledged in their order, each once, over connections that come and go
(`completions_in_order`). So a session that is online is one that can be reached, and
everything that is true of these is true of it (`exists_online_step`).
-/

namespace MyChat

open PathTree FCompoundWrite FChange

/-- `kFWPRequestActionPut`. -/
def kFWPRequestActionPut : String := "p"

/-- `kFWPRequestActionMerge`. -/
def kFWPRequestActionMerge : String := "m"

/-- A session with its connection, and the writes whose callbacks were called. -/
structure Online where
  session : Session
  connection : FPersistentConnection
  completions : List (Int × String)

/-- What can happen. -/
inductive OnlineEvent
  | set (path : Path) (node : FNode)
  | update (path : Path) (nodes : FCompoundWrite)
  | purgeOutstandingWrites
  | addEventRegistration (eventRegistration : FEventRegistration) (path : Path)
  | removeEventRegistration (eventRegistration : FEventRegistration) (path : Path)
  | dataUpdate (path : Path) (data : FServerData)
  | connection (event : FPersistentConnection.ConnectionEvent)
  | response (rn : Nat) (status : String)
  | onListenRevoked (path : Path)
  /-- Something that the client is not told of. -/
  | elsewhere (server : Snapshot)

namespace Session

/-- Where the client listens. -/
def listens (s : Session) : List Path := s.repo.serverSyncTree.listens

end Session

namespace Online

/-- The listen provider: what is new is listened to, and then what is not needed is not
listened to any more. -/
def listenProvider (connection : FPersistentConnection) (before after : List Path) :
    Except String FPersistentConnection := do
  let connection ← (after.filter fun path => path ∉ before).foldlM FPersistentConnection.listen connection
  (before.filter fun path => path ∉ after).foldlM FPersistentConnection.unlisten connection

/-- The repository does something, and the listens follow. -/
def call (o : Online) (event : SessionEvent) : Except String Online := do
  let session ← o.session.step event
  let connection ← listenProvider o.connection o.session.listens session.listens
  return { o with session, connection }

/-- The block of a write: the write is acknowledged, and `callOnComplete:`. -/
def onComplete (o : Online) (ack : Int × String) : Except String Online := do
  let o ← o.call (.ackWrite ack.1 ack.2)
  return { o with completions := o.completions ++ [ack] }

/-- The connection hands out acknowledgements. -/
def onCompletes (o : Online) (result : FPersistentConnection × List (Int × String)) :
    Except String Online :=
  result.2.foldlM onComplete { o with connection := result.1 }

/-- A write is made, and goes to the connection. -/
def write (o : Online) (event : SessionEvent) (put : FOutstandingPut) : Except String Online := do
  let o ← o.call event
  return { o with connection := ← o.connection.putInternal put }

/-- `set:withNode:withCallback:`. -/
def set (o : Online) (path : Path) (node : FNode) : Except String Online :=
  let writeId := o.session.repo.writeIdCounter
  o.write (.set path node) ⟨kFWPRequestActionPut, path, .overwrite node, writeId⟩

/-- `update:withNodes:withCallback:`. -/
def update (o : Online) (path : Path) (nodes : FCompoundWrite) : Except String Online :=
  if ¬ nodes.isEmpty then
    let writeId := o.session.repo.writeIdCounter
    o.write (.update path nodes) ⟨kFWPRequestActionMerge, path, .merge nodes, writeId⟩
  else return o

/-- `purgeOutstandingWrites`. -/
def purgeOutstandingWrites (o : Online) : Except String Online := do
  let o ← o.call .purgeOutstandingWrites
  o.onCompletes o.connection.purgeOutstandingWrites

/-- `removeListen:`, when a listen failed: what is left, and where it listens. -/
def removeFailed (o : Online) (path : Path) (status : String) : FPersistentConnection × List Path :=
  if status = kFWPResponseForActionStatusOk then (o.connection, o.session.listens)
  else (o.connection.removeListen path, o.session.listens.erase path)

/-- The block of a listen. -/
def onListenComplete (o : Online) (path : Path) (status : String) : Except String Online := do
  let removed := o.removeFailed path status
  let session ← o.session.step (.listenResponse path status)
  let connection ← listenProvider removed.1 removed.2 session.listens
  return { o with session, connection }

/-- Unless the listen was removed, and maybe added again. -/
def onListenResponse (o : Online) (listenSpec : FOutstandingQuery) (status : String) :
    Except String Online :=
  if o.connection.listens.contains listenSpec then o.onListenComplete listenSpec.query status
  else return o

/-- `onDataMessage:withMessage:`, for a response. -/
def onResponse (o : Online) (rn : Nat) (status : String) : Except String Online :=
  match o.connection.takeBlock rn with
  | none => return o
  | some (.auth restore, connection) =>
      return { o with connection := ← connection.onAuthResponse restore status }
  | some (.put index, connection) => o.onCompletes (connection.onPutResponse index status)
  | some (.listen listenSpec, connection) => do
      let o ← onListenResponse { o with connection } listenSpec status
      o.onCompletes (← o.connection.listenAnswered)

/-- `onListenRevoked:`. -/
def onListenRevoked (o : Online) (path : Path) : Except String Online :=
  if path ∈ o.connection.queries then o.onListenComplete path "permission_denied" else return o

/-- One event. -/
def step (o : Online) : OnlineEvent → Except String Online
  | .set path node => o.set path node
  | .update path nodes => o.update path nodes
  | .purgeOutstandingWrites => o.purgeOutstandingWrites
  | .addEventRegistration eventRegistration path => o.call (.addEventRegistration eventRegistration path)
  | .removeEventRegistration eventRegistration path =>
      o.call (.removeEventRegistration eventRegistration path)
  | .dataUpdate path data => o.call (.dataUpdate path data)
  | .connection event => return { o with connection := ← o.connection.step event }
  | .response rn status => o.onResponse rn status
  | .onListenRevoked path => o.onListenRevoked path
  | .elsewhere server => o.call (.elsewhere server)

/-- The writes that a response may acknowledge. -/
def acks (o : Online) (rn : Nat) (status : String) : List (Int × String) :=
  match o.connection.takeBlock rn with
  | some (.put index, connection) => (connection.onPutResponse index status).2
  | some (.listen _, connection) => connection.putsToAck
  | _ => []

/-- The server has something where the write is, unless it is the whole database. -/
def Done (server : Snapshot) (record : FWriteRecord) : Prop :=
  ∀ x ∈ record.changes, x.1 ≠ [] → server.subtree x.1 ≠ ∅

/-- What the user, the server and the network do. The server answers in order, listens
apart, and when a write is done it has something there. The state is restored, and the
writes are purged, only when no answer would be lost by it. -/
def Allowed (o : Online) : OnlineEvent → Prop
  | .set path node => o.session.Allowed (.set path node)
  | .update path nodes => o.session.Allowed (.update path nodes)
  | .purgeOutstandingWrites => o.connection.putsToAck = []
  | .addEventRegistration eventRegistration path =>
      o.session.Allowed (.addEventRegistration eventRegistration path)
  | .removeEventRegistration _ _ => True
  | .dataUpdate path data => o.session.Allowed (.dataUpdate path data)
  | .connection event => o.connection.Expected event
  | .response rn status => status ≠ kFErrorWriteCanceled ∧ o.connection.InOrder rn ∧
      (∀ restore connection, o.connection.takeBlock rn = some (.auth restore, connection) →
        restore = true → status = kFWPResponseForActionStatusOk → o.connection.Restorable) ∧
      (∀ listenSpec connection, o.connection.takeBlock rn = some (.listen listenSpec, connection) →
        o.session.Allowed (.listenResponse listenSpec.query status)) ∧
      ∀ ack ∈ o.acks rn status, ack.2 = kFWPResponseForActionStatusOk →
        ∀ record ∈ o.session.writes, record.writeId = ack.1 → Done o.session.server record
  | .onListenRevoked _ => True
  | .elsewhere server => o.session.Allowed (.elsewhere server)

/-- Nothing has happened yet. -/
def Initial (o : Online) : Prop :=
  o.session.Initial ∧ o.connection = FPersistentConnection.init ∧ o.completions = []

/-- What is reached by runs whose events are allowed. -/
abbrev Reachable : Online → Prop := Transition.Reach step Initial Allowed

/-! ### The listens follow -/

variable {o o' : Online} {answered : Nat} {acks : List (Int × String)}

open FPersistentConnection (SamePuts Keeps Acknowledges)

theorem exists_listenProvider {c : FPersistentConnection} {before after : List Path}
    (h : c.Sound answered) (hlistening : c.Listening) (hbefore : ∀ p, p ∈ c.queries ↔ p ∈ before)
    (hnodup : after.Nodup) : ∃ c', listenProvider c before after = .ok c' ∧ c'.Sound answered ∧
      c'.Listening ∧ SamePuts c c' ∧ ∀ p, p ∈ c'.queries ↔ p ∈ after := by
  have hnew : (c.queries ++ after.filter fun p => p ∉ before).Nodup := by
    refine List.nodup_append'.mpr ⟨hlistening.nodup, hnodup.filter _, fun p hp hq => ?_⟩
    have hnot : p ∉ before := of_decide_eq_true (List.mem_filter.mp hq).2
    exact hnot ((hbefore p).mp hp)
  obtain ⟨d, hstart, hsound, hlistening', hsame, hqueries⟩ := h.exists_foldlM_listen hlistening hnew
  obtain ⟨c', hstop, hsound', hlistening'', hsame', hqueries'⟩ :=
    hsound.exists_foldlM_unlisten hlistening'
  refine ⟨c', ?_, hsound', hlistening'', hsame.trans hsame', fun p => ?_⟩
  · unfold listenProvider
    rw [hstart]
    exact hstop
  · rw [hqueries', hqueries]
    simp only [List.mem_append, List.mem_filter, decide_eq_true_eq, hbefore]
    tauto

/-- The session is one that can be reached, and the connection listens where it has to. -/
structure Linked (answered : Nat) (o : Online) : Prop where
  reachable : o.session.Reachable
  sound : o.connection.Sound answered
  listening : o.connection.Listening
  listens : ∀ p, p ∈ o.connection.queries ↔ p ∈ o.session.listens

/-- The connection goes on, and the listens stay. -/
theorem Linked.with_connection {answered' : Nat} {c : FPersistentConnection} (h : o.Linked answered)
    (hsound : c.Sound answered') (hlistening : c.Listening) (hlistens : c.listens = o.connection.listens) :
    Linked answered' { o with connection := c } where
  reachable := h.reachable
  sound := hsound
  listening := hlistening
  listens := fun p => by
    rw [FPersistentConnection.queries, hlistens]
    exact h.listens p

theorem Linked.call {event : SessionEvent} (h : o.Linked answered) (hallowed : o.session.Allowed event) :
    ∃ o', o.call event = .ok o' ∧ o'.Linked answered ∧ o.session.step event = .ok o'.session ∧
      SamePuts o.connection o'.connection ∧ o'.completions = o.completions := by
  obtain ⟨session, hstep, hworks⟩ := (Session.works h.reachable).step hallowed
  have hnodup : session.listens.Nodup := hworks.listens.nodup
  obtain ⟨connection, hprovider, hsound, hlistening, hsame, hlistens⟩ :=
    exists_listenProvider h.sound h.listening h.listens hnodup
  refine ⟨{ o with session, connection }, ?_, ⟨h.reachable.next hallowed hstep, hsound, hlistening, hlistens⟩,
    hstep, hsame, rfl⟩
  unfold Online.call
  rw [hstep]
  show listenProvider o.connection o.session.listens session.listens >>= _ = _
  rw [hprovider]
  rfl

/-- A listen that failed is not there any more. -/
theorem Linked.removeFailed (h : o.Linked answered) (path : Path) (status : String) :
    (o.removeFailed path status).1.Sound answered ∧ (o.removeFailed path status).1.Listening ∧
      SamePuts o.connection (o.removeFailed path status).1 ∧
      ∀ p, p ∈ (o.removeFailed path status).1.queries ↔ p ∈ (o.removeFailed path status).2 := by
  unfold Online.removeFailed
  split
  · exact ⟨h.sound, h.listening, ⟨rfl, rfl, rfl⟩, h.listens⟩
  · refine ⟨h.sound.with_listens _ o.connection.objects, h.listening.removeListen path, ⟨rfl, rfl, rfl⟩,
      fun p => ?_⟩
    have hnodup : o.session.listens.Nodup := (Session.works h.reachable).listens.nodup
    rw [FPersistentConnection.queries_removeListen, List.mem_filter, h.listens, hnodup.mem_erase_iff,
      and_comm, decide_eq_true_eq]

theorem Linked.onListenComplete {path : Path} {status : String} (h : o.Linked answered)
    (hallowed : o.session.Allowed (.listenResponse path status)) :
    ∃ o', o.onListenComplete path status = .ok o' ∧ o'.Linked answered ∧
      o.session.step (.listenResponse path status) = .ok o'.session ∧
      SamePuts o.connection o'.connection ∧ o'.completions = o.completions := by
  obtain ⟨session, hstep, hworks⟩ := (Session.works h.reachable).step hallowed
  have hnodup : session.listens.Nodup := hworks.listens.nodup
  obtain ⟨hsound, hlistening, hsame, hlistens⟩ := h.removeFailed path status
  obtain ⟨connection, hprovider, hsound', hlistening', hsame', hlistens'⟩ :=
    exists_listenProvider hsound hlistening hlistens hnodup
  refine ⟨{ o with session, connection }, ?_, ⟨h.reachable.next hallowed hstep, hsound', hlistening', hlistens'⟩,
    hstep, hsame.trans hsame', rfl⟩
  unfold Online.onListenComplete
  rw [hstep]
  show listenProvider (o.removeFailed path status).1 (o.removeFailed path status).2 session.listens >>= _ = _
  rw [hprovider]
  rfl

/-! ### What happens to the writes -/

/-- What is sent for a write. -/
def outstandingPut (record : FWriteRecord) : FOutstandingPut where
  action := match record.change with
    | .overwrite _ => kFWPRequestActionPut
    | .merge _ => kFWPRequestActionMerge
  pathString := record.path
  data := record.change
  onCompleteBlock := record.writeId

/-- The pending writes are, in their order: those whose acknowledgement is handed out just
now, those whose answer is held back, and those that are outstanding. The ones before them
are complete. On the connection they were sent in this order as well. -/
structure Carries (acks : List (Int × String)) (o : Online) : Prop where
  writes : ∃ held rest, o.session.writes = held ++ rest ∧
    held.map FWriteRecord.writeId = (acks ++ o.connection.putsToAck).map Prod.fst ∧
    o.connection.outstandingPuts.map Prod.snd = rest.map outstandingPut
  completed : ∃ n : Nat, o.session.repo.writeIdCounter = n ∧
    o.completions.map Prod.fst ++ o.session.writes.map FWriteRecord.writeId =
      (List.range n).map Int.ofNat
  statuses : ∀ ack ∈ acks ++ o.connection.putsToAck, ack.2 ≠ kFErrorWriteCanceled
  sent : (o.connection.sentPuts.map FOutstandingPut.onCompleteBlock).Pairwise (· < ·) ∧
    ∀ put ∈ o.connection.sentPuts, put.onCompleteBlock < o.session.repo.writeIdCounter

/-- Nothing has happened to the writes. -/
theorem Carries.of_same (h : o.Carries acks) (hwrites : o'.session.writes = o.session.writes)
    (hcounter : o'.session.repo.writeIdCounter = o.session.repo.writeIdCounter)
    (hsame : SamePuts o.connection o'.connection) (hcompletions : o'.completions = o.completions) :
    o'.Carries acks where
  writes := by
    rw [hwrites, hsame.putsToAck, hsame.outstandingPuts]
    exact h.writes
  completed := by
    rw [hcounter, hcompletions, hwrites]
    exact h.completed
  statuses := by
    rw [hsame.putsToAck]
    exact h.statuses
  sent := by
    rw [hsame.sentPuts, hcounter]
    exact h.sent

/-- The ids of the pending writes grow, and are below the counter. -/
theorem Carries.ids (h : o.Carries acks) : (o.session.writes.map FWriteRecord.writeId).Pairwise (· < ·) ∧
    ∀ record ∈ o.session.writes, record.writeId < o.session.repo.writeIdCounter := by
  obtain ⟨n, hn, hall⟩ := h.completed
  have hgrow : ((List.range n).map Int.ofNat).Pairwise (· < ·) :=
    List.pairwise_map.mpr (List.pairwise_lt_range.imp Int.ofNat_lt.mpr)
  rw [← hall, List.pairwise_append] at hgrow
  refine ⟨hgrow.2.1, fun record hmem => ?_⟩
  have hid : record.writeId ∈ (List.range n).map Int.ofNat := by
    rw [← hall]
    exact List.mem_append_right _ (List.mem_map_of_mem hmem)
  obtain ⟨i, hi, heq⟩ := List.mem_map.mp hid
  rw [← heq, hn]
  exact Int.ofNat_lt.mpr (List.mem_range.mp hi)

/-- A write joins them, and is sent after them, or waits. -/
theorem Carries.put {record : FWriteRecord} {c : FPersistentConnection} (h : o.Carries [])
    (hid : record.writeId = o.session.repo.writeIdCounter)
    (hwrites : o'.session.writes = o.session.writes ++ [record])
    (hcounter : o'.session.repo.writeIdCounter = o.session.repo.writeIdCounter + 1)
    (hsame : SamePuts o.connection o'.connection) (hcompletions : o'.completions = o.completions)
    (hack : c.putsToAck = o'.connection.putsToAck)
    (hputs : c.outstandingPuts.map Prod.snd =
      o'.connection.outstandingPuts.map Prod.snd ++ [outstandingPut record])
    (hsent : c.sentPuts = o'.connection.sentPuts ∨
      c.sentPuts = o'.connection.sentPuts ++ [outstandingPut record]) :
    Carries [] { o' with connection := c } where
  writes := by
    obtain ⟨held, rest, hall, hheld, hrest⟩ := h.writes
    refine ⟨held, rest ++ [record], ?_, ?_, ?_⟩
    · rw [hwrites, hall, List.append_assoc]
    · rw [hack, hsame.putsToAck]
      exact hheld
    · rw [hputs, hsame.outstandingPuts, hrest, List.map_append]
      rfl
  completed := by
    obtain ⟨n, hn, hall⟩ := h.completed
    refine ⟨n + 1, by rw [hcounter, hn]; rfl, ?_⟩
    rw [hcompletions, hwrites, List.map_append, ← List.append_assoc, hall, List.range_succ, List.map_append]
    simp [hid, hn]
  statuses := by
    rw [hack, hsame.putsToAck]
    exact h.statuses
  sent := by
    rw [hcounter]
    have hold : ∀ put ∈ o.connection.sentPuts, put.onCompleteBlock < o.session.repo.writeIdCounter + 1 :=
      fun put hmem => (h.sent.2 put hmem).trans (Int.lt_succ _)
    rcases hsent with hsent | hsent
    · rw [hsent, hsame.sentPuts]
      exact ⟨h.sent.1, hold⟩
    · rw [hsent, hsame.sentPuts, List.map_append]
      refine ⟨List.pairwise_append.mpr ⟨h.sent.1, List.pairwise_singleton _ _, fun id hmem id' hmem' => ?_⟩,
        fun put hmem => ?_⟩
      · obtain ⟨put, hput, rfl⟩ := List.mem_map.mp hmem
        rw [List.mem_singleton.mp hmem']
        exact (h.sent.2 put hput).trans_eq hid.symm
      · rcases List.mem_append.mp hmem with hmem | hmem
        · exact hold put hmem
        · rw [List.mem_singleton.mp hmem]
          exact hid.trans_lt (Int.lt_succ _)

/-- The outstanding puts are sent on a connection that is new, or none are there yet. -/
theorem Carries.of_keeps {c : FPersistentConnection} (h : o.Carries []) (hkeeps : Keeps o.connection c) :
    Carries [] { o with connection := c } where
  writes := by
    rw [hkeeps.putsToAck, hkeeps.outstandingPuts]
    exact h.writes
  completed := h.completed
  statuses := by
    rw [hkeeps.putsToAck]
    exact h.statuses
  sent := by
    rcases hkeeps.sentPuts with hsent | hsent | hsent
    · rw [hsent]
      exact h.sent
    · rw [hsent]
      exact ⟨List.Pairwise.nil, nofun⟩
    · obtain ⟨held, rest, hall, -, hrest⟩ := h.writes
      obtain ⟨hgrow, hbelow⟩ := h.ids
      rw [hsent, hrest]
      rw [hall, List.map_append, List.pairwise_append] at hgrow
      refine ⟨by rw [List.map_map]; exact hgrow.2.1, fun put hmem => ?_⟩
      obtain ⟨record, hrecord, rfl⟩ := List.mem_map.mp hmem
      exact hbelow record (by rw [hall]; exact List.mem_append_right _ hrecord)

/-- Those that are acknowledged are the oldest. -/
theorem Carries.of_acknowledges {result : FPersistentConnection × List (Int × String)} {status : String}
    (h : o.Carries []) (hacks : Acknowledges o.connection status result)
    (hstatus : status ≠ kFErrorWriteCanceled) : Carries result.2 { o with connection := result.1 } where
  writes := by
    obtain ⟨held, rest, hall, hheld, hrest⟩ := h.writes
    obtain ⟨puts, hputs, heq⟩ := hacks.acks
    obtain ⟨answered, outstanding, rfl, hanswered, houtstanding⟩ :=
      List.map_eq_append_iff.mp (hrest.symm.trans hputs)
    refine ⟨held ++ answered, outstanding, by rw [hall, List.append_assoc], ?_, houtstanding.symm⟩
    rw [← heq, List.map_append, List.map_append, hheld, ← hanswered, List.map_map, List.map_map]
    rfl
  completed := h.completed
  statuses := by
    obtain ⟨puts, -, heq⟩ := hacks.acks
    intro ack hmem
    rw [← heq, List.mem_append] at hmem
    rcases hmem with hmem | hmem
    · exact h.statuses ack hmem
    · obtain ⟨put, -, rfl⟩ := List.mem_map.mp hmem
      exact hstatus
  sent := by
    rw [hacks.sentPuts]
    exact h.sent

/-- **The oldest write is acknowledged**, and its callback called. -/
theorem Linked.onComplete {ack : Int × String} (h : o.Linked answered) (hcarries : o.Carries (ack :: acks))
    (hdone : ack.2 = kFWPResponseForActionStatusOk → ∀ record ∈ o.session.writes,
      record.writeId = ack.1 → Done o.session.server record) :
    ∃ o', o.onComplete ack = .ok o' ∧ o'.Linked answered ∧ o'.Carries acks ∧
      o'.session.server = o.session.server ∧ o'.session.writes = o.session.writes.tail := by
  have hworks := Session.works h.reachable
  obtain ⟨held, rest, hall, hheld, hrest⟩ := hcarries.writes
  obtain ⟨first, held, rfl, hfirst, hheld⟩ := List.map_eq_cons_iff.mp hheld
  have hcanceled : ack.2 ≠ kFErrorWriteCanceled := hcarries.statuses ack List.mem_cons_self
  have holdest : o.session.writes.head?.map FWriteRecord.writeId = some ack.1 := by
    rw [hall, ← hfirst]
    rfl
  have hallowed : o.session.Allowed (.ackWrite ack.1 ack.2) := by
    refine Or.inr ⟨holdest, fun hok record hrecord => ?_⟩
    exact hdone hok record (List.mem_of_find?_eq_some hrecord) (by simpa using List.find?_some hrecord)
  obtain ⟨o₁, hcall, hlinked, hstep, hsame, hcompletions⟩ := h.call hallowed
  obtain ⟨hserver, hwrites, hcounter⟩ := hworks.writes_of_ackWrite holdest hcanceled hstep
  obtain ⟨n, hn, hids⟩ := hcarries.completed
  have htail : o₁.session.writes = held ++ rest := by
    rw [Session.writes, hwrites, ← Session.writes, hall]
    rfl
  refine ⟨{ o₁ with completions := o₁.completions ++ [ack] }, ?_, ⟨hlinked.reachable, hlinked.sound,
    hlinked.listening, hlinked.listens⟩, ⟨⟨held, rest, htail, ?_, ?_⟩, ⟨n, hcounter.trans hn, ?_⟩, ?_, ?_⟩,
    hserver, hwrites⟩
  · unfold Online.onComplete
    rw [hcall]
    rfl
  · rw [hsame.putsToAck]
    exact hheld
  · rw [hsame.outstandingPuts]
    exact hrest
  · rw [htail, hcompletions, ← hids, hall, List.map_append, List.append_assoc]
    simp [hfirst]
  · rw [hsame.putsToAck]
    exact fun x hmem => hcarries.statuses x (List.mem_cons_of_mem _ hmem)
  · rw [hsame.sentPuts, hcounter]
    exact hcarries.sent

/-- All that is handed out is acknowledged. -/
theorem Linked.foldlM_onComplete (h : o.Linked answered) (hcarries : o.Carries acks)
    (hdone : ∀ ack ∈ acks, ack.2 = kFWPResponseForActionStatusOk → ∀ record ∈ o.session.writes,
      record.writeId = ack.1 → Done o.session.server record) :
    ∃ o', acks.foldlM Online.onComplete o = .ok o' ∧ o'.Linked answered ∧ o'.Carries [] := by
  induction acks generalizing o with
  | nil => exact ⟨o, rfl, h, hcarries⟩
  | cons ack acks ih =>
      obtain ⟨o₁, hrun, hlinked, hcarries', hserver, hwrites⟩ :=
        h.onComplete hcarries (hdone ack List.mem_cons_self)
      obtain ⟨o', hrest, hlinked', hcarries''⟩ := ih hlinked hcarries' fun x hx hok record hrecord => by
        rw [hserver]
        exact hdone x (List.mem_cons_of_mem _ hx) hok record (List.mem_of_mem_tail (hwrites ▸ hrecord))
      refine ⟨o', ?_, hlinked', hcarries''⟩
      rw [List.foldlM_cons, hrun]
      exact hrest

/-- Writes that were canceled are gone already. -/
theorem Linked.foldlM_onComplete_canceled (h : o.Linked answered)
    (hcanceled : ∀ ack ∈ acks, ack.2 = kFErrorWriteCanceled) :
    ∃ o', acks.foldlM Online.onComplete o = .ok o' ∧ o'.Linked answered ∧ o'.session = o.session ∧
      SamePuts o.connection o'.connection ∧ o'.completions = o.completions ++ acks := by
  induction acks generalizing o with
  | nil => exact ⟨o, rfl, h, rfl, ⟨rfl, rfl, rfl⟩, (List.append_nil _).symm⟩
  | cons ack acks ih =>
      have hack := hcanceled ack List.mem_cons_self
      have hallowed : o.session.Allowed (.ackWrite ack.1 ack.2) := Or.inl hack
      obtain ⟨o₁, hcall, hlinked, hstep, hsame, hcompletions⟩ := h.call hallowed
      have hsession : o₁.session = o.session := by
        simp only [Session.step, FRepo.ackWrite, if_pos hack] at hstep
        exact (Except.ok.inj hstep).symm
      have hlinked' : Linked answered { o₁ with completions := o₁.completions ++ [ack] } :=
        ⟨hlinked.reachable, hlinked.sound, hlinked.listening, hlinked.listens⟩
      obtain ⟨o', hrest, hlinked'', hsession', hsame', hcompletions'⟩ :=
        ih hlinked' fun x hx => hcanceled x (List.mem_cons_of_mem _ hx)
      refine ⟨o', ?_, hlinked'', hsession'.trans hsession, hsame.trans ⟨hsame'.outstandingPuts, hsame'.putsToAck,
        hsame'.sentPuts⟩, ?_⟩
      · rw [List.foldlM_cons]
        unfold Online.onComplete
        rw [hcall]
        exact hrest
      · rw [hcompletions', hcompletions, List.append_assoc]
        rfl

/-! ### Every step goes through -/

/-- All that is true between two steps. -/
def Works (o : Online) : Prop := o.Linked 0 ∧ o.Carries []

/-- What leaves the writes alone. -/
theorem Works.call {event : SessionEvent} (h : o.Works) (hallowed : o.session.Allowed event)
    (hwrites : o.session.writesAfter event = o.session.writes)
    (hcounter : o.session.counterAfter event = o.session.repo.writeIdCounter) :
    ∃ o', o.call event = .ok o' ∧ o'.Works := by
  obtain ⟨hlinked, hcarries⟩ := h
  obtain ⟨o', hcall, hlinked', hstep, hsame, hcompletions⟩ := hlinked.call hallowed
  obtain ⟨hwrites', hcounter'⟩ := (Session.works hlinked.reachable).writes_step hallowed hstep
  exact ⟨o', hcall, hlinked', hcarries.of_same (hwrites'.trans hwrites) (hcounter'.trans hcounter) hsame
    hcompletions⟩

/-- A write is made, and goes to the connection. -/
theorem Works.write {event : SessionEvent} (record : FWriteRecord) (h : o.Works)
    (hallowed : o.session.Allowed event) (hid : record.writeId = o.session.repo.writeIdCounter)
    (hwrites : o.session.writesAfter event = o.session.writes ++ [record])
    (hcounter : o.session.counterAfter event = o.session.repo.writeIdCounter + 1) :
    ∃ o', o.write event (outstandingPut record) = .ok o' ∧ o'.Works := by
  obtain ⟨hlinked, hcarries⟩ := h
  obtain ⟨o₁, hcall, hlinked', hstep, hsame, hcompletions⟩ := hlinked.call hallowed
  obtain ⟨hwrites', hcounter'⟩ := (Session.works hlinked.reachable).writes_step hallowed hstep
  obtain ⟨c, hput, hsound, hlistening, hlistens, hack, hputs, hsent⟩ :=
    hlinked'.sound.putInternal hlinked'.listening (outstandingPut record)
  refine ⟨{ o₁ with connection := c }, ?_, hlinked'.with_connection hsound hlistening hlistens,
    hcarries.put hid (hwrites'.trans hwrites) (hcounter'.trans hcounter) hsame hcompletions hack hputs hsent⟩
  unfold Online.write
  rw [hcall]
  show o₁.connection.putInternal (outstandingPut record) >>= _ = _
  rw [hput]
  rfl

/-- Something happens to the connection. -/
theorem Works.of_keeps {c : FPersistentConnection} (h : o.Works) (hsound : c.Sound 0) (hlistening : c.Listening)
    (hkeeps : Keeps o.connection c) : Works { o with connection := c } :=
  ⟨h.1.with_connection hsound hlistening hkeeps.listens, h.2.of_keeps hkeeps⟩

/-- The connection hands out acknowledgements. -/
theorem Linked.onCompletes {result : FPersistentConnection × List (Int × String)} {status : String}
    (h : o.Linked answered) (hcarries : o.Carries []) (hsound : result.1.Sound 0)
    (hlistening : result.1.Listening) (hacks : Acknowledges o.connection status result)
    (hstatus : status ≠ kFErrorWriteCanceled)
    (hdone : ∀ ack ∈ result.2, ack.2 = kFWPResponseForActionStatusOk → ∀ record ∈ o.session.writes,
      record.writeId = ack.1 → Done o.session.server record) :
    ∃ o', o.onCompletes result = .ok o' ∧ o'.Works :=
  (h.with_connection hsound hlistening hacks.listens).foldlM_onComplete
    (hcarries.of_acknowledges hacks hstatus) hdone

/-- All writes are purged, and no answer to one is held back. -/
theorem Works.purgeOutstandingWrites (h : o.Works) (hnone : o.connection.putsToAck = []) :
    ∃ o', o.purgeOutstandingWrites = .ok o' ∧ o'.Works := by
  obtain ⟨hlinked, hcarries⟩ := h
  have hallowed : o.session.Allowed .purgeOutstandingWrites := trivial
  obtain ⟨o₁, hcall, hlinked₁, hstep, hsame, hcompletions⟩ := hlinked.call hallowed
  obtain ⟨hwrites, hcounter⟩ := (Session.works hlinked.reachable).writes_step hallowed hstep
  obtain ⟨hsound, hlistening, hacks⟩ := hlinked₁.sound.purgeOutstandingWrites hlinked₁.listening
  have hresult : o₁.connection.purgeOutstandingWrites.2 =
      o₁.connection.outstandingPuts.map fun x => (x.2.onCompleteBlock, kFErrorWriteCanceled) := by
    show o₁.connection.putsToAck ++ _ = _
    rw [hsame.putsToAck, hnone]
    rfl
  have hcanceled : ∀ ack ∈ o₁.connection.purgeOutstandingWrites.2, ack.2 = kFErrorWriteCanceled := by
    rw [hresult]
    intro ack hmem
    obtain ⟨x, -, rfl⟩ := List.mem_map.mp hmem
    rfl
  obtain ⟨o', hrun, hlinked', hsession, hsame', hcompletions'⟩ :=
    (hlinked₁.with_connection hsound hlistening hacks.listens).foldlM_onComplete_canceled hcanceled
  have hnone' : o'.connection.putsToAck = [] := hsame'.putsToAck
  have hempty : o'.connection.outstandingPuts = [] := hsame'.outstandingPuts
  have hwrites' : o'.session.writes = [] := (congrArg Session.writes hsession).trans hwrites
  have hcounter' : o'.session.repo.writeIdCounter = o.session.repo.writeIdCounter := by
    rw [hsession]
    exact hcounter
  have hputs : o'.connection.sentPuts = o.connection.sentPuts :=
    hsame'.sentPuts.trans (hacks.sentPuts.trans hsame.sentPuts)
  obtain ⟨held, rest, hall, hheld, hrest⟩ := hcarries.writes
  obtain ⟨n, hn, hids⟩ := hcarries.completed
  refine ⟨o', ?_, hlinked', ⟨[], [], hwrites', by rw [hnone']; rfl, by rw [hempty]; rfl⟩,
    ⟨n, hcounter'.trans hn, ?_⟩, by rw [hnone']; nofun, ?_⟩
  · unfold Online.purgeOutstandingWrites
    rw [hcall]
    exact hrun
  · -- the writes that waited are those that were canceled
    have hheld' : held = [] := by
      rw [hnone] at hheld
      exact List.map_eq_nil_iff.mp hheld
    rw [hwrites', List.map_nil, List.append_nil, hcompletions', ← hids, hall, hheld', List.nil_append, hresult,
      List.map_append, hcompletions]
    refine congrArg (o.completions.map Prod.fst ++ ·) ?_
    have hmap := congrArg (List.map FOutstandingPut.onCompleteBlock) hrest
    rw [List.map_map, List.map_map] at hmap
    rw [List.map_map, hsame.outstandingPuts]
    exact hmap
  · rw [hputs, hcounter']
    exact hcarries.sent

/-- The block of a listen, and then the acknowledgements that were held back until it. -/
theorem Works.listenAnswered {rn : Nat} {status : String} {listenSpec : FOutstandingQuery}
    {c : FPersistentConnection} (h : o.Works)
    (htake : o.connection.takeBlock rn = some (.listen listenSpec, c))
    (hstatus : status ≠ kFErrorWriteCanceled)
    (hallowed : o.session.Allowed (.listenResponse listenSpec.query status))
    (hdone : ∀ ack ∈ o.connection.putsToAck, ack.2 = kFWPResponseForActionStatusOk →
      ∀ record ∈ o.session.writes, record.writeId = ack.1 → Done o.session.server record) :
    ∃ o', o.onResponse rn status = .ok o' ∧ o'.Works := by
  obtain ⟨hlinked, hcarries⟩ := h
  obtain ⟨hsound, hlistening, hlistens, hsame⟩ := hlinked.sound.takeListen hlinked.listening htake
  have hlinked₁ := hlinked.with_connection hsound hlistening hlistens
  have hcarries₁ : Carries [] { o with connection := c } := hcarries.of_same rfl rfl hsame rfl
  -- the listen may be gone, or another one
  obtain ⟨o₂, hblock, hlinked₂, hcarries₂, hserver, hwrites, hack⟩ : ∃ o₂,
      Online.onListenResponse { o with connection := c } listenSpec status = .ok o₂ ∧ o₂.Linked 1 ∧ o₂.Carries [] ∧
      o₂.session.server = o.session.server ∧ o₂.session.writes = o.session.writes ∧
      o₂.connection.putsToAck = o.connection.putsToAck := by
    unfold Online.onListenResponse
    split
    · obtain ⟨o₂, hrun, hlinked₂, hstep, hsame₂, hcompletions⟩ := hlinked₁.onListenComplete hallowed
      obtain ⟨hwrites, hcounter⟩ := (Session.works hlinked.reachable).writes_step hallowed hstep
      obtain ⟨repo, -, hstep⟩ := bind_eq_ok.mp hstep
      have hsession := Except.ok.inj hstep
      exact ⟨o₂, hrun, hlinked₂, hcarries₁.of_same hwrites hcounter hsame₂ hcompletions, by rw [← hsession],
        hwrites, hsame₂.putsToAck.trans hsame.putsToAck⟩
    · exact ⟨_, rfl, hlinked₁, hcarries₁, rfl, rfl, hsame.putsToAck⟩
  obtain ⟨result, hanswered, hsound', hlistening', hacks, hprefix⟩ :=
    hlinked₂.sound.listenAnswered hlinked₂.listening status
  obtain ⟨o', hrun, hworks⟩ := hlinked₂.onCompletes hcarries₂ hsound' hlistening' hacks hstatus
    fun ack hmem hok record hrecord hid => by
      rw [hserver]
      exact hdone ack (hack ▸ hprefix.subset hmem) hok record (hwrites ▸ hrecord) hid
  refine ⟨o', ?_, hworks⟩
  unfold Online.onResponse
  rw [htake]
  show Online.onListenResponse { o with connection := c } listenSpec status >>= _ = _
  rw [hblock]
  show o₂.connection.listenAnswered >>= _ = _
  rw [hanswered]
  exact hrun

/-- A response comes. -/
theorem Works.onResponse {rn : Nat} {status : String} (h : o.Works)
    (hallowed : o.Allowed (.response rn status)) : ∃ o', o.onResponse rn status = .ok o' ∧ o'.Works := by
  obtain ⟨hstatus, hin, hrestorable, hlisten, hdone⟩ := hallowed
  obtain ⟨hlinked, hcarries⟩ := id h
  cases htake : o.connection.takeBlock rn with
  | none =>
      refine ⟨o, ?_, h⟩
      unfold Online.onResponse
      rw [htake]
      rfl
  | some taken =>
      obtain ⟨block, c⟩ := taken
      cases block with
      | auth restore =>
          obtain ⟨c', hrun, hsound, hlistening, hkeeps⟩ :=
            hlinked.sound.onAuthResponse hlinked.listening htake hin (hrestorable restore c htake)
          refine ⟨_, ?_, h.of_keeps hsound hlistening hkeeps⟩
          unfold Online.onResponse
          rw [htake]
          exact congrArg (· >>= _) hrun
      | put index =>
          obtain ⟨hsound, hlistening, hacks⟩ :=
            hlinked.sound.onPutResponse hlinked.listening status htake hin
          obtain ⟨o', hrun, hworks⟩ := hlinked.onCompletes hcarries hsound hlistening hacks hstatus
            fun ack hmem => hdone ack (by rw [acks, htake]; exact hmem)
          refine ⟨o', ?_, hworks⟩
          unfold Online.onResponse
          rw [htake]
          exact hrun
      | listen listenSpec =>
          refine h.listenAnswered htake hstatus (hlisten listenSpec c htake) fun ack hmem =>
            hdone ack ?_
          rw [acks, htake]
          obtain ⟨-, -, -, hsame⟩ := hlinked.sound.takeListen hlinked.listening htake
          show ack ∈ c.putsToAck
          rw [hsame.putsToAck]
          exact hmem

/-- **Every allowed step goes through**, and all goes on working. -/
theorem Works.step {event : OnlineEvent} (h : o.Works) (hallowed : o.Allowed event) :
    ∃ o', o.step event = .ok o' ∧ o'.Works := by
  cases event with
  | set path node =>
      have hset : o.session.Allowed (.set path node) := hallowed
      exact h.write ⟨path, .overwrite node, o.session.repo.writeIdCounter, true⟩ hset rfl rfl rfl
  | update path nodes =>
      have hupdate : o.session.Allowed (.update path nodes) := hallowed
      by_cases hempty : nodes.isEmpty = true
      · exact ⟨o, if_neg (not_not.mpr hempty), h⟩
      · obtain ⟨o', hrun, hworks⟩ := h.write ⟨path, .merge nodes, o.session.repo.writeIdCounter, true⟩ hupdate
          rfl (if_neg hempty) (if_neg hempty)
        exact ⟨o', (if_pos hempty).trans hrun, hworks⟩
  | purgeOutstandingWrites => exact h.purgeOutstandingWrites hallowed
  | addEventRegistration eventRegistration path => exact h.call hallowed rfl rfl
  | removeEventRegistration eventRegistration path => exact h.call trivial rfl rfl
  | dataUpdate path data => exact h.call hallowed rfl rfl
  | connection event =>
      obtain ⟨c, hrun, hsound, hlistening, hkeeps⟩ := h.1.sound.step h.1.listening hallowed
      exact ⟨_, congrArg (· >>= _) hrun, h.of_keeps hsound hlistening hkeeps⟩
  | response rn status => exact h.onResponse hallowed
  | onListenRevoked path =>
      by_cases hmem : path ∈ o.connection.queries
      · have hrevoked : o.session.Allowed (.listenResponse path "permission_denied") := fun _ hok =>
          absurd hok (by decide)
        obtain ⟨hlinked, hcarries⟩ := h
        obtain ⟨o', hrun, hlinked', hstep, hsame, hcompletions⟩ := hlinked.onListenComplete hrevoked
        obtain ⟨hwrites, hcounter⟩ := (Session.works hlinked.reachable).writes_step hrevoked hstep
        exact ⟨o', (if_pos hmem).trans hrun, hlinked', hcarries.of_same hwrites hcounter hsame hcompletions⟩
      · exact ⟨o, if_neg hmem, h⟩
  | elsewhere server => exact h.call hallowed rfl rfl

/-- **All works.** -/
theorem works (h : Reachable o) : o.Works := by
  refine h.invariant ?_ ?_
  · rintro ⟨session, connection, completions⟩ ⟨hinitial, hconnection, hcompletions⟩
    cases hconnection
    cases hcompletions
    obtain ⟨repo, server⟩ := session
    cases hinitial
    obtain ⟨hsound, hlistening⟩ := FPersistentConnection.sound_init
    exact ⟨⟨.start rfl, hsound, hlistening, fun p => Iff.rfl⟩, ⟨[], [], rfl, rfl, rfl⟩, ⟨0, rfl, rfl⟩, nofun,
      List.Pairwise.nil, nofun⟩
  · intro o event o' _ hworks hallowed hstep
    obtain ⟨t, ht, hworks'⟩ := hworks.step hallowed
    rw [hstep] at ht
    cases ht
    exact hworks'

/-- Where an event leads. -/
def after (o : Online) (event : OnlineEvent) : Online :=
  match o.step event with
  | .ok o' => o'
  | .error _ => o

/-- An allowed event leads on. -/
theorem reachable_after {event : OnlineEvent} (h : Reachable o) (hallowed : o.Allowed event) :
    Reachable (o.after event) := by
  obtain ⟨o', hstep, -⟩ := (works h).step hallowed
  have hafter : o.after event = o' := by rw [after, hstep]
  exact hafter ▸ h.next hallowed hstep

/-- A client that has just been started. -/
def started : Online := ⟨⟨FRepo.init, ∅⟩, .init, []⟩

/-- The connection is there. -/
def ready : Online :=
  ((started.after (.connection .tryScheduleReconnect)).after
    (.connection (.openNetworkConnection none))).after (.connection .onReady)

/-- Someone observes the root. -/
def observed : Online := ready.after (.addEventRegistration (.value 0) [])

/-- And then writes there. -/
def wrote : Online := observed.after (.set [] (.children [("a", .leaf (.bool true))]))

/-- The write was answered, and the listen was not. -/
def waiting : Online := wrote.after (.response 2 kFWPResponseForActionStatusOk)

/-- The observer goes, and so does the connection. There is another one, and a new write
waits for it. -/
def stranded : Online :=
  ((((waiting.after (.removeEventRegistration (.value 0) [])).after (.connection .onDisconnect)).after
    (.connection .tryScheduleReconnect)).after (.connection (.openNetworkConnection none))).after
    (.set [] (.children [("a", .leaf (.bool true))]))

/-- Nobody writes, and the server sends what it has. -/
def told : Online := observed.after (.dataUpdate [] (.snap (.children [("a", .leaf (.bool true))])))

theorem reachable_started : Reachable started := .start ⟨rfl, rfl, rfl⟩

theorem reachable_ready : Reachable ready := by
  refine reachable_after (reachable_after (reachable_after reachable_started ?_) ?_) ?_
  · rfl
  · rfl
  · exact ⟨rfl, fun _ => Or.inl rfl⟩

theorem reachable_observed : Reachable observed := by
  have hobserve : ready.Allowed (.addEventRegistration (.value 0) []) := by
    have hsession : ready.session = ⟨FRepo.init, ∅⟩ := rfl
    refine ⟨plainPath_nil, ?_⟩
    rw [hsession]
    simp [Session.Unheard, Session.views, FRepo.init, FSyncTree.forEach_init]
  exact reachable_after reachable_ready hobserve

theorem reachable_wrote : Reachable wrote :=
  reachable_after reachable_observed (Session.allowed_written (.value 0))

theorem reachable_waiting : Reachable waiting := by
  have htake : wrote.connection.takeBlock 2 = some (.put 1, _) := rfl
  have hacks : wrote.acks 2 kFWPResponseForActionStatusOk = [] := rfl
  have hresponse : wrote.Allowed (.response 2 kFWPResponseForActionStatusOk) := by
    refine ⟨by decide, fun block _ _ x hx hlt => ?_, fun restore c h => ?_, fun listenSpec c h => ?_, ?_⟩
    · have hblocks : wrote.connection.requestCBHash = [(1, .listen ⟨[], 0⟩), (2, .put 1)] := rfl
      rw [hblocks] at hx
      simp only [List.mem_cons, List.not_mem_nil, or_false] at hx
      rcases hx with rfl | rfl
      · rfl
      · exact absurd hlt (Nat.lt_irrefl 2)
    · rw [htake] at h
      cases h
    · rw [htake] at h
      cases h
    · rw [hacks]
      nofun
  exact reachable_after reachable_wrote hresponse

/-- The answer to the write is held back as long as the listen is not answered. -/
example : waiting.completions = [] ∧ waiting.connection.putsToAck = [(0, "ok")] := by decide

theorem reachable_stranded : Reachable stranded := by
  refine reachable_after (reachable_after (reachable_after (reachable_after (reachable_after reachable_waiting
    ?_) ?_) ?_) ?_) ?_
  · exact trivial
  · exact trivial
  · rfl
  · rfl
  · exact Session.allowed_written (.value 0)

theorem reachable_told : Reachable told :=
  reachable_after reachable_observed
    ⟨plainPath_nil, (Session.allowed_written (.value 0)).2.1, Or.inr fun _ _ hx => List.prefix_nil.mp hx⟩

end Online

end MyChat
