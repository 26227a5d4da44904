import MyChat.Firebase

/-!
# MyChat.DataClass

The classes `Chat`, `Message` and `User` with their encoders, and the readers that
decode a stored record by hand in the screens that need it.

Every field of the classes is an optional, so encoding forces them and can trap.
A value all of whose fields are there is a *record* (`ChatRecord`,
`MessageRecord`, `UserRecord`): encoding it cannot trap, and reading the encoded
record gives the value back. The invariants of the later files are about records.
-/

namespace MyChat

abbrev UserId := String

/-! ### Chat -/

/-- `class Chat`. -/
structure Chat where
  chatId : Option String
  name : Option String
  lastMessenger : Option String
  messState : Option String
  friendIsOnline : Option Bool
  ts : Int64
  avatarUrl : Option String
  deriving DecidableEq

/-- `Chat.toDictionary`. `avatarUrl` is the one field put in without `!`: a nil one
becomes `NSNull` and is not stored. -/
def Chat.toDictionary (self : Chat) : Except Fault Snapshot := do
  let chatId ← unwrap "chatId" self.chatId
  let name ← unwrap "name" self.name
  let lastMessenger ← unwrap "lastMessenger" self.lastMessenger
  let messState ← unwrap "messState" self.messState
  let friendIsOnline ← unwrap "friendIsOnline" self.friendIsOnline
  let avatarUrl := self.avatarUrl.toList.map fun url => ("avatarUrl", Scalar.string url)
  return .ofFields ([("chatId", .string chatId), ("name", .string name),
    ("lastMessenger", .string lastMessenger), ("messState", .string messState),
    ("friendIsOnline", .bool friendIsOnline), ("ts", .int self.ts)] ++ avatarUrl)

/-- The body of the loop in `fetchListOfChatBox`: one child of `chatbox/<user>`. -/
def Chat.ofSnapshot (snap : Snapshot) : Except Fault Chat := do
  let dict ← unwrap "dict" snap.dictionary?
  let chatId ← unwrap "chatId" (dict.string? "chatId")
  let name ← unwrap "name" (dict.string? "name")
  let lastMessage ← unwrap "lastMessage" (dict.string? "lastMessenger")
  let messState ← unwrap "messState" (dict.string? "messState")
  let friendIsOnline := dict.bool? "friendIsOnline"
  let ts ← unwrap "ts" (dict.int? "ts")
  let avatarUrl ← unwrap "avatarUrl" (dict.string? "avatarUrl")
  return { chatId, name, lastMessenger := lastMessage, messState, friendIsOnline, ts, avatarUrl }

/-- An encoded chat has its state. -/
theorem Chat.messState_of_toDictionary {c : Chat} {d : Snapshot} (h : c.toDictionary = .ok d) :
    d.string? "messState" = c.messState := by
  simp only [Chat.toDictionary, bind_eq_ok, unwrap_eq_ok] at h
  obtain ⟨_, -, _, -, _, -, messState, hstate, _, -, hd⟩ := h
  rw [← Except.ok.inj hd, Snapshot.string?, PathTree.get_ofFields, hstate]
  cases c.avatarUrl <;> simp [List.lookup_cons, Scalar.string?]

/-- A chat with all its fields. -/
structure ChatRecord where
  chatId : String
  name : String
  lastMessenger : String
  messState : String
  friendIsOnline : Bool
  ts : Int64
  avatarUrl : String
  deriving DecidableEq

namespace ChatRecord

def toChat (r : ChatRecord) : Chat where
  chatId := r.chatId
  name := r.name
  lastMessenger := r.lastMessenger
  messState := r.messState
  friendIsOnline := r.friendIsOnline
  ts := r.ts
  avatarUrl := r.avatarUrl

/-- The dictionary stored for the record. -/
def dict (r : ChatRecord) : Snapshot :=
  .ofFields [("chatId", .string r.chatId), ("name", .string r.name),
    ("lastMessenger", .string r.lastMessenger), ("messState", .string r.messState),
    ("friendIsOnline", .bool r.friendIsOnline), ("ts", .int r.ts),
    ("avatarUrl", .string r.avatarUrl)]

theorem toDictionary_toChat (r : ChatRecord) : r.toChat.toDictionary = .ok r.dict := rfl

@[simp] theorem get_dict (r : ChatRecord) (key : String) :
    r.dict.get [key] = [("avatarUrl", .string r.avatarUrl), ("ts", .int r.ts),
      ("friendIsOnline", .bool r.friendIsOnline), ("messState", .string r.messState),
      ("lastMessenger", .string r.lastMessenger), ("name", .string r.name),
      ("chatId", .string r.chatId)].lookup key := by
  rw [dict, PathTree.get_ofFields]
  rfl

theorem dict_ne_empty (r : ChatRecord) : r.dict ≠ ∅ := by
  intro h
  have := r.get_dict "ts"
  simp [h, List.lookup_cons] at this

theorem dictionary?_dict (r : ChatRecord) : r.dict.dictionary? = some r.dict :=
  Snapshot.dictionary?_of_get "chatId" (by decide) (by simp [List.lookup_cons]; rfl)

/-- **Round trip.** What `toDictionary` stored is read back by the chat list reader. -/
@[simp] theorem ofSnapshot_dict (r : ChatRecord) : Chat.ofSnapshot r.dict = .ok r.toChat := by
  simp [Chat.ofSnapshot, dictionary?_dict, Snapshot.string?, Snapshot.bool?, Snapshot.int?,
    List.lookup_cons, Scalar.string?, Scalar.bool?, Scalar.int?, toChat, bind, Except.bind]
  rfl

theorem dict_injective {r r' : ChatRecord} (h : r.dict = r'.dict) : r = r' := by
  have hchat : r.toChat = r'.toChat := by
    have := r.ofSnapshot_dict
    rw [h, ofSnapshot_dict] at this
    exact (Except.ok.inj this).symm
  cases r
  cases r'
  simp_all [toChat]

end ChatRecord

/-! ### Message -/

/-- `class Message`. -/
structure Message where
  id : Option String
  fromId : Option String
  toId : Option String
  ts : Option Int64
  seen : Option Bool
  message : Option String
  deriving DecidableEq

/-- `Message.getDictionary`. -/
def Message.getDictionary (self : Message) : Except Fault Snapshot := do
  let id ← unwrap "id" self.id
  let fromId ← unwrap "fromId" self.fromId
  let toId ← unwrap "toId" self.toId
  let ts ← unwrap "ts" self.ts
  let seen ← unwrap "seen" self.seen
  let message ← unwrap "message" self.message
  return .ofFields [("id", .string id), ("fromId", .string fromId), ("toId", .string toId),
    ("ts", .int ts), ("seen", .bool seen), ("message", .string message)]

/-- The body of the `childAdded` observer in `ChatBoxViewController.viewDidLoad`. -/
def Message.ofSnapshot (snapshot : Snapshot) : Except Fault Message := do
  let dict ← unwrap "dict" snapshot.dictionary?
  let fromId := dict.string? "fromId"
  let toId := dict.string? "toId"
  let seen := dict.bool? "seen"
  let ts := dict.int? "ts"
  let message := dict.string? "message"
  let id ← unwrap "id" (dict.string? "id")
  let fromId ← unwrap "fromId" fromId
  let toId ← unwrap "toId" toId
  let message ← unwrap "message" message
  let ts ← unwrap "ts" ts
  let seen ← unwrap "seen" seen
  return { id, fromId, toId, ts, seen, message }

/-- An encoded message has no state of a chat. -/
theorem Message.messState_of_getDictionary {m : Message} {d : Snapshot}
    (h : m.getDictionary = .ok d) : d.string? "messState" = none := by
  simp only [Message.getDictionary, bind_eq_ok, unwrap_eq_ok] at h
  obtain ⟨_, -, _, -, _, -, _, -, _, -, _, -, hd⟩ := h
  rw [← Except.ok.inj hd, Snapshot.string?, PathTree.get_ofFields]
  simp [List.lookup_cons]

/-- A message with all its fields. -/
structure MessageRecord where
  id : String
  fromId : String
  toId : String
  ts : Int64
  seen : Bool
  message : String
  deriving DecidableEq

namespace MessageRecord

def toMessage (r : MessageRecord) : Message where
  id := r.id
  fromId := r.fromId
  toId := r.toId
  ts := r.ts
  seen := r.seen
  message := r.message

/-- The dictionary stored for the record. -/
def dict (r : MessageRecord) : Snapshot :=
  .ofFields [("id", .string r.id), ("fromId", .string r.fromId), ("toId", .string r.toId),
    ("ts", .int r.ts), ("seen", .bool r.seen), ("message", .string r.message)]

theorem getDictionary_toMessage (r : MessageRecord) : r.toMessage.getDictionary = .ok r.dict := rfl

@[simp] theorem get_dict (r : MessageRecord) (key : String) :
    r.dict.get [key] = [("message", .string r.message), ("seen", .bool r.seen), ("ts", .int r.ts),
      ("toId", .string r.toId), ("fromId", .string r.fromId),
      ("id", Scalar.string r.id)].lookup key := by
  rw [dict, PathTree.get_ofFields]
  rfl

theorem dict_ne_empty (r : MessageRecord) : r.dict ≠ ∅ := by
  intro h
  have := r.get_dict "ts"
  simp [h, List.lookup_cons] at this

theorem dictionary?_dict (r : MessageRecord) : r.dict.dictionary? = some r.dict :=
  Snapshot.dictionary?_of_get "id" (by decide) (by simp [List.lookup_cons]; rfl)

/-- **Round trip.** What `getDictionary` stored is read back by the message observer. -/
@[simp] theorem ofSnapshot_dict (r : MessageRecord) :
    Message.ofSnapshot r.dict = .ok r.toMessage := by
  simp [Message.ofSnapshot, dictionary?_dict, Snapshot.string?, Snapshot.bool?, Snapshot.int?,
    List.lookup_cons, Scalar.string?, Scalar.bool?, Scalar.int?, toMessage, bind, Except.bind]
  rfl

theorem dict_injective {r r' : MessageRecord} (h : r.dict = r'.dict) : r = r' := by
  have hmessage : r.toMessage = r'.toMessage := by
    have := r.ofSnapshot_dict
    rw [h, ofSnapshot_dict] at this
    exact (Except.ok.inj this).symm
  cases r
  cases r'
  simp_all [toMessage]

end MessageRecord

/-! ### User -/

/-- `class User`. -/
structure User where
  id : Option UserId
  name : Option String
  state : Option String
  avatarUrl : Option String
  friendList : Option (List (Option String))
  deriving DecidableEq

namespace User

/-- An array of strings as stored: children keyed by index, nil elements left out. -/
def arrayValue (elements : List (Option String)) : Snapshot :=
  .ofFields (elements.zipIdx.filterMap fun (element, index) =>
    element.map fun s => (toString index, .string s))

/-- `User.getDictionary`. -/
def getDictionary (self : User) : Except Fault Snapshot := do
  let id ← unwrap "id" self.id
  let name ← unwrap "name" self.name
  let state ← unwrap "state" self.state
  let avatarUrl ← unwrap "avatarUrl" self.avatarUrl
  let friendList ← unwrap "friendList" self.friendList
  let fields : Snapshot := .ofFields [("id", .string id), ("name", .string name),
    ("state", .string state), ("avatarUrl", .string avatarUrl)]
  return fields.graft ["friendList"] (arrayValue friendList)

end User

/-- The user that a first login registers: all fields are there and the friend list
is empty. -/
structure UserRecord where
  id : UserId
  name : String
  state : String
  avatarUrl : String
  deriving DecidableEq

namespace UserRecord

def toUser (r : UserRecord) : User where
  id := r.id
  name := r.name
  state := r.state
  avatarUrl := r.avatarUrl
  friendList := some []

/-- The dictionary stored for the record. The empty friend list leaves no trace. -/
def dict (r : UserRecord) : Snapshot :=
  (PathTree.ofFields [("id", .string r.id), ("name", .string r.name),
    ("state", .string r.state), ("avatarUrl", .string r.avatarUrl)]).graft ["friendList"] ∅

theorem getDictionary_toUser (r : UserRecord) : r.toUser.getDictionary = .ok r.dict := rfl

@[simp] theorem get_dict (r : UserRecord) (key : String) (hkey : key ≠ "friendList") :
    r.dict.get [key] = [("avatarUrl", .string r.avatarUrl), ("state", .string r.state),
      ("name", .string r.name), ("id", Scalar.string r.id)].lookup key := by
  have hinc : Incomparable ["friendList"] [key] := by
    simp [Incomparable, hkey, Ne.symm hkey]
  have hget : ∀ t : Snapshot, t.get [key] = (t.subtree [key]).get [] := fun t => by
    rw [PathTree.get_subtree, List.append_nil]
  rw [dict, hget, PathTree.subtree_graft_of_incomparable hinc, ← hget, PathTree.get_ofFields]
  rfl

theorem dict_ne_empty (r : UserRecord) : r.dict ≠ ∅ := by
  intro h
  have := r.get_dict "name" (by decide)
  simp [h, List.lookup_cons] at this

theorem dictionary?_dict (r : UserRecord) : r.dict.dictionary? = some r.dict :=
  Snapshot.dictionary?_of_get "name" (by decide)
    (by rw [get_dict _ _ (by decide)]; simp [List.lookup_cons]; rfl)

/-- The readers of `users/<id>` find the registered name. -/
@[simp] theorem string?_name (r : UserRecord) : r.dict.string? "name" = some r.name := by
  simp [Snapshot.string?, List.lookup_cons, Scalar.string?]

/-- The readers of `users/<id>` find the registered state. -/
@[simp] theorem string?_state (r : UserRecord) : r.dict.string? "state" = some r.state := by
  simp [Snapshot.string?, List.lookup_cons, Scalar.string?]

/-- The readers of `users/<id>` find the registered avatar. -/
@[simp] theorem string?_avatarUrl (r : UserRecord) :
    r.dict.string? "avatarUrl" = some r.avatarUrl := by
  simp [Snapshot.string?, Scalar.string?]

theorem string?_messState (r : UserRecord) : r.dict.string? "messState" = none := by
  simp [Snapshot.string?, List.lookup_cons]

theorem dict_injective {r r' : UserRecord} (h : r.dict = r'.dict) : r = r' := by
  have hstring : ∀ key, r.dict.string? key = r'.dict.string? key := fun key => by rw [h]
  have hid := hstring "id"
  have hname := hstring "name"
  have hstate := hstring "state"
  have hurl := hstring "avatarUrl"
  clear hstring h
  cases r
  cases r'
  simp_all [Snapshot.string?, List.lookup_cons, Scalar.string?]

/-- A user all of whose stored fields are as the record says. The friend list may be
anything. -/
structure Matches (u : UserRecord) (user : User) : Prop where
  id : user.id = some u.id
  name : user.name = some u.name
  state : user.state = some u.state
  avatarUrl : user.avatarUrl = some u.avatarUrl

theorem matches_toUser (u : UserRecord) : u.Matches u.toUser := ⟨rfl, rfl, rfl, rfl⟩

theorem Matches.id_eq {u : UserRecord} {user : User} {id : UserId} (h : u.Matches user)
    (hid : user.id = some id) : u.id = id :=
  Option.some.inj (h.id.symm.trans hid)

/-- A user put together from the fields of a registered dictionary. -/
theorem matches_dict (u : UserRecord) (friendList : Option (List (Option String))) :
    u.Matches ⟨some u.id, u.dict.string? "name", u.dict.string? "state",
      u.dict.string? "avatarUrl", friendList⟩ :=
  ⟨rfl, by simp, by simp, by simp⟩

end UserRecord

end MyChat
