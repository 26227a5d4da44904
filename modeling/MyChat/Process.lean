import MyChat.DataClass

/-!
# MyChat.Process

The state of one running app. Objects that are shared by reference in the source
are addressed: a `Chat` lives in `chats` and is held by its index in the chat
lists, in the screens and in the closures that captured it, so a mutation through
one holder is seen by all of them.

The closures handed to `observe` are the constructors of `Callback`, each with what
it captured. Firebase keeps them in `observers`; an observer of value events fires
when the data at its location, as this device sees it, is not what it delivered last.
-/

namespace MyChat

/-- A `Chat` object. `owner` and `key` record where it was decoded from (the child
`key` of `chatbox/<owner>`); the app does not keep them, and nothing reads them
but the statements about it. -/
structure ChatObject where
  chat : Chat
  owner : UserId
  key : String
  deriving DecidableEq

/-- Index of a `Chat` object in the process. -/
abbrev ChatRef := Nat

/-- The closures registered with `observe`, with their captured variables. -/
inductive Callback
  /-- `fetchFacebookDataDidEnd`, on `users/<id>`. -/
  | login (user : User) (userDictionary : Snapshot)
  /-- `fetchListOfChatBox`, on `chatbox/<owner>`; `chatList` is the captured variable
  and `owner` is only there to record where the decoded objects come from. -/
  | chatList (owner : UserId) (chatList : List ChatRef)
  /-- `addFriendButtonTapped`, on `users/<id>`. -/
  | lookup (id : String)
  /-- `createNewChatBox`, on `chatbox/<user>/<user>_<friend>`. -/
  | create (friend user : User)
  /-- The friend observer of a chat screen, on `users/<friendId>`. -/
  | friend (screen : Nat)
  /-- The message observer of a chat screen, on `messages/<chatId>`, with the keys
  of the children already delivered. -/
  | message (screen : Nat) (delivered : List String)
  deriving DecidableEq

/-- A registered observer. -/
structure Observer where
  ref : Path
  callback : Callback
  /-- The value delivered last. -/
  last : Option Snapshot
  deriving DecidableEq

/-- `HomeViewController`: the user it was loaded for and the rows it shows. -/
structure HomeViewController where
  currentUser : User
  chatList : List ChatRef
  deriving DecidableEq

/-- `ChatBoxViewController`. -/
structure ChatBoxViewController where
  friendId : Option UserId
  currentUser : Option User
  currentChatBox : Option ChatRef
  messages : List Message
  nameLabel : Option String
  deriving DecidableEq

/-- One process. -/
structure Device where
  /-- `AccessToken.current?.userID`. -/
  accessToken : Option UserId
  /-- `ProfileBusiness.shared.currentUser`. -/
  currentUser : User
  /-- Graph requests without a reply, with the account whose token was current when
  they were issued. -/
  requests : List (Option UserId)
  observers : List Observer
  chats : List ChatObject
  /-- The home screens loaded so far. -/
  homes : List HomeViewController
  /-- `ChatBusiness.shared.fetchListOfChatBoxListener`. -/
  fetchListOfChatBoxListener : Option Nat
  /-- The chat screens presented so far. -/
  screens : List ChatBoxViewController
  /-- Title and message of the alerts shown by `showMessageDialog`. -/
  dialogs : List (String × String)
  /-- `setValue` calls that have not reached the server. -/
  pending : List Write
  deriving DecidableEq

namespace Device

/-- A process just started. `currentUser` is `User()`, whose id is a random string. -/
def launch (accessToken : Option UserId) (randomId : String) : Device where
  accessToken := accessToken
  currentUser := ⟨randomId, "", "Offline", "", some []⟩
  requests := []
  observers := []
  chats := []
  homes := []
  fetchListOfChatBoxListener := none
  screens := []
  dialogs := []
  pending := []

/-- The data as the device sees it: what the server has, with its own writes on top. -/
def view (dev : Device) (server : Snapshot) : Snapshot := applyAll server dev.pending

/-- `ref.observe(…)`. -/
def observe (dev : Device) (ref : Path) (callback : Callback) : Device :=
  { dev with observers := dev.observers ++ [⟨ref, callback, none⟩] }

/-- `ref.removeAllObservers()`: the observers registered at that very location. -/
def removeAllObservers (dev : Device) (ref : Path) : Device :=
  { dev with observers := dev.observers.filter (·.ref ≠ ref) }

/-- `ref.setValue(value)`. -/
def setValue (dev : Device) (ref : Path) (value : Snapshot) : Device :=
  { dev with pending := dev.pending ++ [⟨ref, value⟩] }

/-- `showMessageDialog`. -/
def showMessageDialog (dev : Device) (title mess : String) : Device :=
  { dev with dialogs := dev.dialogs ++ [(title, mess)] }

/-- Observer `i` delivered `snapshot`; its closure may have changed what it captured. -/
def delivered (dev : Device) (i : Nat) (callback : Callback) (snapshot : Snapshot) : Device :=
  { dev with observers := dev.observers.modify i fun o => ⟨o.ref, callback, some snapshot⟩ }

end Device

/-- The root reference, `Database.database().reference()`. -/
def rootRef : Path := []

/-- `"\(user)_\(friend)"`. -/
def chatKey (user friend : UserId) : String := user ++ "_" ++ friend

end MyChat
