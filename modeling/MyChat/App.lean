import MyChat.Process

/-!
# MyChat.App

The functions of the app, class by class, as functions on the process state. A
closure handed to Firebase or to Facebook is a function of its own, named after
the function that registers it with the suffix `Value` (an observer of `.value`),
`Added` (an observer of `.childAdded`) or `Handler` (a completion handler).

`Device.act` puts them together: what one action does to one process, given the
data on the server.
-/

namespace MyChat

/-! ### Facebook's `/me` -/

/-- A JSON value as Facebook's Graph API returns it. -/
inductive Json
  | null
  | bool (b : Bool)
  | number (n : Int)
  | string (s : String)
  | array (elements : List Json)
  | dictionary (fields : List (String × Json))

namespace Json

/-- `as? NSDictionary`, then the subscript with `key`. -/
def field (key : String) : Json → Option Json
  | .dictionary fields => fields.lookup key
  | _ => none

/-- `as? String`. -/
def string? : Json → Option String
  | .string s => some s
  | _ => none

end Json

/-- `facebookName` in the handler of `fetchFacebookData`. -/
def facebookName (result : Json) : Option String := (result.field "name").bind Json.string?

/-- `facebookUrl` in the handler of `fetchFacebookData`. -/
def facebookUrl (result : Json) : Option String :=
  (((result.field "picture").bind (Json.field "data")).bind (Json.field "url")).bind Json.string?

/-! ### ChatBusiness -/

namespace ChatBusiness

/-- `fetchListOfChatBox`. -/
def fetchListOfChatBox (dev : Device) (user : User) : Except Fault Device := do
  let id ← unwrap "user.id" user.id
  let ref ← child ["chatbox"] id
  return dev.observe ref (.chatList id [])

/-- `HomeViewController.fetchListOfChatBoxDidEnd`, called on the one listener. -/
def fetchListOfChatBoxDidEnd (dev : Device) (chatList : List ChatRef) : Device :=
  match dev.fetchListOfChatBoxListener with
  | some home => { dev with homes := dev.homes.modify home fun vc => { vc with chatList } }
  | none => dev

/-- The objects that one round of the loop over `snapshot.children` allocates. -/
def chatObjects (owner : UserId) (snapshot : Snapshot) : Except Fault (List ChatObject) :=
  snapshot.children.mapM fun key => do
    let chat ← Chat.ofSnapshot (snapshot.subtree [key])
    return { chat, owner, key }

/-- The closure of `fetchListOfChatBox`. The captured `chatList` is appended to, and
`removeAllObservers` is called on the root reference. -/
def fetchListOfChatBoxValue (dev : Device) (i : Nat) (owner : UserId) (chatList : List ChatRef)
    (snapshot : Snapshot) : Except Fault Device := do
  let objects ← chatObjects owner snapshot
  -- `chatList` is captured, so what earlier snapshots appended is still in it
  let chatList := chatList ++ List.range' dev.chats.length objects.length
  let dev := { dev with chats := dev.chats ++ objects }
  let dev := dev.delivered i (.chatList owner chatList) snapshot
  let dev := fetchListOfChatBoxDidEnd dev chatList
  return dev.removeAllObservers rootRef

/-- The greeting stored as last message of a new chat. -/
def greeting : String := "Hãy gửi tin nhắn chào bạn của mình nào!"

/-- `createNewChatBox`. -/
def createNewChatBox (dev : Device) (friend user : User) : Except Fault Device := do
  let id ← unwrap "user.id" user.id
  let friendId ← unwrap "friend.id" friend.id
  let ref ← child ["chatbox"] id
  let ref ← child ref (chatKey id friendId)
  return dev.observe ref (.create friend user)

/-- The closure of `createNewChatBox`. -/
def createNewChatBoxValue (dev : Device) (i : Nat) (friend user : User) (snapshot : Snapshot)
    (timestamp : Int64) : Except Fault Device := do
  let dev := dev.delivered i (.create friend user) snapshot
  match snapshot.dictionary? with
  | some _ =>
      let dev := dev.showMessageDialog "Cuộc hội thoại đã tồn tại" ""
      return dev.removeAllObservers rootRef
  | none =>
      let id ← unwrap "user.id" user.id
      let friendId ← unwrap "friend.id" friend.id
      let name ← unwrap "friend.name" friend.name
      let avatarUrl ← unwrap "friend.avatarUrl" friend.avatarUrl
      let chatBox : Chat := {
        chatId := chatKey id friendId, name, lastMessenger := greeting, messState := "SEEN",
        friendIsOnline := false, ts := timestamp, avatarUrl }
      let chatBoxDic ← chatBox.toDictionary
      let ref ← child ["chatbox"] id
      let ref ← child ref (chatKey id friendId)
      let dev := dev.setValue ref chatBoxDic
      let dev := dev.showMessageDialog "Tạo cuộc hội thoại thành công" ""
      return dev.removeAllObservers rootRef

end ChatBusiness

/-! ### LogInViewController -/

namespace LogInViewController

/-- `fetchFacebookDataDidEnd`. The id is the one of the token that is current now. -/
def fetchFacebookDataDidEnd (dev : Device) (name avatarUrl : Option String) :
    Except Fault Device := do
  let user : User := ⟨dev.accessToken, name, "Online", avatarUrl, some []⟩
  let dev := { dev with currentUser := user }
  let userDictionary ← user.getDictionary
  let id ← unwrap "user.id" user.id
  let ref ← child ["users"] id
  return dev.observe ref (.login user userDictionary)

/-- `pushViewController(TabBarController())`: a new home screen is loaded for the
current user and becomes the listener. -/
def pushTabBarController (dev : Device) : Device :=
  { dev with
    homes := dev.homes ++ [⟨dev.currentUser, []⟩]
    fetchListOfChatBoxListener := some dev.homes.length }

/-- The closure of `fetchFacebookDataDidEnd`. -/
def fetchFacebookDataDidEndValue (dev : Device) (i : Nat) (user : User)
    (userDictionary snapshot : Snapshot) : Except Fault Device := do
  match snapshot.dictionary? with
  | some dict =>
      let user := { user with friendList := dict.stringArray? "friendList" }
      let dev := dev.delivered i (.login user userDictionary) snapshot
      let dev := { dev with currentUser := user }
      return (pushTabBarController dev).removeAllObservers rootRef
  | none =>
      let id ← unwrap "user.id" user.id
      let ref ← child ["users"] id
      let dev := dev.delivered i (.login user userDictionary) snapshot
      let dev := dev.setValue ref userDictionary
      return (pushTabBarController dev).removeAllObservers rootRef

end LogInViewController

/-! ### ProfileBusiness -/

namespace ProfileBusiness

/-- `fetchFacebookData`: the request carries the current token. -/
def fetchFacebookData (dev : Device) : Device :=
  { dev with requests := dev.requests ++ [dev.accessToken] }

/-- The completion handler of `fetchFacebookData`; `none` is an error. -/
def fetchFacebookDataHandler (dev : Device) : Option Json → Except Fault Device
  | none => .ok dev
  | some result =>
      LogInViewController.fetchFacebookDataDidEnd dev (facebookName result) (facebookUrl result)

end ProfileBusiness

/-! ### ChatBoxViewController -/

namespace ChatBoxViewController

/-- `viewDidLoad` of a screen just presented. -/
def viewDidLoad (dev : Device) (self : ChatBoxViewController) : Except Fault Device := do
  let screen := dev.screens.length
  let friendId ← unwrap "friendId" self.friendId
  let friendRef ← child ["users"] friendId
  let chatBox ← unwrap "currentChatBox" (self.currentChatBox.bind (dev.chats[·]?))
  let chatId ← unwrap "chatId" chatBox.chat.chatId
  let ref ← child ["messages"] chatId
  let dev := { dev with screens := dev.screens ++ [self] }
  return (dev.observe friendRef (.friend screen)).observe ref (.message screen [])

/-- The closure of the friend observer. `asyncLoadingPhoto` forces the url. -/
def friendValue (dev : Device) (i screen : Nat) (snapshot : Snapshot) : Except Fault Device := do
  let dict ← unwrap "dict" snapshot.dictionary?
  let avatarUrl := dict.string? "avatarUrl"
  let name := dict.string? "name"
  let _url ← unwrap "url" avatarUrl
  let name ← unwrap "name" name
  let dev := dev.delivered i (.friend screen) snapshot
  return { dev with screens := dev.screens.modify screen fun vc => { vc with nameLabel := name } }

/-- The closure of the message observer, for the children not delivered before. -/
def messageAdded (dev : Device) (i screen : Nat) (delivered : List String) (snapshot : Snapshot) :
    Except Fault Device := do
  let added := snapshot.children.filter (· ∉ delivered)
  let messages ← added.mapM fun key => Message.ofSnapshot (snapshot.subtree [key])
  let dev := dev.delivered i (.message screen (delivered ++ added)) snapshot
  return { dev with
    screens := dev.screens.modify screen fun vc => { vc with messages := vc.messages ++ messages } }

/-- `sendButtonTapped` on the fields of the screen and the `Chat` object it holds:
the `setValue` calls in the order issued, and the object afterwards. Both records
are encoded from that one object. -/
def sendWrites (currentUser : User) (friendId : UserId) (currentChatBox : Chat) (text : String)
    (randomStr : String) (timestamp : Int64) : Except Fault (List Write × Chat) := do
  let id ← unwrap "currentUser.id" currentUser.id
  let message : Message :=
    { id := randomStr, fromId := id, toId := friendId, message := text, ts := timestamp, seen := false }
  -- update in messages field
  let myRef ← child ["messages"] (chatKey id friendId)
  let myRef ← child myRef randomStr
  let myMessage ← message.getDictionary
  let yourRef ← child ["messages"] (chatKey friendId id)
  let yourRef ← child yourRef randomStr
  let yourMessage ← message.getDictionary
  -- update in chatbox field
  let myChatRef ← child ["chatbox"] id
  let myChatRef ← child myChatRef (chatKey id friendId)
  let chatBox := { currentChatBox with
    lastMessenger := text, ts := timestamp, messState := "SENT_BY_YOU" }
  let myChat ← chatBox.toDictionary
  -- `let chatBox = currentChatBox` is no copy: these fields of the row's object change too
  let chatBox := { chatBox with
    messState := "SENT_BY_FRIEND", friendIsOnline := true, name := currentUser.name,
    avatarUrl := currentUser.avatarUrl, chatId := chatKey friendId id, lastMessenger := text }
  let yourChatRef ← child ["chatbox"] friendId
  let yourChatRef ← child yourChatRef (chatKey friendId id)
  let yourChat ← chatBox.toDictionary
  return ([⟨myRef, myMessage⟩, ⟨yourRef, yourMessage⟩, ⟨myChatRef, myChat⟩, ⟨yourChatRef, yourChat⟩],
    chatBox)

/-- `sendButtonTapped`. -/
def sendButtonTapped (dev : Device) (screen : Nat) (text randomStr : String) (timestamp : Int64) :
    Except Fault Device := do
  let self ← enabled dev.screens[screen]?
  let currentUser ← unwrap "currentUser" self.currentUser
  let friendId ← unwrap "friendId" self.friendId
  let ref ← unwrap "currentChatBox" self.currentChatBox
  let object ← unwrap "currentChatBox" dev.chats[ref]?
  let (writes, chatBox) ← sendWrites currentUser friendId object.chat text randomStr timestamp
  return { dev with
    chats := dev.chats.set ref { object with chat := chatBox }
    pending := dev.pending ++ writes }

end ChatBoxViewController

/-! ### HomeViewController -/

namespace HomeViewController

/-- `viewWillAppear`. -/
def viewWillAppear (dev : Device) (home : Nat) : Except Fault Device := do
  let self ← enabled dev.homes[home]?
  ChatBusiness.fetchListOfChatBox dev self.currentUser

/-- The body of `cellTouchDownHandle` for entry `i` of the chat list. -/
def cellTouchDownHandle (dev : Device) (home i : Nat) : Except Fault Device := do
  let self ← enabled dev.homes[home]?
  let entry ← enabled self.chatList[i]?
  let object ← enabled dev.chats[entry]?
  let ids ← unwrap "ids" (object.chat.chatId.map (componentsSeparatedBy · '_'))
  -- `ids![1]` is taken for the friend, whoever the owner of the row is
  let friendId ← ids[1]?.elim (.error .indexOutOfRange) .ok
  ChatBoxViewController.viewDidLoad dev {
    friendId := some friendId, currentUser := some dev.currentUser, currentChatBox := some entry,
    messages := [], nameLabel := none }

end HomeViewController

/-! ### FriendViewController -/

namespace FriendViewController

/-- The confirm action of `addFriendButtonTapped`, with the typed text. The screen is
loaded with the tab bar. -/
def addFriendButtonTapped (dev : Device) (id : String) : Except Fault Device := do
  if dev.homes = [] then .error .disabled
  let ref ← child ["users"] id
  return dev.observe ref (.lookup id)

/-- The closure of `addFriendButtonTapped`. -/
def addFriendButtonTappedValue (dev : Device) (i : Nat) (id : String) (snapshot : Snapshot) :
    Except Fault Device := do
  let dev := dev.delivered i (.lookup id) snapshot
  match snapshot.dictionary? with
  | some dict =>
      -- the friend gets the typed id, not the stored one
      let friendListArray := dict.stringArray? "friendList"
      let name := dict.string? "name"
      let avatarUrl := dict.string? "avatarUrl"
      let state := dict.string? "state"
      let friend : User := ⟨some id, name, state, avatarUrl, friendListArray⟩
      ChatBusiness.createNewChatBox dev friend dev.currentUser
  | none => return dev.showMessageDialog "Thất bại" "ID người dùng không tồn tại!"

end FriendViewController

/-! ### One action of one process -/

/-- `genRandomString(length:)` can return `s`. -/
def isRandomString (length : Nat) (s : String) : Bool :=
  s.toList.length = length && s.toList.all fun c =>
    c ∈ "abcdefghijklmnopqrstuvwxyzABCDEFGHIJKLMNOPQRSTUVWXYZ0123456789".toList

/-- What can happen in a process. -/
inductive Action
  /-- Facebook's login completes: the account's token becomes current. -/
  | logIn (account : UserId)
  | logOut
  | fetchFacebookData
  /-- The reply to request `i` arrives; `none` is an error. -/
  | reply (i : Nat) (result : Option Json)
  | homeWillAppear (home : Nat)
  | rowTapped (home i : Nat)
  | addFriend (id : String)
  | sendTapped (screen : Nat) (text randomStr : String) (timestamp : Int64)
  /-- Observer `i` fires; `timestamp` is the time its closure reads. -/
  | fire (i : Nat) (timestamp : Int64)
  /-- The process ends for good and the app is started again. -/
  | relaunch (randomId : String)

namespace Device

/-- Observer `i` delivers `snapshot` to its closure. -/
def fire (dev : Device) (i : Nat) (snapshot : Snapshot) (timestamp : Int64) :
    Callback → Except Fault Device
  | .login user userDictionary =>
      LogInViewController.fetchFacebookDataDidEndValue dev i user userDictionary snapshot
  | .chatList owner chatList =>
      ChatBusiness.fetchListOfChatBoxValue dev i owner chatList snapshot
  | .lookup id => FriendViewController.addFriendButtonTappedValue dev i id snapshot
  | .create friend user =>
      ChatBusiness.createNewChatBoxValue dev i friend user snapshot timestamp
  | .friend screen => ChatBoxViewController.friendValue dev i screen snapshot
  | .message screen delivered =>
      ChatBoxViewController.messageAdded dev i screen delivered snapshot

/-- One action of one process, given the data on the server. -/
def act (dev : Device) (server : Snapshot) : Action → Except Fault Device
  | .logIn account => .ok { dev with accessToken := some account }
  | .logOut => .ok { dev with accessToken := none }
  | .fetchFacebookData => .ok (ProfileBusiness.fetchFacebookData dev)
  | .reply i result => do
      let _account ← enabled dev.requests[i]?
      ProfileBusiness.fetchFacebookDataHandler { dev with requests := dev.requests.eraseIdx i } result
  | .homeWillAppear home => HomeViewController.viewWillAppear dev home
  | .rowTapped home i => HomeViewController.cellTouchDownHandle dev home i
  | .addFriend id => FriendViewController.addFriendButtonTapped dev id
  | .sendTapped screen text randomStr timestamp =>
      if isRandomString 20 randomStr then
        ChatBoxViewController.sendButtonTapped dev screen text randomStr timestamp
      else .error .disabled
  | .fire i timestamp => do
      let o ← enabled dev.observers[i]?
      let snapshot := (dev.view server).subtree o.ref
      -- Firebase raises no event when nothing changed
      if o.last = some snapshot then .error .disabled
      dev.fire i snapshot timestamp o.callback
  | .relaunch randomId =>
      if isRandomString 20 randomId then .ok (launch dev.accessToken randomId)
      else .error .disabled

end Device

end MyChat
