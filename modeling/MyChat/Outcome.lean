import MyChat.App

/-!
# MyChat.Outcome

What one action can do to a process, said once. `Outcome dev server action dev'` has
a constructor for every way an action succeeds, with the conditions under which it is
taken and the process it leads to; `act_inv` derives it from the code. The invariants
of the later files split on `Outcome` and never unfold a handler.

`Issues dev server action ws` says which writes the action appends to the queue.
-/

namespace MyChat

theorem mem_modify {α : Type} {l : List α} {i : Nat} {f : α → α} {a : α} (h : a ∈ l.modify i f) :
    a ∈ l ∨ ∃ b, l[i]? = some b ∧ a = f b := by
  obtain ⟨j, hj⟩ := List.mem_iff_getElem?.mp h
  rw [List.getElem?_modify] at hj
  obtain ⟨b, hb, rfl⟩ := Option.map_eq_some_iff.mp hj
  by_cases hij : i = j
  · rw [if_pos hij]
    exact Or.inr ⟨b, by rw [hij]; exact hb, rfl⟩
  · rw [if_neg hij]
    exact Or.inl (List.mem_of_getElem? hb)

/-- The row that `createNewChatBox` stores. -/
def newChat (id friendId name avatarUrl : String) (timestamp : Int64) : ChatRecord where
  chatId := chatKey id friendId
  name := name
  lastMessenger := ChatBusiness.greeting
  messState := "SEEN"
  friendIsOnline := false
  ts := timestamp
  avatarUrl := avatarUrl

/-- What a send writes, whatever the ids and the object are: an encoded message twice
under `messages`, and twice a chat that was sent under `chatbox`. -/
theorem ChatBoxViewController.mem_sendWrites {currentUser : User} {friendId : UserId}
    {currentChatBox : Chat} {text randomStr : String} {timestamp : Int64} {writes : List Write}
    {chatBox : Chat}
    (h : sendWrites currentUser friendId currentChatBox text randomStr timestamp =
      .ok (writes, chatBox)) :
    ∀ w ∈ writes,
      (["messages"] <+: w.path ∧ ∃ m : Message, m.getDictionary = .ok w.value) ∨
      (["chatbox"] <+: w.path ∧ ∃ c : Chat, c.toDictionary = .ok w.value ∧
        (c.messState = some "SENT_BY_YOU" ∨ c.messState = some "SENT_BY_FRIEND")) := by
  simp only [sendWrites, bind_eq_ok, unwrap_eq_ok] at h
  obtain ⟨_, -, myRef, hmyRef, myRef', hmyRef', myMessage, hmyMessage, yourRef, hyourRef,
    yourRef', hyourRef', yourMessage, hyourMessage, myChatRef, hmyChatRef, myChatRef', hmyChatRef',
    myDict, hmyDict, yourChatRef, hyourChatRef, yourChatRef', hyourChatRef', yourDict, hyourDict,
    hres⟩ := h
  obtain ⟨rfl, -⟩ := Prod.mk.inj (Except.ok.inj hres)
  intro w hw
  simp only [List.mem_cons, List.not_mem_nil, or_false] at hw
  rcases hw with rfl | rfl | rfl | rfl
  · exact Or.inl ⟨(prefix_of_child hmyRef).trans (prefix_of_child hmyRef'), _, hmyMessage⟩
  · exact Or.inl ⟨(prefix_of_child hyourRef).trans (prefix_of_child hyourRef'), _, hyourMessage⟩
  · exact Or.inr ⟨(prefix_of_child hmyChatRef).trans (prefix_of_child hmyChatRef'), _, hmyDict,
      Or.inl rfl⟩
  · exact Or.inr ⟨(prefix_of_child hyourChatRef).trans (prefix_of_child hyourChatRef'), _, hyourDict,
      Or.inr rfl⟩

theorem ChatBoxViewController.length_sendWrites {currentUser : User} {friendId : UserId}
    {currentChatBox : Chat} {text randomStr : String} {timestamp : Int64} {writes : List Write}
    {chatBox : Chat}
    (h : sendWrites currentUser friendId currentChatBox text randomStr timestamp =
      .ok (writes, chatBox)) : writes.length = 4 := by
  simp only [sendWrites, bind_eq_ok] at h
  obtain ⟨_, -, _, -, _, -, _, -, _, -, _, -, _, -, _, -, _, -, _, -, _, -, _, -, _, -, hres⟩ := h
  rw [← (Prod.mk.inj (Except.ok.inj hres)).1]
  rfl

namespace Device

/-- The listener's `chatList` after `fetchListOfChatBoxDidEnd`. -/
def handed (dev : Device) (chatList : List ChatRef) : List HomeViewController :=
  match dev.fetchListOfChatBoxListener with
  | some home => dev.homes.modify home fun vc => { vc with chatList }
  | none => dev.homes

theorem mem_handed {dev : Device} {chatList : List ChatRef} {vc : HomeViewController}
    (h : vc ∈ dev.handed chatList) :
    vc ∈ dev.homes ∨ ∃ vc' ∈ dev.homes, vc = { vc' with chatList } := by
  unfold handed at h
  split at h
  · rcases mem_modify h with h | ⟨vc', hvc', rfl⟩
    · exact Or.inl h
    · exact Or.inr ⟨vc', List.mem_of_getElem? hvc', rfl⟩
  · exact Or.inl h

/-- The observers after `i` delivered `snapshot` and its closure became `callback`. -/
def observersDelivered (dev : Device) (i : Nat) (callback : Callback) (snapshot : Snapshot) :
    List Observer :=
  dev.observers.modify i fun o => ⟨o.ref, callback, some snapshot⟩

/-- Observer `i` is `⟨ref, callback, _⟩` and has `snapshot` to deliver. -/
def Fires (dev : Device) (server : Snapshot) (i : Nat) (ref : Path) (callback : Callback)
    (snapshot : Snapshot) : Prop :=
  ∃ last, dev.observers[i]? = some ⟨ref, callback, last⟩ ∧
    snapshot = (dev.view server).subtree ref ∧ last ≠ some snapshot

theorem Fires.mem {dev : Device} {server : Snapshot} {i : Nat} {ref : Path} {callback : Callback}
    {snapshot : Snapshot} (h : dev.Fires server i ref callback snapshot) :
    ∃ last, ⟨ref, callback, last⟩ ∈ dev.observers := by
  obtain ⟨last, ho, -⟩ := h
  exact ⟨last, List.mem_of_getElem? ho⟩

theorem Fires.snapshot_eq {dev : Device} {server : Snapshot} {i : Nat} {ref : Path}
    {callback : Callback} {snapshot : Snapshot} (h : dev.Fires server i ref callback snapshot) :
    snapshot = (dev.view server).subtree ref := by
  obtain ⟨last, -, hsnapshot, -⟩ := h
  exact hsnapshot

/-- After a delivery there are the other observers and the one that delivered. -/
theorem Fires.mem_observersDelivered {dev : Device} {server : Snapshot} {i : Nat} {ref : Path}
    {callback callback' : Callback} {snapshot : Snapshot} {o : Observer}
    (h : dev.Fires server i ref callback snapshot)
    (ho : o ∈ dev.observersDelivered i callback' snapshot) :
    o ∈ dev.observers ∨ o = ⟨ref, callback', some snapshot⟩ := by
  obtain ⟨last, hi, -⟩ := h
  rcases mem_modify ho with ho | ⟨o', ho', rfl⟩
  · exact Or.inl ho
  · rw [hi] at ho'
    cases ho'
    exact Or.inr rfl

/-- The ways an action succeeds. -/
inductive Outcome (dev : Device) (server : Snapshot) : Action → Device → Prop
  | logIn (account : UserId) :
      Outcome dev server (.logIn account) { dev with accessToken := some account }
  | logOut : Outcome dev server .logOut { dev with accessToken := none }
  | fetchFacebookData :
      Outcome dev server .fetchFacebookData { dev with requests := dev.requests ++ [dev.accessToken] }
  | replyError {i : Nat} {request : Option UserId} (hrequest : dev.requests[i]? = some request) :
      Outcome dev server (.reply i none) { dev with requests := dev.requests.eraseIdx i }
  | reply {i : Nat} {request : Option UserId} {result : Json} {u : UserRecord} {ref : Path}
      (hrequest : dev.requests[i]? = some request) (htoken : dev.accessToken = some u.id)
      (hname : facebookName result = some u.name) (hurl : facebookUrl result = some u.avatarUrl)
      (hstate : u.state = "Online") (href : child ["users"] u.id = .ok ref) :
      Outcome dev server (.reply i (some result))
        { dev with
          requests := dev.requests.eraseIdx i
          currentUser := u.toUser
          observers := dev.observers ++ [⟨ref, .login u.toUser u.dict, none⟩] }
  | homeWillAppear {home : Nat} {vc : HomeViewController} {id : UserId} {ref : Path}
      (hvc : dev.homes[home]? = some vc) (hid : vc.currentUser.id = some id)
      (href : child ["chatbox"] id = .ok ref) :
      Outcome dev server (.homeWillAppear home)
        { dev with observers := dev.observers ++ [⟨ref, .chatList id [], none⟩] }
  | rowTapped {home i : Nat} {vc : HomeViewController} {entry : ChatRef} {object : ChatObject}
      {chatId : String} {friendId : UserId} {friendRef ref : Path}
      (hvc : dev.homes[home]? = some vc) (hentry : vc.chatList[i]? = some entry)
      (hobject : dev.chats[entry]? = some object) (hchatId : object.chat.chatId = some chatId)
      (hfriend : (componentsSeparatedBy chatId '_')[1]? = some friendId)
      (hfriendRef : child ["users"] friendId = .ok friendRef)
      (href : child ["messages"] chatId = .ok ref) :
      Outcome dev server (.rowTapped home i)
        { dev with
          screens := dev.screens ++ [⟨some friendId, some dev.currentUser, some entry, [], none⟩]
          observers := dev.observers ++ [⟨friendRef, .friend dev.screens.length, none⟩,
            ⟨ref, .message dev.screens.length [], none⟩] }
  | addFriend {id : String} {ref : Path} (hhomes : dev.homes ≠ [])
      (href : child ["users"] id = .ok ref) :
      Outcome dev server (.addFriend id)
        { dev with observers := dev.observers ++ [⟨ref, .lookup id, none⟩] }
  | sendTapped {screen : Nat} {text randomStr : String} {timestamp : Int64}
      {vc : ChatBoxViewController} {user : User} {friendId : UserId} {entry : ChatRef}
      {object : ChatObject} {writes : List Write} {chatBox : Chat}
      (hrandom : isRandomString 20 randomStr) (hvc : dev.screens[screen]? = some vc)
      (huser : vc.currentUser = some user) (hfriend : vc.friendId = some friendId)
      (hentry : vc.currentChatBox = some entry) (hobject : dev.chats[entry]? = some object)
      (hsend : ChatBoxViewController.sendWrites user friendId object.chat text randomStr timestamp =
        .ok (writes, chatBox)) :
      Outcome dev server (.sendTapped screen text randomStr timestamp)
        { dev with
          chats := dev.chats.set entry { object with chat := chatBox }
          pending := dev.pending ++ writes }
  | loginKnown {i : Nat} {timestamp : Int64} {ref : Path} {user known : User}
      {userDictionary snapshot : Snapshot}
      (hfires : dev.Fires server i ref (.login user userDictionary) snapshot)
      (hdict : snapshot.dictionary? = some snapshot)
      (hknown : known = { user with friendList := snapshot.stringArray? "friendList" }) :
      Outcome dev server (.fire i timestamp)
        { dev with
          currentUser := known
          observers := (dev.observersDelivered i (.login known userDictionary) snapshot).filter
            (·.ref ≠ rootRef)
          homes := dev.homes ++ [⟨known, []⟩]
          fetchListOfChatBoxListener := some dev.homes.length }
  | loginNew {i : Nat} {timestamp : Int64} {ref userRef : Path} {user : User} {id : UserId}
      {userDictionary snapshot : Snapshot}
      (hfires : dev.Fires server i ref (.login user userDictionary) snapshot)
      (hdict : snapshot.dictionary? = none) (hid : user.id = some id)
      (href : child ["users"] id = .ok userRef) :
      Outcome dev server (.fire i timestamp)
        { dev with
          observers := (dev.observersDelivered i (.login user userDictionary) snapshot).filter
            (·.ref ≠ rootRef)
          homes := dev.homes ++ [⟨dev.currentUser, []⟩]
          fetchListOfChatBoxListener := some dev.homes.length
          pending := dev.pending ++ [⟨userRef, userDictionary⟩] }
  | chatList {i : Nat} {timestamp : Int64} {ref : Path} {owner : UserId}
      {chatList list : List ChatRef} {snapshot : Snapshot} {objects : List ChatObject}
      (hfires : dev.Fires server i ref (.chatList owner chatList) snapshot)
      (hobjects : ChatBusiness.chatObjects owner snapshot = .ok objects)
      (hlist : list = chatList ++ List.range' dev.chats.length objects.length) :
      Outcome dev server (.fire i timestamp)
        { dev with
          chats := dev.chats ++ objects
          observers := (dev.observersDelivered i (.chatList owner list) snapshot).filter
            (·.ref ≠ rootRef)
          homes := dev.handed list }
  | lookupFound {i : Nat} {timestamp : Int64} {ref createRef : Path} {id userId : UserId}
      {snapshot : Snapshot} {friend : User}
      (hfires : dev.Fires server i ref (.lookup id) snapshot)
      (hdict : snapshot.dictionary? = some snapshot) (hid : dev.currentUser.id = some userId)
      (hfriend : friend = ⟨some id, snapshot.string? "name", snapshot.string? "state",
        snapshot.string? "avatarUrl", snapshot.stringArray? "friendList"⟩)
      (href : (child ["chatbox"] userId).bind (child · (chatKey userId id)) = .ok createRef) :
      Outcome dev server (.fire i timestamp)
        { dev with
          observers := dev.observersDelivered i (.lookup id) snapshot ++
            [⟨createRef, .create friend dev.currentUser, none⟩] }
  | lookupMissing {i : Nat} {timestamp : Int64} {ref : Path} {id : UserId} {snapshot : Snapshot}
      (hfires : dev.Fires server i ref (.lookup id) snapshot)
      (hdict : snapshot.dictionary? = none) :
      Outcome dev server (.fire i timestamp)
        { dev with
          observers := dev.observersDelivered i (.lookup id) snapshot
          dialogs := dev.dialogs ++ [("Thất bại", "ID người dùng không tồn tại!")] }
  | createExists {i : Nat} {timestamp : Int64} {ref : Path} {friend user : User}
      {snapshot : Snapshot}
      (hfires : dev.Fires server i ref (.create friend user) snapshot)
      (hdict : snapshot.dictionary? = some snapshot) :
      Outcome dev server (.fire i timestamp)
        { dev with
          observers := (dev.observersDelivered i (.create friend user) snapshot).filter
            (·.ref ≠ rootRef)
          dialogs := dev.dialogs ++ [("Cuộc hội thoại đã tồn tại", "")] }
  | create {i : Nat} {timestamp : Int64} {ref createRef : Path} {friend user : User}
      {id friendId name avatarUrl : String} {snapshot : Snapshot}
      (hfires : dev.Fires server i ref (.create friend user) snapshot)
      (hdict : snapshot.dictionary? = none) (hid : user.id = some id)
      (hfriend : friend.id = some friendId) (hname : friend.name = some name)
      (hurl : friend.avatarUrl = some avatarUrl)
      (href : (child ["chatbox"] id).bind (child · (chatKey id friendId)) = .ok createRef) :
      Outcome dev server (.fire i timestamp)
        { dev with
          observers := (dev.observersDelivered i (.create friend user) snapshot).filter
            (·.ref ≠ rootRef)
          dialogs := dev.dialogs ++ [("Tạo cuộc hội thoại thành công", "")]
          pending := dev.pending ++
            [⟨createRef, (newChat id friendId name avatarUrl timestamp).dict⟩] }
  | friend {i : Nat} {timestamp : Int64} {ref : Path} {screen : Nat} {snapshot : Snapshot}
      {name url : String}
      (hfires : dev.Fires server i ref (.friend screen) snapshot)
      (hname : snapshot.string? "name" = some name)
      (hurl : snapshot.string? "avatarUrl" = some url) :
      Outcome dev server (.fire i timestamp)
        { dev with
          observers := dev.observersDelivered i (.friend screen) snapshot
          screens := dev.screens.modify screen fun vc => { vc with nameLabel := some name } }
  | message {i : Nat} {timestamp : Int64} {ref : Path} {screen : Nat} {delivered : List String}
      {snapshot : Snapshot} {messages : List Message}
      (hfires : dev.Fires server i ref (.message screen delivered) snapshot)
      (hmessages : (snapshot.children.filter (· ∉ delivered)).mapM
        (fun key => Message.ofSnapshot (snapshot.subtree [key])) = .ok messages) :
      Outcome dev server (.fire i timestamp)
        { dev with
          observers := dev.observersDelivered i
            (.message screen (delivered ++ snapshot.children.filter (· ∉ delivered))) snapshot
          screens := dev.screens.modify screen fun vc =>
            { vc with messages := vc.messages ++ messages } }
  | relaunch {randomId : String} (hrandom : isRandomString 20 randomId) :
      Outcome dev server (.relaunch randomId) (launch dev.accessToken randomId)

/-- Where each `Chat` object was fetched from. -/
def places (dev : Device) : List (UserId × String) := dev.chats.map fun o => (o.owner, o.key)

/-- Objects are added and change, but stay where they were fetched from, until the
process ends. -/
theorem Outcome.places_prefix {dev dev' : Device} {server : Snapshot} {action : Action}
    (h : Outcome dev server action dev') (hlive : ∀ randomId, action ≠ .relaunch randomId) :
    dev.places <+: dev'.places := by
  cases h with
  | relaunch => exact absurd rfl (hlive _)
  | @sendTapped _ _ _ _ vc user friendId entry object writes chatBox hrandom hvc huser hfriend hentry
      hobject hsend =>
      have hplace : dev.places[entry]? = some (object.owner, object.key) := by
        simp [places, hobject]
      obtain ⟨hlt, heq⟩ := List.getElem?_eq_some_iff.mp hplace
      show dev.places <+: List.map (fun o : ChatObject => (o.owner, o.key)) _
      rw [List.map_set]
      show dev.places <+: dev.places.set entry (object.owner, object.key)
      rw [← heq, List.set_getElem_self]
  | chatList => simp [places]
  | _ => exact List.prefix_refl _

/-- Who changes the token. -/
theorem Outcome.token {dev dev' : Device} {server : Snapshot} {action : Action}
    (h : Outcome dev server action dev') :
    dev'.accessToken = dev.accessToken ∨ dev'.accessToken = none ∨
      ∃ account, action = .logIn account ∧ dev'.accessToken = some account := by
  cases h with
  | logIn account => exact Or.inr (Or.inr ⟨account, rfl, rfl⟩)
  | logOut => exact Or.inr (Or.inl rfl)
  | _ => exact Or.inl rfl

/-- The observers that an action registers, or that delivered in it. -/
inductive Observes (dev : Device) (server : Snapshot) : Action → Observer → Prop
  | login {i : Nat} {request : Option UserId} {result : Json} {u : UserRecord} {ref : Path}
      (hrequest : dev.requests[i]? = some request) (htoken : dev.accessToken = some u.id)
      (hname : facebookName result = some u.name) (hurl : facebookUrl result = some u.avatarUrl)
      (href : child ["users"] u.id = .ok ref) :
      Observes dev server (.reply i (some result)) ⟨ref, .login u.toUser u.dict, none⟩
  | chatList {home : Nat} {id : UserId} {ref : Path} (hhomes : dev.homes ≠ []) :
      Observes dev server (.homeWillAppear home) ⟨ref, .chatList id [], none⟩
  | lookup {id : UserId} {ref : Path} : Observes dev server (.addFriend id) ⟨ref, .lookup id, none⟩
  | create {i : Nat} {timestamp : Int64} {createRef : Path} {id userId : UserId} {friend : User}
      (hid : dev.currentUser.id = some userId) (hfriend : friend.id = some id)
      (href : (child ["chatbox"] userId).bind (child · (chatKey userId id)) = .ok createRef) :
      Observes dev server (.fire i timestamp) ⟨createRef, .create friend dev.currentUser, none⟩
  | friend {home i screen : Nat} {ref : Path} :
      Observes dev server (.rowTapped home i) ⟨ref, .friend screen, none⟩
  | message {home i screen : Nat} {ref : Path} :
      Observes dev server (.rowTapped home i) ⟨ref, .message screen [], none⟩
  /-- The closure did not change what it captured. -/
  | fired {i : Nat} {timestamp : Int64} {ref : Path} {callback : Callback} {snapshot : Snapshot}
      (hfires : dev.Fires server i ref callback snapshot) :
      Observes dev server (.fire i timestamp) ⟨ref, callback, some snapshot⟩
  | firedLogin {i : Nat} {timestamp : Int64} {ref : Path} {user : User}
      {userDictionary snapshot : Snapshot} (friendList : Option (List (Option String)))
      (hfires : dev.Fires server i ref (.login user userDictionary) snapshot) :
      Observes dev server (.fire i timestamp)
        ⟨ref, .login { user with friendList } userDictionary, some snapshot⟩
  | firedChatList {i : Nat} {timestamp : Int64} {ref : Path} {owner : UserId}
      {chatList : List ChatRef} {snapshot : Snapshot} {objects : List ChatObject}
      (hfires : dev.Fires server i ref (.chatList owner chatList) snapshot)
      (hobjects : ChatBusiness.chatObjects owner snapshot = .ok objects) :
      Observes dev server (.fire i timestamp)
        ⟨ref, .chatList owner (chatList ++ List.range' dev.chats.length objects.length), some snapshot⟩
  | firedMessage {i : Nat} {timestamp : Int64} {ref : Path} {screen : Nat}
      {delivered delivered' : List String} {snapshot : Snapshot}
      (hfires : dev.Fires server i ref (.message screen delivered) snapshot) :
      Observes dev server (.fire i timestamp) ⟨ref, .message screen delivered', some snapshot⟩

/-- **Where observers come from.** -/
theorem Outcome.observes {dev dev' : Device} {server : Snapshot} {action : Action} {o : Observer}
    (h : Outcome dev server action dev') (ho : o ∈ dev'.observers) :
    o ∈ dev.observers ∨ Observes dev server action o := by
  have hnew : ∀ {os : List Observer}, (∀ o ∈ os, Observes dev server action o) →
      o ∈ dev.observers ++ os → o ∈ dev.observers ∨ Observes dev server action o :=
    fun hos ho => (List.mem_append.mp ho).imp_right (hos o)
  have hfired : ∀ {i : Nat} {ref : Path} {callback callback' : Callback} {snapshot : Snapshot},
      dev.Fires server i ref callback snapshot →
      Observes dev server action ⟨ref, callback', some snapshot⟩ →
      o ∈ dev.observersDelivered i callback' snapshot →
      o ∈ dev.observers ∨ Observes dev server action o := by
    intro i ref callback callback' snapshot hfires hobs ho
    rcases hfires.mem_observersDelivered ho with ho | rfl
    · exact Or.inl ho
    · exact Or.inr hobs
  cases h with
  | reply hrequest htoken hname hurl hstate href =>
      exact hnew (by simpa using .login hrequest htoken hname hurl href) ho
  | homeWillAppear hvc =>
      exact hnew (by simpa using .chatList (fun hnil => by simp [hnil] at hvc)) ho
  | addFriend => exact hnew (by simpa using .lookup) ho
  | rowTapped =>
      refine hnew (fun o ho => ?_) ho
      rcases List.mem_pair.mp ho with rfl | rfl
      · exact .friend
      · exact .message
  | loginKnown hfires hdict hknown =>
      refine hfired hfires ?_ (List.mem_of_mem_filter ho)
      rw [hknown]
      exact .firedLogin _ hfires
  | chatList hfires hobjects hlist =>
      refine hfired hfires ?_ (List.mem_of_mem_filter ho)
      rw [hlist]
      exact .firedChatList hfires hobjects
  | lookupFound hfires hdict hid hfriend href =>
      rcases List.mem_append.mp ho with ho | ho
      · exact hfired hfires (.fired hfires) ho
      · rw [List.mem_singleton.mp ho]
        exact Or.inr (.create hid (by rw [hfriend]) href)
  | loginNew hfires | createExists hfires | create hfires =>
      exact hfired hfires (.fired hfires) (List.mem_of_mem_filter ho)
  | lookupMissing hfires | friend hfires => exact hfired hfires (.fired hfires) ho
  | message hfires => exact hfired hfires (.firedMessage hfires) ho
  | relaunch => simp [launch] at ho
  | _ => exact Or.inl ho

/-- The writes that an action appends to the queue. -/
inductive Writes (dev : Device) (server : Snapshot) : Action → List Write → Prop
  | none (action : Action) : Writes dev server action []
  | register {i : Nat} {timestamp : Int64} {ref userRef : Path} {user : User} {id : UserId}
      {userDictionary snapshot : Snapshot}
      (hfires : dev.Fires server i ref (.login user userDictionary) snapshot)
      (hid : user.id = some id) (href : child ["users"] id = .ok userRef) :
      Writes dev server (.fire i timestamp) [⟨userRef, userDictionary⟩]
  | create {i : Nat} {timestamp : Int64} {ref createRef : Path} {friend user : User}
      {id friendId name avatarUrl : String} {snapshot : Snapshot}
      (hfires : dev.Fires server i ref (.create friend user) snapshot)
      (hdict : snapshot.dictionary? = none) (hid : user.id = some id)
      (hfriend : friend.id = some friendId)
      (href : (child ["chatbox"] id).bind (child · (chatKey id friendId)) = .ok createRef) :
      Writes dev server (.fire i timestamp)
        [⟨createRef, (newChat id friendId name avatarUrl timestamp).dict⟩]
  | send {screen : Nat} {text randomStr : String} {timestamp : Int64} {user : User}
      {friendId : UserId} {chat chatBox : Chat} {writes : List Write}
      (hsend : ChatBoxViewController.sendWrites user friendId chat text randomStr timestamp =
        .ok (writes, chatBox)) :
      Writes dev server (.sendTapped screen text randomStr timestamp) writes

theorem Outcome.writes {dev dev' : Device} {server : Snapshot} {action : Action}
    (h : Outcome dev server action dev') :
    (∃ randomId, action = .relaunch randomId ∧ dev'.pending = []) ∨
      ∃ ws, Writes dev server action ws ∧ dev'.pending = dev.pending ++ ws := by
  cases h with
  | relaunch => exact Or.inl ⟨_, rfl, rfl⟩
  | loginNew hfires hdict hid href => exact Or.inr ⟨_, .register hfires hid href, rfl⟩
  | create hfires hdict hid hfriend hname hurl href =>
      exact Or.inr ⟨_, .create hfires hdict hid hfriend href, rfl⟩
  | sendTapped hrandom hvc huser hfriend hentry hobject hsend =>
      exact Or.inr ⟨_, .send hsend, rfl⟩
  | _ => exact Or.inr ⟨[], .none _, (List.append_nil _).symm⟩

/-! ### Inversion, handler by handler -/

variable {dev dev' : Device} {server : Snapshot}

theorem reply_inv {i : Nat} {request : Option UserId} {result : Json}
    (hrequest : dev.requests[i]? = some request)
    (h : LogInViewController.fetchFacebookDataDidEnd
      { dev with requests := dev.requests.eraseIdx i } (facebookName result) (facebookUrl result) =
        .ok dev') :
    Outcome dev server (.reply i (some result)) dev' := by
  simp only [LogInViewController.fetchFacebookDataDidEnd, User.getDictionary, bind_eq_ok,
    unwrap_eq_ok] at h
  obtain ⟨d, ⟨id, hid, name, hname, state, hstate, url, hurl, friendList, hfriends, hd⟩, id', hid',
    ref, href, hdev⟩ := h
  cases hid.symm.trans hid'
  cases hstate
  cases hfriends
  obtain rfl : d = (⟨id, name, "Online", url⟩ : UserRecord).dict := (Except.ok.inj hd).symm
  have hu : (⟨dev.accessToken, facebookName result, some "Online", facebookUrl result, some []⟩ : User)
      = (⟨id, name, "Online", url⟩ : UserRecord).toUser := by
    rw [hid, hname, hurl]
    rfl
  rw [hu] at hdev
  cases hdev
  exact .reply hrequest hid hname hurl rfl href

theorem rowTapped_inv {home i : Nat}
    (h : HomeViewController.cellTouchDownHandle dev home i = .ok dev') :
    Outcome dev server (.rowTapped home i) dev' := by
  simp only [HomeViewController.cellTouchDownHandle, ChatBoxViewController.viewDidLoad, bind_eq_ok,
    unwrap_eq_ok, enabled_eq_ok] at h
  obtain ⟨vc, hvc, entry, hentry, object, hobject, ids, hids, friendId, hfriend, id', hid',
    friendRef, hfriendRef, chatBox, hchatBox, chatId, hchatId, ref, href, hdev⟩ := h
  cases hid'
  obtain rfl : object = chatBox := Option.some.inj (hobject.symm.trans hchatBox)
  obtain ⟨chatId', hchatId', rfl⟩ := Option.map_eq_some_iff.mp hids
  cases hchatId.symm.trans hchatId'
  have hsecond : (componentsSeparatedBy chatId '_')[1]? = some friendId := by
    cases hc : (componentsSeparatedBy chatId '_')[1]? with
    | none => simp [hc] at hfriend
    | some f =>
        rw [hc] at hfriend
        rw [Except.ok.inj hfriend]
  cases hdev
  have hout := @Outcome.rowTapped dev server home i vc entry object chatId friendId friendRef ref
    hvc hentry hobject hchatId hsecond hfriendRef href
  rwa [List.append_cons] at hout

theorem sendTapped_inv {screen : Nat} {text randomStr : String} {timestamp : Int64}
    (hrandom : isRandomString 20 randomStr)
    (h : ChatBoxViewController.sendButtonTapped dev screen text randomStr timestamp = .ok dev') :
    Outcome dev server (.sendTapped screen text randomStr timestamp) dev' := by
  simp only [ChatBoxViewController.sendButtonTapped, bind_eq_ok, unwrap_eq_ok, enabled_eq_ok] at h
  obtain ⟨vc, hvc, user, huser, friendId, hfriend, entry, hentry, object, hobject,
    ⟨writes, chatBox⟩, hsend, hdev⟩ := h
  cases hdev
  exact .sendTapped hrandom hvc huser hfriend hentry hobject hsend

section fire

variable {i : Nat} {timestamp : Int64} {ref : Path} {snapshot : Snapshot}

theorem loginFire_inv {user : User} {userDictionary : Snapshot}
    (hfires : dev.Fires server i ref (.login user userDictionary) snapshot)
    (h : LogInViewController.fetchFacebookDataDidEndValue dev i user userDictionary snapshot =
      .ok dev') :
    Outcome dev server (.fire i timestamp) dev' := by
  unfold LogInViewController.fetchFacebookDataDidEndValue at h
  split at h
  · next dict hdict =>
    cases Snapshot.eq_of_dictionary? hdict
    cases h
    exact .loginKnown hfires hdict rfl
  · next hdict =>
    simp only [bind_eq_ok, unwrap_eq_ok] at h
    obtain ⟨id, hid, userRef, href, hdev⟩ := h
    cases hdev
    exact .loginNew hfires hdict hid href

theorem fetchListOfChatBoxDidEnd_eq (dev : Device) (chatList : List ChatRef) :
    ChatBusiness.fetchListOfChatBoxDidEnd dev chatList = { dev with homes := dev.handed chatList } := by
  unfold ChatBusiness.fetchListOfChatBoxDidEnd handed
  cases dev with
  | mk _ _ _ _ _ _ listener => cases listener <;> rfl

theorem chatListFire_inv {owner : UserId} {chatList : List ChatRef}
    (hfires : dev.Fires server i ref (.chatList owner chatList) snapshot)
    (h : ChatBusiness.fetchListOfChatBoxValue dev i owner chatList snapshot = .ok dev') :
    Outcome dev server (.fire i timestamp) dev' := by
  simp only [ChatBusiness.fetchListOfChatBoxValue, bind_eq_ok] at h
  obtain ⟨objects, hobjects, hdev⟩ := h
  cases hdev
  rw [fetchListOfChatBoxDidEnd_eq]
  exact .chatList hfires hobjects rfl

theorem lookupFire_inv {id : UserId} (hfires : dev.Fires server i ref (.lookup id) snapshot)
    (h : FriendViewController.addFriendButtonTappedValue dev i id snapshot = .ok dev') :
    Outcome dev server (.fire i timestamp) dev' := by
  unfold FriendViewController.addFriendButtonTappedValue at h
  split at h
  · next dict hdict =>
    cases Snapshot.eq_of_dictionary? hdict
    simp only [ChatBusiness.createNewChatBox, bind_eq_ok, unwrap_eq_ok] at h
    obtain ⟨userId, hid, id', hid', chatbox, hchatbox, createRef, hcreate, hdev⟩ := h
    cases hid'
    cases hdev
    exact .lookupFound hfires hdict hid rfl (bind_eq_ok.mpr ⟨chatbox, hchatbox, hcreate⟩)
  · next hdict =>
    cases h
    exact .lookupMissing hfires hdict

theorem createFire_inv {friend user : User}
    (hfires : dev.Fires server i ref (.create friend user) snapshot)
    (h : ChatBusiness.createNewChatBoxValue dev i friend user snapshot timestamp = .ok dev') :
    Outcome dev server (.fire i timestamp) dev' := by
  unfold ChatBusiness.createNewChatBoxValue at h
  split at h
  · next dict hdict =>
    cases Snapshot.eq_of_dictionary? hdict
    cases h
    exact .createExists hfires hdict
  · next hdict =>
    simp only [bind_eq_ok, unwrap_eq_ok] at h
    obtain ⟨id, hid, friendId, hfriend, name, hname, url, hurl, d, hd, chatbox, hchatbox, createRef,
      hcreate, hdev⟩ := h
    obtain rfl : (newChat id friendId name url timestamp).dict = d := Except.ok.inj hd
    cases hdev
    exact .create hfires hdict hid hfriend hname hurl
      (bind_eq_ok.mpr ⟨chatbox, hchatbox, hcreate⟩)

theorem friendFire_inv {screen : Nat} (hfires : dev.Fires server i ref (.friend screen) snapshot)
    (h : ChatBoxViewController.friendValue dev i screen snapshot = .ok dev') :
    Outcome dev server (.fire i timestamp) dev' := by
  simp only [ChatBoxViewController.friendValue, bind_eq_ok, unwrap_eq_ok] at h
  obtain ⟨dict, hdict, url, hurl, name, hname, hdev⟩ := h
  cases Snapshot.eq_of_dictionary? hdict
  cases hdev
  exact .friend hfires hname hurl

theorem messageFire_inv {screen : Nat} {delivered : List String}
    (hfires : dev.Fires server i ref (.message screen delivered) snapshot)
    (h : ChatBoxViewController.messageAdded dev i screen delivered snapshot = .ok dev') :
    Outcome dev server (.fire i timestamp) dev' := by
  simp only [ChatBoxViewController.messageAdded, bind_eq_ok] at h
  obtain ⟨messages, hmessages, hdev⟩ := h
  cases hdev
  exact .message hfires hmessages

end fire

/-- **Inversion.** What a successful action did. -/
theorem act_inv {action : Action} (h : dev.act server action = .ok dev') :
    Outcome dev server action dev' := by
  cases action with
  | logIn account =>
      cases h
      exact .logIn account
  | logOut =>
      cases h
      exact .logOut
  | fetchFacebookData =>
      cases h
      exact .fetchFacebookData
  | reply i result =>
      simp only [act, bind_eq_ok, enabled_eq_ok] at h
      obtain ⟨request, hrequest, h⟩ := h
      cases result with
      | none =>
          cases h
          exact .replyError hrequest
      | some result => exact reply_inv hrequest h
  | homeWillAppear home =>
      simp only [act, HomeViewController.viewWillAppear, ChatBusiness.fetchListOfChatBox, bind_eq_ok,
        unwrap_eq_ok, enabled_eq_ok] at h
      obtain ⟨vc, hvc, id, hid, ref, href, hdev⟩ := h
      cases hdev
      exact .homeWillAppear hvc hid href
  | rowTapped home i => exact rowTapped_inv h
  | addFriend id =>
      simp only [act, FriendViewController.addFriendButtonTapped] at h
      split at h
      · cases h
      · next hhomes =>
        obtain ⟨ref, href, hdev⟩ := bind_eq_ok.mp h
        cases hdev
        exact .addFriend hhomes href
  | sendTapped screen text randomStr timestamp =>
      simp only [act] at h
      split at h
      · next hrandom => exact sendTapped_inv hrandom h
      · cases h
  | fire i timestamp =>
      simp only [act, bind_eq_ok, enabled_eq_ok] at h
      obtain ⟨⟨ref, callback, last⟩, ho, h⟩ := h
      split at h
      · cases h
      · next hlast =>
        have hfires : dev.Fires server i ref callback ((dev.view server).subtree ref) :=
          ⟨last, ho, rfl, hlast⟩
        cases callback with
        | login => exact loginFire_inv hfires h
        | chatList => exact chatListFire_inv hfires h
        | lookup => exact lookupFire_inv hfires h
        | create => exact createFire_inv hfires h
        | friend => exact friendFire_inv hfires h
        | message => exact messageFire_inv hfires h
  | relaunch randomId =>
      simp only [act] at h
      split at h
      · next hrandom =>
        cases h
        exact .relaunch hrandom
      · cases h

end Device

end MyChat
