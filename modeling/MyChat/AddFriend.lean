import MyChat.CreateOnce
import MyChat.RoundTrip

/-!
# MyChat.AddFriend

What the text typed into the add-friend dialog does. It is walked to as a path by the
lookup, is the id of the friend, and becomes part of the key of the row. `child` raises on
some texts, and drops what is empty between slashes: so a text with slashes can find a
user, or all of them, without being a user's key. The request is right exactly when the
text is a path and has no slash or leads nowhere (`addFriend_accepts_iff`).
-/

namespace MyChat

/-- What is stored at `users/<id>`. -/
abbrev userAt (tree : Snapshot) (id : UserId) : Snapshot := tree.subtree ["users", id]

/-- Every user is stored under a key that can be one, with its own id and the texts that
a login stores. -/
def WellFormedUsers (tree : Snapshot) : Prop :=
  ∀ key ∈ (tree.subtree ["users"]).children, isValidPathString key ∧ '/' ∉ key.toList ∧
    (userAt tree key).string? "id" = some key ∧
    ∀ field ∈ ["name", "state", "avatarUrl"], ((userAt tree key).string? field).isSome

instance (tree : Snapshot) : Decidable (WellFormedUsers tree) :=
  inferInstanceAs (Decidable (∀ key ∈ (tree.subtree ["users"]).children,
    isValidPathString key ∧ '/' ∉ key.toList ∧ (userAt tree key).string? "id" = some key ∧
    ∀ field ∈ ["name", "state", "avatarUrl"], ((userAt tree key).string? field).isSome))

/-- The id is the key of a user. -/
def IsUser (tree : Snapshot) (id : UserId) : Prop := id ∈ (tree.subtree ["users"]).children

instance (tree : Snapshot) (id : UserId) : Decidable (IsUser tree id) :=
  inferInstanceAs (Decidable (id ∈ (tree.subtree ["users"]).children))

/-- One request: the tap, the answer of the lookup, and if that calls `createNewChatBox`,
what its closure does. -/
def addFriendRequest (dev : Device) (server : Snapshot) (id : String) (timestamp : Int64) :
    Except Fault Device := do
  let tapped ← dev.act server (.addFriend id)
  let answered ← tapped.act server (.fire dev.observers.length timestamp)
  if answered.observers.length = tapped.observers.length then return answered
  else answered.act server (.fire tapped.observers.length timestamp)

/-- The request of user `u` for `id` ends as it should: with a failure and no change if
there is no such user, and else with a whole row for the two, if any. -/
def AddFriendAccepts (dev : Device) (server : Snapshot) (u : UserId) (id : String)
    (timestamp : Int64) : Prop :=
  ∃ dev', addFriendRequest dev server id timestamp = .ok dev' ∧
    (¬ IsUser (dev.view server) id ∧ dev'.pending = dev.pending ∧
        dev'.dialogs = dev.dialogs ++ [("Thất bại", "ID người dùng không tồn tại!")] ∨
      IsUser (dev.view server) id ∧ (dev'.pending = dev.pending ∨
        ∃ r : ChatRecord, r.chatId = chatKey u id ∧
          dev'.pending = dev.pending ++ [⟨rowPath u id, r.dict⟩]))

/-! ### The users of a database -/

namespace WellFormedUsers

variable {tree : Snapshot} {id : UserId}

theorem dictionary? (h : WellFormedUsers tree) (hid : IsUser tree id) :
    (userAt tree id).dictionary? = some (userAt tree id) := by
  obtain ⟨-, -, hkey, -⟩ := h id hid
  obtain ⟨v, hv, -⟩ := Option.bind_eq_some_iff.mp hkey
  exact Snapshot.dictionary?_of_get "id" (by decide) hv

theorem isUser_of_dictionary? (h : (userAt tree id).dictionary? ≠ none) :
    IsUser tree id := by
  refine PathTree.mem_children.mpr fun hempty => h ?_
  rw [PathTree.subtree_subtree, List.singleton_append] at hempty
  rw [userAt, hempty, Snapshot.dictionary?_empty]

theorem field (h : WellFormedUsers tree) (hid : IsUser tree id) (key : String)
    (hkey : key ∈ ["name", "state", "avatarUrl"]) :
    ∃ value, (userAt tree id).string? key = some value :=
  Option.isSome_iff_exists.mp ((h id hid).2.2.2 key hkey)

end WellFormedUsers

/-! ### The parts of a request -/

section request

variable {dev : Device} {server : Snapshot} {id : String} {timestamp : Int64}

theorem isValidPathString_chatKey {u f : UserId} (hu : isValidPathString u)
    (hf : isValidPathString f) : isValidPathString (chatKey u f) :=
  isValidPathString_chatKey_iff.mpr
    ⟨(isValidPathString_iff.mp hu).2, (isValidPathString_iff.mp hf).2⟩

theorem view_observe {ref : Path} {callback : Callback} :
    (dev.observe ref callback).view server = dev.view server := rfl

/-- An observer just registered fires with what is at its location. -/
theorem act_fire_observe {ref : Path} {callback : Callback} {dev' : Device}
    (hobs : dev'.observers = dev.observers ++ [⟨ref, callback, none⟩]) :
    dev'.act server (.fire dev.observers.length timestamp) =
      dev'.fire dev.observers.length ((dev'.view server).subtree ref) timestamp callback := by
  simp [Device.act, hobs, bind, Except.bind, enabled]

/-- The tap observes the typed path. -/
theorem act_addFriend (hhomes : dev.homes ≠ []) (hid : isValidPathString id) :
    dev.act server (.addFriend id) =
      .ok (dev.observe (["users"] ++ pathPieces id) (.lookup id)) := by
  simp [Device.act, FriendViewController.addFriendButtonTapped, hhomes, child, hid, bind, Except.bind]
  rfl

/-- A typed path that leads to no dictionary is answered with a failure. -/
theorem addFriendRequest_of_missing (timestamp : Int64) (hhomes : dev.homes ≠ []) (hid : isValidPathString id)
    (hdict : Snapshot.dictionary? ((dev.view server).subtree (["users"] ++ pathPieces id)) = none) :
    ∃ dev', addFriendRequest dev server id timestamp = .ok dev' ∧ dev'.pending = dev.pending ∧
      dev'.dialogs = dev.dialogs ++ [("Thất bại", "ID người dùng không tồn tại!")] := by
  obtain ⟨answered, hanswer, hpending, hdialogs, hobs⟩ : ∃ answered,
      (dev.observe (["users"] ++ pathPieces id) (.lookup id)).act server
        (.fire dev.observers.length timestamp) = .ok answered ∧ answered.pending = dev.pending ∧
      answered.dialogs = dev.dialogs ++ [("Thất bại", "ID người dùng không tồn tại!")] ∧
      answered.observers.length =
        (dev.observe (["users"] ++ pathPieces id) (.lookup id)).observers.length := by
    rw [act_fire_observe rfl, Device.fire, FriendViewController.addFriendButtonTappedValue,
      view_observe, hdict]
    exact ⟨_, rfl, rfl, rfl, by simp [Device.showMessageDialog, Device.delivered]⟩
  refine ⟨answered, bind_eq_ok.mpr ⟨_, act_addFriend hhomes hid, bind_eq_ok.mpr ⟨answered, hanswer, ?_⟩⟩,
    hpending, hdialogs⟩
  rw [if_pos hobs]
  rfl

/-- What `createNewChatBox` does with a friend who has an id. -/
theorem createNewChatBox_eq_ok {u : UserId} {friend user : User} {dev' : Device}
    (hu : user.id = some u) (hid : friend.id = some id) :
    ChatBusiness.createNewChatBox dev friend user = .ok dev' ↔
      ∃ ref, (child ["chatbox"] u).bind (child · (chatKey u id)) = .ok ref ∧
        dev' = dev.observe ref (.create friend user) := by
  simp only [ChatBusiness.createNewChatBox, bind_eq_ok, unwrap_eq_ok]
  constructor
  · intro h
    obtain ⟨u', hu', id', hid', chatbox, hchatbox, ref, href, hdev⟩ := h
    cases hu.symm.trans hu'
    cases hid.symm.trans hid'
    exact ⟨ref, bind_eq_ok.mpr ⟨chatbox, hchatbox, href⟩, (Except.ok.inj hdev).symm⟩
  · intro h
    obtain ⟨ref, hpath, rfl⟩ := h
    obtain ⟨chatbox, hchatbox, href⟩ := bind_eq_ok.mp hpath
    exact ⟨u, hu, id, hid, chatbox, hchatbox, ref, href, rfl⟩

/-- The process when the lookup, at `path`, has called `createNewChatBox`, which observes
`ref`. -/
def calledCreate (dev : Device) (server : Snapshot) (id : String) (friend : User) (path ref : Path) :
    Device :=
  ((dev.observe path (.lookup id)).delivered dev.observers.length (.lookup id)
    ((dev.view server).subtree path)).observe ref (.create friend dev.currentUser)

variable {u : UserId} {friend : User} {path ref : Path}

theorem length_observers_calledCreate :
    (calledCreate dev server id friend path ref).observers.length = dev.observers.length + 2 := by
  simp [calledCreate, Device.observe, Device.delivered]

/-- Then its closure runs on what is at `ref`. -/
theorem act_fire_calledCreate :
    (calledCreate dev server id friend path ref).act server
        (.fire (dev.observers.length + 1) timestamp) =
      ChatBusiness.createNewChatBoxValue (calledCreate dev server id friend path ref)
        (dev.observers.length + 1) friend dev.currentUser ((dev.view server).subtree ref)
        timestamp := by
  have hlength : ((dev.observe path (.lookup id)).delivered dev.observers.length (.lookup id)
      ((dev.view server).subtree path)).observers.length = dev.observers.length + 1 := by
    simp [Device.observe, Device.delivered]
  rw [← hlength, act_fire_observe rfl]
  rfl

/-- A typed path that leads to a dictionary is answered by `createNewChatBox`. -/
theorem act_fire_lookup {answered : Device} (hu : dev.currentUser.id = some u)
    (hfriend : friendOfSnapshot id ((dev.view server).subtree path) = .ok friend) :
    (dev.observe path (.lookup id)).act server (.fire dev.observers.length timestamp) =
        .ok answered ↔
      ∃ ref, (child ["chatbox"] u).bind (child · (chatKey u id)) = .ok ref ∧
        answered = calledCreate dev server id friend path ref := by
  have hfriendId : friend.id = some id := by
    obtain ⟨_, -, hfriend⟩ := bind_eq_ok.mp hfriend
    rw [← Except.ok.inj hfriend]
  rw [act_fire_observe rfl, Device.fire, view_observe, addFriendButtonTappedValue_eq hfriend]
  exact createNewChatBox_eq_ok hu hfriendId

/-- A request that finds a dictionary is a call of `createNewChatBox` on the typed text. -/
theorem addFriendRequest_of_found {dev' : Device} (hhomes : dev.homes ≠ [])
    (hid : isValidPathString id) (hu : dev.currentUser.id = some u)
    (hpath : path = ["users"] ++ pathPieces id)
    (hfriend : friendOfSnapshot id ((dev.view server).subtree path) = .ok friend) :
    addFriendRequest dev server id timestamp = .ok dev' ↔
      ∃ ref, (child ["chatbox"] u).bind (child · (chatKey u id)) = .ok ref ∧
        ChatBusiness.createNewChatBoxValue (calledCreate dev server id friend path ref)
          (dev.observers.length + 1) friend dev.currentUser ((dev.view server).subtree ref)
          timestamp = .ok dev' := by
  subst hpath
  -- the call registers one more observer, so the request is not over with the answer
  have htapped : (dev.observe (["users"] ++ pathPieces id) (.lookup id)).observers.length =
      dev.observers.length + 1 := by
    simp [Device.observe]
  constructor
  · intro h
    obtain ⟨tapped, htap, h⟩ := bind_eq_ok.mp h
    obtain ⟨answered, hanswer, h⟩ := bind_eq_ok.mp h
    cases (act_addFriend hhomes hid).symm.trans htap
    obtain ⟨ref, href, rfl⟩ := (act_fire_lookup hu hfriend).mp hanswer
    rw [htapped, length_observers_calledCreate, if_neg (by omega), act_fire_calledCreate] at h
    exact ⟨ref, href, h⟩
  · intro h
    obtain ⟨ref, href, h⟩ := h
    refine bind_eq_ok.mpr ⟨_, act_addFriend hhomes hid, bind_eq_ok.mpr
      ⟨_, (act_fire_lookup hu hfriend).mpr ⟨ref, href, rfl⟩, ?_⟩⟩
    rw [htapped, length_observers_calledCreate, if_neg (by omega), act_fire_calledCreate, h]

theorem friendOfSnapshot_of_dictionary (id : String) {snapshot dict : Snapshot}
    (h : snapshot.dictionary? = some dict) :
    friendOfSnapshot id snapshot = .ok ⟨some id, dict.string? "name", dict.string? "state",
      dict.string? "avatarUrl", dict.stringArray? "friendList"⟩ := by
  simp only [friendOfSnapshot, h, unwrap_some]
  rfl

/-- The tap raises on a text that is not a path. -/
theorem isValidPathString_of_request {dev' : Device}
    (h : addFriendRequest dev server id timestamp = .ok dev') : isValidPathString id := by
  obtain ⟨tapped, htap, -⟩ := bind_eq_ok.mp h
  simp only [Device.act, FriendViewController.addFriendButtonTapped] at htap
  split at htap
  · cases htap
  · obtain ⟨ref, href, -⟩ := bind_eq_ok.mp htap
    by_contra hvalid
    simp [child, hvalid] at href

/-- With all it needs to know of the friend, `createNewChatBox` goes on. -/
theorem createNewChatBoxValue_total (dev : Device) (i : Nat) (snapshot : Snapshot)
    (timestamp : Int64) {user : User} {name url : String}
    (hu : user.id = some u) (hid : friend.id = some id) (hname : friend.name = some name)
    (hurl : friend.avatarUrl = some url)
    (href : (child ["chatbox"] u).bind (child · (chatKey u id)) = .ok ref) :
    ∃ dev', ChatBusiness.createNewChatBoxValue dev i friend user snapshot timestamp = .ok dev' ∧
      (dev'.pending = dev.pending ∨
        dev'.pending = dev.pending ++ [⟨ref, (newChat u id name url timestamp).dict⟩]) := by
  obtain ⟨chatbox, hchatbox, href⟩ := bind_eq_ok.mp href
  unfold ChatBusiness.createNewChatBoxValue
  split
  · exact ⟨_, rfl, Or.inl rfl⟩
  · simp only [bind_eq_ok, unwrap_eq_ok]
    refine ⟨_, ⟨u, hu, id, hid, name, hname, url, hurl, (newChat u id name url timestamp).dict, rfl,
      chatbox, hchatbox, ref, href, rfl⟩, Or.inr rfl⟩

/-! ### Whole requests -/

/-- A text that leads to a dictionary is taken rightly only if it has no slash: no failure
is shown, so it must be a user's key. -/
theorem no_slash_of_accepts (hhomes : dev.homes ≠ []) (husers : WellFormedUsers (dev.view server))
    (hu : dev.currentUser.id = some u) (h : AddFriendAccepts dev server u id timestamp)
    (hfound : Snapshot.dictionary? ((dev.view server).subtree ("users" :: pathPieces id)) ≠ none) :
    '/' ∉ id.toList := by
  obtain ⟨dev', hrequest, hcase⟩ := h
  obtain ⟨dict, hdict⟩ := Option.ne_none_iff_exists'.mp hfound
  have hfriend := friendOfSnapshot_of_dictionary id hdict
  obtain ⟨ref, -, hcreate⟩ := (addFriendRequest_of_found hhomes
    (isValidPathString_of_request hrequest) hu rfl hfriend).mp hrequest
  obtain ⟨state, hdialogs⟩ : ∃ state, dev'.dialogs = dev.dialogs ++ [(state, "")] := by
    rcases createNewChatBoxValue_inv hcreate with ⟨-, -, hdialogs⟩ |
      ⟨-, -, -, -, -, -, -, -, -, -, hdialogs⟩
    · exact ⟨_, hdialogs⟩
    · exact ⟨_, hdialogs⟩
  rcases hcase with ⟨-, -, hfailed⟩ | ⟨hkey, -⟩
  · rw [hdialogs] at hfailed
    simp at hfailed
  · exact (husers id hkey).2.1

/-- A text without a slash is looked up as a key. -/
theorem users_pathPieces (hid : isValidPathString id) (hslash : '/' ∉ id.toList) :
    "users" :: pathPieces id = ["users", id] := by
  have hne : id ≠ "" := by
    rintro rfl
    simp [isValidPathString] at hid
  rw [pathPieces_of_not_mem hne hslash]

theorem accepts_of_missing (hhomes : dev.homes ≠ []) (husers : WellFormedUsers (dev.view server))
    (hid : isValidPathString id)
    (hdict : Snapshot.dictionary? ((dev.view server).subtree ("users" :: pathPieces id)) = none) :
    AddFriendAccepts dev server u id timestamp := by
  obtain ⟨dev', hrequest, hpending, hdialogs⟩ :=
    addFriendRequest_of_missing timestamp hhomes hid hdict
  refine ⟨dev', hrequest, Or.inl ⟨fun hkey => ?_, hpending, hdialogs⟩⟩
  have hfound := husers.dictionary? hkey
  rw [users_pathPieces hid (husers id hkey).2.1] at hdict
  rw [userAt, hdict] at hfound
  cases hfound

theorem accepts_of_isUser (hhomes : dev.homes ≠ []) (husers : WellFormedUsers (dev.view server))
    (hu : dev.currentUser.id = some u) (huser : IsUser (dev.view server) u)
    (hkey : IsUser (dev.view server) id) : AddFriendAccepts dev server u id timestamp := by
  obtain ⟨hvalid, hslash, -⟩ := husers u huser
  obtain ⟨hid, hinner, -⟩ := husers id hkey
  obtain ⟨name, hname⟩ := husers.field hkey "name" (by simp)
  obtain ⟨url, hurl⟩ := husers.field hkey "avatarUrl" (by simp)
  obtain ⟨friend, hfriend, hfriendId, hfriendName, hfriendUrl⟩ : ∃ friend,
      friendOfSnapshot id (userAt (dev.view server) id) = .ok friend ∧ friend.id = some id ∧
        friend.name = some name ∧ friend.avatarUrl = some url :=
    ⟨_, friendOfSnapshot_of_dictionary id (husers.dictionary? hkey), rfl, hname, hurl⟩
  have href : (child ["chatbox"] u).bind (child · (chatKey u id)) = .ok (rowPath u id) := by
    have hkeySlash : '/' ∉ (chatKey u id).toList := by
      simp [chatKey_toList, hslash, hinner]
    exact bind_eq_ok.mpr ⟨["chatbox", u], (child_eq_ok hslash).mpr ⟨hvalid, rfl⟩,
      (child_eq_ok hkeySlash).mpr ⟨isValidPathString_chatKey hvalid hid, rfl⟩⟩
  obtain ⟨dev', hcreate, hpending⟩ := createNewChatBoxValue_total
    (calledCreate dev server id friend ["users", id] (rowPath u id)) (dev.observers.length + 1)
    ((dev.view server).subtree (rowPath u id)) timestamp hu hfriendId hfriendName hfriendUrl href
  refine ⟨dev', (addFriendRequest_of_found hhomes hid hu (users_pathPieces hid hinner).symm
    hfriend).mpr ⟨_, href, hcreate⟩, Or.inr ⟨hkey, ?_⟩⟩
  exact hpending.imp_right fun h => ⟨newChat u id name url timestamp, rfl, h⟩

end request

/-- User 1 is on the home screen. -/
def sampleDevice : Device :=
  { Device.launch (some "1") (sampleId 'x') with
    currentUser := (sampleUser "1").toUser
    homes := [⟨(sampleUser "1").toUser, []⟩] }

end MyChat
