import MyChat.Issued
import MyChat.Lib.Avoids

/-!
# MyChat.NoTrap

Can a reader of the database trap? The readers force every field of a row, of a
message and of the user a row leads to. Rows and messages are always complete, since
the encoders force the same fields before anything is written; what can be missing is
the record of the friend that a tap takes out of a `chatId`. It is there on runs in
which nobody sends before the own user record is stored or queued (`readers_safe`).
A login whose observer has not answered yet lets a user send too early, and then the
friend's process stops (`readers_trap`).
-/

namespace MyChat

variable {ι : Type} [DecidableEq ι]

/-- A forced unwrap of nil, or a subscript out of range. -/
def Fault.IsForced : Fault → Prop
  | .foundNil _ => True
  | .indexOutOfRange => True
  | _ => False

instance : DecidablePred Fault.IsForced := fun fault => by
  unfold Fault.IsForced
  split <;> infer_instance

/-- No handler and no observer finds nil where it forces a value. The handler of a Graph
reply is not asked about: what it forces is the reply and the token. -/
def NoTrap (s : System ι) : Prop :=
  ∀ δ action fault, (∀ i result, action ≠ .reply i result) →
    (s.devices δ).act s.server.tree action = .error fault → ¬ fault.IsForced

/-- Whoever sends sees the own user record. -/
def SenderStored (s : System ι) (e : Event ι) : Prop :=
  match e with
  | .act δ (.sendTapped screen _ _ _) =>
      ∀ vc user id, (s.devices δ).screens[screen]? = some vc → vc.currentUser = some user →
        user.id = some id →
        Snapshot.dictionary? (((s.devices δ).view s.server.tree).subtree ["users", id]) ≠ none
  | _ => True

/-! ### The contract -/

/-- The user's record is among the known writes. -/
def Registered (H : Set Write) (id : UserId) : Prop :=
  ∃ u : UserRecord, u.id = id ∧ (Record.user u).write ∈ H

theorem Registered.mono {H H' : Set Write} {id : UserId} (hH : H ⊆ H') (h : Registered H id) :
    Registered H' id := by
  obtain ⟨u, hu, hmem⟩ := h
  exact ⟨u, hu, hH hmem⟩

/-- A tap on an entry with this `chatId` leads to a registered user. -/
def LeadsToUser (H : Set Write) (chatId : String) : Prop :=
  ∃ x y, CleanId x ∧ CleanId y ∧ chatId = chatKey x y ∧ Registered H y

theorem LeadsToUser.mono {H H' : Set Write} {chatId : String} (hH : H ⊆ H')
    (h : LeadsToUser H chatId) : LeadsToUser H' chatId := by
  obtain ⟨x, y, hx, hy, hkey, hreg⟩ := h
  exact ⟨x, y, hx, hy, hkey, hreg.mono hH⟩

/-- Whoever sends has a user record among the writes the device knows of. -/
def SenderRegistered (s : System ι) (e : Event ι) : Prop :=
  match e with
  | .act δ (.sendTapped screen _ _ _) =>
      ∀ vc user id, (s.devices δ).screens[screen]? = some vc → vc.currentUser = some user →
        user.id = some id → Registered (facts s.server (s.devices δ)) id
  | _ => True

/-- The contract: the `chatId` of every row and of every object leads to a registered
user, and only those are opened. -/
def leading (ι : Type) [DecidableEq ι] : Contract ι where
  guard s e := CleanIds e ∧ SenderRegistered s e
  account _ a := CleanId a
  session _ u := CleanId u.id
  issue _ H r :=
    match r with
    | .chat _ _ c => LeadsToUser H c.chatId
    | _ => True
  object _ H o := ∃ chatId, o.chat.chatId = some chatId ∧ LeadsToUser H chatId
  peer H y := Registered H y
  issue_mono := by
    intro δ H H' r hH h
    cases r with
    | chat => exact LeadsToUser.mono hH h
    | user => trivial
    | message => trivial
  object_mono := by
    intro δ H H' o hH h
    obtain ⟨chatId, hid, hlead⟩ := h
    exact ⟨chatId, hid, hlead.mono hH⟩
  peer_mono hH h := h.mono hH
  session_clean h := h
  logIn h := h.1
  reply _ _ _ h _ _ := h
  addFriend h := h.1
  register _ := trivial
  decode _ _ _ h := ⟨_, rfl, h⟩
  create := by
    intro δ δ' H u f timestamp hu hclean hf _
    exact ⟨u.id, f.id, hu, hclean, rfl, f, rfl, hf⟩
  tap := by
    intro δ H o x y ho hx hy hid
    obtain ⟨chatId, hid', x', y', hx', hy', hkey, hreg⟩ := ho
    have hkeys : chatKey x y = chatKey x' y' := by
      rw [← hkey]
      exact Option.some.inj (hid.symm.trans hid')
    obtain ⟨-, rfl⟩ := chatKey_inj hx.1 hx'.1 hkeys
    exact hreg
  send := by
    intro s δ screen text randomStr timestamp u friendId o c H hguard hsending hu hfriend hH ho m
    obtain ⟨vc, user, entry, hvc, huser, hmatch, -⟩ := hsending.vc
    -- the friend's row leads back to the sender
    have hback : LeadsToUser H (chatKey friendId u.id) :=
      ⟨friendId, u.id, hfriend, hu, rfl, (hguard.2 vc user u.id hvc huser hmatch.id).mono hH⟩
    have hown : LeadsToUser H c.chatId := by
      obtain ⟨chatId, hid, hlead⟩ := ho
      rw [hsending.chat] at hid
      rw [Option.some.inj hid]
      exact hlead
    exact ⟨trivial, fun _ => trivial, fun _ => hown, fun _ => hback, _, rfl, hback⟩

/-! ### What the parts of a handler avoid -/

section parts

variable {α : Type}

theorem avoids_unwrap {what : String} {o : Option α} {a : α} (h : o = some a) :
    Avoids Fault.IsForced (unwrap what o) := by
  rw [h]
  exact .ok a

theorem avoids_enabled (o : Option α) : Avoids Fault.IsForced (enabled o) := by
  cases o with
  | none => exact .error (by simp [Fault.IsForced])
  | some a => exact .ok a

theorem avoids_child (path : Path) (pathString : String) :
    Avoids Fault.IsForced (child path pathString) := by
  unfold child
  split
  · exact .ok _
  · exact .error (by simp [Fault.IsForced])

/-- A send between complete values forces nothing that is missing. -/
theorem avoids_sendWrites {u : UserRecord} {user : User} (hu : u.Matches user) (friendId : UserId)
    (c : ChatRecord) (text randomStr : String) (timestamp : Int64) :
    Avoids Fault.IsForced
      (ChatBoxViewController.sendWrites user friendId c.toChat text randomStr timestamp) := by
  refine (avoids_unwrap hu.id).bind fun id _ => ?_
  refine (avoids_child _ _).bind fun myRef _ => (avoids_child _ _).bind fun myRef' _ => ?_
  refine .bind (.of_ok ⟨_, rfl⟩) fun myMessage _ => ?_
  refine (avoids_child _ _).bind fun yourRef _ => (avoids_child _ _).bind fun yourRef' _ => ?_
  refine .bind (.of_ok ⟨_, rfl⟩) fun yourMessage _ => ?_
  refine (avoids_child _ _).bind fun myChatRef _ => (avoids_child _ _).bind fun myChatRef' _ => ?_
  refine .bind (.of_ok ⟨_, rfl⟩) fun myChat _ => ?_
  refine (avoids_child _ _).bind fun yourChatRef _ => (avoids_child _ _).bind fun yourChatRef' _ => ?_
  refine .bind (.of_ok ?_) fun yourChat _ => .ok _
  rw [hu.name, hu.avatarUrl]
  exact ⟨_, rfl⟩

end parts

/-! ### What a handler avoids -/

section handlers

variable {s : System ι} {δ : ι}

theorem avoids_chatObjects (h : (leading ι).Inv s) (owner : UserId) :
    Avoids Fault.IsForced (ChatBusiness.chatObjects owner
      (((s.devices δ).view s.server.tree).subtree ["chatbox", owner])) := by
  refine .mapM fun key hkey => ?_
  have hne := PathTree.mem_children.mp hkey
  rw [PathTree.subtree_subtree] at hne
  obtain ⟨peer, c, -, -, hd⟩ := ((h.devices δ).stored_view h.log).chat hne
  refine .bind (.of_ok ⟨c.toChat, ?_⟩) fun chat _ => .ok _
  rw [PathTree.subtree_subtree]
  show Chat.ofSnapshot (PathTree.subtree _ ["chatbox", owner, key]) = _
  rw [hd, c.ofSnapshot_dict]

theorem avoids_sendTapped (h : (leading ι).Inv s) (screen : Nat) (text randomStr : String)
    (timestamp : Int64) :
    Avoids Fault.IsForced
      (ChatBoxViewController.sendButtonTapped (s.devices δ) screen text randomStr timestamp) := by
  refine (avoids_enabled _).bind fun vc hvc => ?_
  obtain ⟨⟨user, huser, u, -, hmatch⟩, ⟨friendId, hfriend, -⟩, r, hr, hlt⟩ :=
    (h.devices δ).screens vc (List.mem_of_getElem? (enabled_eq_ok.mp hvc))
  refine (avoids_unwrap huser).bind fun user' huser' => ?_
  obtain rfl : user = user' := Option.some.inj (huser.symm.trans (unwrap_eq_ok.mp huser'))
  refine (avoids_unwrap hfriend).bind fun friendId' _ => ?_
  refine (avoids_unwrap hr).bind fun r' hr' => ?_
  obtain rfl : r = r' := Option.some.inj (hr.symm.trans (unwrap_eq_ok.mp hr'))
  refine (avoids_unwrap (List.getElem?_eq_getElem hlt)).bind fun object hobject => ?_
  obtain ⟨⟨c, x, y, hc, -⟩, -⟩ :=
    (h.devices δ).chats object (List.mem_of_getElem? (unwrap_eq_ok.mp hobject))
  rw [hc]
  refine (avoids_sendWrites hmatch friendId' c text randomStr timestamp).bind fun res _ => ?_
  exact .ok _

theorem avoids_rowTapped (h : (leading ι).Inv s) (home i : Nat) :
    Avoids Fault.IsForced (HomeViewController.cellTouchDownHandle (s.devices δ) home i) := by
  refine (avoids_enabled _).bind fun vc hvc => (avoids_enabled _).bind fun entry hentry => ?_
  refine (avoids_enabled _).bind fun object hobject => ?_
  have hobject := enabled_eq_ok.mp hobject
  obtain ⟨x, y, hx, hy, hid⟩ := ((h.devices δ).chats object (List.mem_of_getElem? hobject)).chatId
  have hids : object.chat.chatId.map (componentsSeparatedBy · '_') = some [x, y] := by
    rw [hid, Option.map_some, componentsSeparatedBy_chatKey_of_clean hx hy]
  refine (avoids_unwrap hids).bind fun ids hids' => ?_
  obtain rfl : [x, y] = ids := Option.some.inj (hids.symm.trans (unwrap_eq_ok.mp hids'))
  refine .bind (.of_ok ⟨y, rfl⟩) fun friendId _ => ?_
  -- the screen that is presented has everything it forces
  refine (avoids_unwrap rfl).bind fun friendId' _ => (avoids_child _ _).bind fun friendRef _ => ?_
  refine .bind (avoids_unwrap (a := object) hobject) fun object' hobject' => ?_
  obtain rfl : object = object' := Option.some.inj (hobject.symm.trans (unwrap_eq_ok.mp hobject'))
  refine (avoids_unwrap hid).bind fun chatId _ => (avoids_child _ _).bind fun ref _ => .ok _

theorem avoids_addFriend (dev : Device) (id : String) :
    Avoids Fault.IsForced (FriendViewController.addFriendButtonTapped dev id) := by
  unfold FriendViewController.addFriendButtonTapped
  split
  · exact .error (by simp [Fault.IsForced])
  · exact (avoids_child _ _).bind fun ref _ => .ok _

theorem avoids_createNewChatBox (dev : Device) {friend user : User} {id friendId : UserId}
    (hid : user.id = some id) (hfriend : friend.id = some friendId) :
    Avoids Fault.IsForced (ChatBusiness.createNewChatBox dev friend user) := by
  refine (avoids_unwrap hid).bind fun id _ => (avoids_unwrap hfriend).bind fun friendId _ => ?_
  exact (avoids_child _ _).bind fun chatbox _ => (avoids_child _ _).bind fun ref _ => .ok _

theorem avoids_createNewChatBoxValue (dev : Device) (i : Nat) {friend user : User}
    {u f : UserRecord} (hu : u.Matches user) (hf : f.Matches friend) (snapshot : Snapshot)
    (timestamp : Int64) :
    Avoids Fault.IsForced
      (ChatBusiness.createNewChatBoxValue dev i friend user snapshot timestamp) := by
  unfold ChatBusiness.createNewChatBoxValue
  dsimp only
  split
  · exact .ok _
  · refine (avoids_unwrap hu.id).bind fun id _ => (avoids_unwrap hf.id).bind fun friendId _ => ?_
    refine (avoids_unwrap hf.name).bind fun name _ => ?_
    refine (avoids_unwrap hf.avatarUrl).bind fun avatarUrl _ => ?_
    refine .bind (.of_ok ⟨_, rfl⟩) fun chatBoxDic _ => ?_
    exact (avoids_child _ _).bind fun chatbox _ => (avoids_child _ _).bind fun ref _ => .ok _

/-- An observer that fires finds what its closure forces. -/
theorem avoids_fire (h : (leading ι).Inv s) {o : Observer} (ho : o ∈ (s.devices δ).observers)
    (i : Nat) (timestamp : Int64) :
    Avoids Fault.IsForced ((s.devices δ).fire i
      (((s.devices δ).view s.server.tree).subtree o.ref) timestamp o.callback) := by
  have hdev := h.devices δ
  have hstored := hdev.stored_view h.log
  have hok := hdev.observers o ho
  obtain ⟨ref, callback, last⟩ := o
  cases callback with
  | login user userDictionary =>
      obtain ⟨u, hu, hmatch, -, rfl⟩ := hok
      show Avoids _ (LogInViewController.fetchFacebookDataDidEndValue _ _ _ _ _)
      unfold LogInViewController.fetchFacebookDataDidEndValue
      split
      · exact .ok _
      · exact (avoids_unwrap hmatch.id).bind fun id _ => (avoids_child _ _).bind fun ref _ => .ok _
  | chatList owner chatList =>
      obtain ⟨u, hu, rfl, rfl, -⟩ := hok
      exact (avoids_chatObjects h u.id).bind fun objects _ => .ok _
  | lookup id =>
      obtain ⟨-, rfl⟩ := hok
      obtain ⟨u, -, hmatch⟩ : (leading ι).Session δ (s.devices δ).currentUser :=
        hdev.user.resolve_right fun hnone => by simp [hnone.2] at ho
      show Avoids _ (FriendViewController.addFriendButtonTappedValue _ _ _ _)
      unfold FriendViewController.addFriendButtonTappedValue
      dsimp only
      split
      · exact avoids_createNewChatBox _ hmatch.id rfl
      · exact .ok _
  | create friend user =>
      obtain ⟨u, f, -, hmatch, hmatch', -⟩ := hok
      exact avoids_createNewChatBoxValue _ i hmatch hmatch' _ timestamp
  | friend screen =>
      obtain ⟨y, hy, ⟨u, rfl, hmem⟩, rfl⟩ := hok
      -- the record was written, so there is one, and it is complete
      have hne : ((s.devices δ).view s.server.tree).subtree (Record.user u).path ≠ ∅ := by
        rw [Device.view, s.server.tree_eq, ← applyAll_append]
        refine subtree_applyAll_ne_empty (fun w hw => ?_) (.inr ⟨_, rfl, List.mem_append.mpr hmem⟩)
        obtain ⟨r, -, hw⟩ := hdev.known h.log (List.mem_append.mp hw)
        exact ⟨r, hw⟩
      obtain ⟨u', -, -, hd⟩ := hstored.user hne
      show Avoids _ (ChatBoxViewController.friendValue _ i screen _)
      rw [hd]
      refine (avoids_unwrap u'.dictionary?_dict).bind fun dict hdict => ?_
      obtain rfl : u'.dict = dict := Option.some.inj
        (u'.dictionary?_dict.symm.trans (unwrap_eq_ok.mp hdict))
      refine (avoids_unwrap u'.string?_avatarUrl).bind fun url _ => ?_
      exact (avoids_unwrap u'.string?_name).bind fun name _ => .ok _
  | message screen delivered =>
      obtain ⟨x, y, hx, hy, rfl⟩ := hok
      refine .bind (.mapM fun key hkey => .of_ok ?_) fun messages _ => .ok _
      have hne := PathTree.mem_children.mp (List.mem_of_mem_filter hkey)
      rw [PathTree.subtree_subtree] at hne
      obtain ⟨owner, peer, m, -, -, -, hd⟩ := hstored.message hne
      refine ⟨m.toMessage, ?_⟩
      rw [PathTree.subtree_subtree]
      show Message.ofSnapshot (PathTree.subtree _ ["messages", chatKey x y, key]) = _
      rw [hd, m.ofSnapshot_dict]

theorem avoids_act (h : (leading ι).Inv s) {action : Action}
    (haction : ∀ i result, action ≠ .reply i result) :
    Avoids Fault.IsForced ((s.devices δ).act s.server.tree action) := by
  cases action with
  | logIn account => exact .ok _
  | logOut => exact .ok _
  | fetchFacebookData => exact .ok _
  | reply i result => exact absurd rfl (haction i result)
  | homeWillAppear home =>
      refine (avoids_enabled _).bind fun vc hvc => ?_
      obtain ⟨u, -, hmatch⟩ :=
        ((h.devices δ).homes vc (List.mem_of_getElem? (enabled_eq_ok.mp hvc))).session
      exact (avoids_unwrap hmatch.id).bind fun id _ => (avoids_child _ _).bind fun ref _ => .ok _
  | rowTapped home i => exact avoids_rowTapped h home i
  | addFriend id => exact avoids_addFriend _ id
  | sendTapped screen text randomStr timestamp =>
      rw [Device.act]
      split
      · exact avoids_sendTapped h screen text randomStr timestamp
      · exact .error (by simp [Fault.IsForced])
  | fire i timestamp =>
      refine (avoids_enabled _).bind fun o ho => ?_
      dsimp only
      split
      · exact .error (by simp [Fault.IsForced])
      · exact avoids_fire h (List.mem_of_getElem? (enabled_eq_ok.mp ho)) i timestamp
  | relaunch randomId =>
      rw [Device.act]
      split
      · exact .ok _
      · exact .error (by simp [Fault.IsForced])

end handlers

/-! ### Runs -/

/-- The assumption in terms of what the sender sees gives the one about writes. -/
theorem senderRegistered {s : System ι} {e : Event ι}
    (h : (plain fun (_ : ι) _ => True).Inv s) (hstored : SenderStored s e) :
    SenderRegistered s e := by
  unfold SenderRegistered
  split
  · next δ screen text randomStr timestamp =>
    intro vc user id hvc huser hid
    have hdict := hstored vc user id hvc huser hid
    have hne : ((s.devices δ).view s.server.tree).subtree ["users", id] ≠ ∅ := by
      intro hempty
      rw [hempty] at hdict
      exact hdict rfl
    obtain ⟨u, hknown, hu, -⟩ := ((h.devices δ).stored_view h.log).user hne
    exact ⟨u, hu, hknown.mem⟩
  · trivial

/-- **No reader traps.** On runs in which nobody sends before the own user record is
there. -/
theorem readers_safe {s : System ι}
    (h : System.Reachable (fun s e => CleanIds e ∧ SenderStored s e) s) : NoTrap s := by
  have hinv : (leading ι).Inv s := by
    refine Contract.inv (h.mono_of_reach fun s e hr hg => ⟨hg.1, ?_⟩)
    exact senderRegistered (plain_inv (hr.mono fun _ _ hg => hg.1)) hg.2
  intro δ action fault haction hfault
  exact avoids_act hinv haction fault hfault

/-! ### A run that traps -/

/-- The id typed into the add-friend dialog is the key of a registered user. -/
def TypedKnown (s : System ι) (e : Event ι) : Prop :=
  match e with
  | .act _ (.addFriend id) => Snapshot.dictionary? (s.server.tree.subtree ["users", id]) ≠ none
  | _ => True

/-- Clean and known ids, and replies with the data of their account. -/
def KnownRun (me : UserId → Json) (s : System ι) (e : Event ι) : Prop :=
  CleanIds e ∧ TypedKnown s e ∧ Honest me s e

/-- Executable form of `TypedKnown`. -/
def typedKnown (s : System Bool) (e : Event Bool) : Bool :=
  match e with
  | .act _ (.addFriend id) => (Snapshot.dictionary? (s.server.tree.subtree ["users", id])).isSome
  | _ => true

theorem typedKnown_sound {s : System Bool} {e : Event Bool} (h : typedKnown s e = true) :
    TypedKnown s e := by
  unfold typedKnown at h
  unfold TypedKnown
  split at h
  · next δ id => exact Option.isSome_iff_ne_none.mp h
  · next hother =>
    split
    · next δ id => exact absurd rfl (hother δ id)
    · trivial

/-- Executable form of `KnownRun`. -/
def knownRun (s : System Bool) (e : Event Bool) : Bool :=
  decide (CleanIds e) && typedKnown s e && honest sampleMe s e

theorem knownRun_sound (s : System Bool) (e : Event Bool) (h : knownRun s e = true) :
    KnownRun sampleMe s e := by
  simp only [knownRun, Bool.and_eq_true, decide_eq_true_eq] at h
  exact ⟨h.1.1, typedKnown_sound h.1.2, honest_sound h.2⟩

/-- Executable form of `CleanIds` and `SenderStored`. -/
def senderStored (s : System Bool) (e : Event Bool) : Bool :=
  decide (CleanIds e) &&
    match e with
    | .act δ (.sendTapped screen _ _ _) =>
        match ((s.devices δ).screens[screen]?.bind (·.currentUser)).bind (·.id) with
        | some id => decide
            (Snapshot.dictionary? (((s.devices δ).view s.server.tree).subtree ["users", id]) ≠ none)
        | none => true
    | _ => true

theorem senderStored_sound (s : System Bool) (e : Event Bool) (h : senderStored s e = true) :
    CleanIds e ∧ SenderStored s e := by
  unfold senderStored at h
  obtain ⟨hclean, hstored⟩ := Bool.and_eq_true_iff.mp h
  refine ⟨of_decide_eq_true hclean, ?_⟩
  unfold SenderStored
  split at hstored
  · next δ screen text randomStr timestamp =>
    intro vc user id hvc huser hid
    rw [hvc, Option.bind_some, huser, Option.bind_some, hid] at hstored
    exact of_decide_eq_true hstored
  · next hother =>
    split
    · next δ screen text randomStr timestamp =>
      exact absurd rfl (hother δ screen text randomStr timestamp)
    · trivial

/-- User 1 opens the chat with user 2 and sends; nothing in that run can trap. -/
theorem readers_safe_sample :
    ∃ s, Transition.run System.step senderStored sampleStart (sampleOpen ++ sampleSend "hi" 'a' 200) =
      some s ∧ NoTrap s := by
  have hrun : (Transition.run System.step senderStored sampleStart
      (sampleOpen ++ sampleSend "hi" 'a' 200)).isSome := by
    decide +kernel
  obtain ⟨s, hs⟩ := Option.isSome_iff_exists.mp hrun
  exact ⟨s, hs, readers_safe (.of_run senderStored_sound (.start initial_sampleStart) hs)⟩

/-- User 1 has a row for user 2. On the next start the login screen shows, and the account
is changed to 3 before the observer of user 1's login answers. From the home screen this
pushes, user 3 sends to user 2 before being registered, and user 2 opens the new row. -/
def sampleUnregistered : List (Event Bool) :=
  sampleLogIn true "2" ++ sampleLogIn false "1" ++
    [.act false (.addFriend "2"), .act false (.fire 1 0), .act false (.fire 2 100), .flush false,
      .act false .logOut, .act false (.relaunch (sampleId 'y')),
      .act false (.logIn "1"), .act false .fetchFacebookData,
      .act false (.reply 0 (some (sampleMe "1"))), .act false .logOut, .act false (.logIn "3"),
      .act false .fetchFacebookData, .act false (.fire 0 0), .act false (.homeWillAppear 0),
      .act false (.fire 1 0), .act false (.reply 0 (some (sampleMe "3"))),
      .act false (.rowTapped 0 0)] ++ sampleSend "hi" 'a' 200 ++
    [.act true (.homeWillAppear 0), .act true (.fire 1 0), .act true (.rowTapped 0 0)]

/-- The friend observer of user 2 forces the record of user 3. -/
theorem readers_trap :
    ¬ ∀ s : System Bool, System.Reachable (KnownRun sampleMe) s → NoTrap s := by
  intro h
  have hrun : (Transition.run System.step knownRun sampleStart sampleUnregistered).map (fun s =>
      match (s.devices true).act s.server.tree (.fire 2 0) with
      | .error fault => decide fault.IsForced
      | .ok _ => false) = some true := by
    decide +kernel
  obtain ⟨s, hs, htrap⟩ := Option.map_eq_some_iff.mp hrun
  have hsafe := h s (.of_run knownRun_sound (.start initial_sampleStart) hs)
  split at htrap
  · next fault hfault =>
    exact hsafe true (.fire 2 0) fault (by simp) hfault (of_decide_eq_true htrap)
  · cases htrap

end MyChat
