import MyChat.Records
import MyChat.System

/-!
# MyChat.Contract

One induction for all invariants about what is stored and what the processes hold.

A `Contract` says which logins, replies and sends a run may contain, and what its
parties promise: `session` of the users that are logged in, `issue` of a record when
it is handed to `setValue`, `object` of a `Chat` object in memory, `peer` of the user
a chat screen is opened for. Promises about records and objects may refer to the
writes known so far, as long as knowing more does no harm. The laws are one per
operation of the app.

`Contract.inv` is the result: on every run that the contract allows, everything in
every process and on the server keeps its promise (`Contract.Inv`), and each queued
write finds what it relies on in the log or earlier in its own queue.
-/

namespace MyChat

variable {ι : Type} [DecidableEq ι]

/-- The writes a device knows of: those applied, and its own queued ones. -/
def facts (server : Server) (dev : Device) : Set Write :=
  {w | w ∈ server.log ∨ w ∈ dev.pending}

/-- The writes applied by the server. -/
def applied (server : Server) : Set Write := {w | w ∈ server.log}

theorem applied_subset_facts (server : Server) (dev : Device) :
    applied server ⊆ facts server dev := fun _ h => Or.inl h

theorem facts_subset_queue (server : Server) (dev : Device) (ws : List Write) :
    facts server dev ⊆ facts server { dev with pending := dev.pending ++ ws } :=
  fun _ h => h.imp id (List.mem_append_left _)

/-- Screen `screen` is in the session of `u` with `friendId`, and would send from the
object `o`, whose chat is `c`. -/
structure Sending (dev : Device) (screen : Nat) (u : UserRecord) (friendId : UserId)
    (o : ChatObject) (c : ChatRecord) : Prop where
  intro ::
  vc : ∃ vc user entry, dev.screens[screen]? = some vc ∧ vc.currentUser = some user ∧
    u.Matches user ∧ vc.friendId = some friendId ∧ vc.currentChatBox = some entry ∧
    dev.chats[entry]? = some o
  chat : o.chat = c.toChat

/-- What a run may contain and what its parties promise. -/
structure Contract (ι : Type) [DecidableEq ι] where
  /-- The events allowed. -/
  guard : System ι → Event ι → Prop
  /-- The accounts that log in on a device. -/
  account : ι → UserId → Prop
  /-- The users that become the current user of a device. -/
  session : ι → UserRecord → Prop
  /-- A record that the device may issue, given the writes it knows of. -/
  issue : ι → Set Write → Record → Prop
  /-- A `Chat` object that the device may hold. -/
  object : ι → Set Write → ChatObject → Prop
  /-- A user that a chat screen may be opened for. -/
  peer : Set Write → UserId → Prop
  issue_mono : ∀ {δ H H' r}, H ⊆ H' → issue δ H r → issue δ H' r
  object_mono : ∀ {δ H H' o}, H ⊆ H' → object δ H o → object δ H' o
  peer_mono : ∀ {H H' y}, H ⊆ H' → peer H y → peer H' y
  session_clean : ∀ {δ u}, session δ u → CleanId u.id
  /-- Logging in. -/
  logIn : ∀ {s δ account'}, guard s (.act δ (.logIn account')) → account δ account'
  /-- The reply to a Graph request that was issued for an account of the device. -/
  reply : ∀ {s δ i result request u}, guard s (.act δ (.reply i (some result))) →
    (s.devices δ).requests[i]? = some request → (∀ a, request = some a → account δ a) →
    account δ u.id → facebookName result = some u.name → facebookUrl result = some u.avatarUrl →
    session δ u
  /-- The id typed into the add-friend dialog. -/
  addFriend : ∀ {s δ id}, guard s (.act δ (.addFriend id)) → CleanId id
  /-- A first login registers the user. -/
  register : ∀ {δ H u}, session δ u → issue δ H (.user u)
  /-- A row of the current user becomes an object. -/
  decode : ∀ {δ δ' H u peer c}, session δ u → (Record.chat u.id peer c).Sound →
    (Record.chat u.id peer c).write ∈ H → issue δ' H (.chat u.id peer c) →
    object δ H ⟨c.toChat, u.id, chatKey u.id peer⟩
  /-- `createNewChatBox` for a registered friend. -/
  create : ∀ {δ δ' H u f timestamp}, session δ u → CleanId f.id → (Record.user f).write ∈ H →
    issue δ' H (.user f) →
    issue δ H (.chat u.id f.id (newChat u.id f.id f.name f.avatarUrl timestamp))
  /-- A tap takes the friend from the `chatId` of the object. -/
  tap : ∀ {δ H o x y}, object δ H o → CleanId x → CleanId y → o.chat.chatId = some (chatKey x y) →
    peer H y
  /-- A send issues four records and changes the object it sends from. -/
  send : ∀ {s δ screen text randomStr timestamp u friendId o c H},
    guard s (.act δ (.sendTapped screen text randomStr timestamp)) →
    Sending (s.devices δ) screen u friendId o c → session δ u → CleanId friendId →
    facts s.server (s.devices δ) ⊆ H → object δ H o →
    let m := sentMessage u friendId text randomStr timestamp
    issue δ H (.message u.id friendId m) ∧
    ((Record.message u.id friendId m).write ∈ H → issue δ H (.message friendId u.id m)) ∧
    ((Record.message u.id friendId m).write ∈ H →
      issue δ H (.chat u.id friendId (myChat c text timestamp))) ∧
    ((Record.message friendId u.id m).write ∈ H →
      issue δ H (.chat friendId u.id (yourChat u friendId text timestamp))) ∧
    object δ H { o with chat := (yourChat u friendId text timestamp).toChat }

namespace Contract

variable (C : Contract ι)

/-- The user is one that may be logged in. -/
def Session (δ : ι) (user : User) : Prop := ∃ u, C.session δ u ∧ u.Matches user

/-- The write stores a sound record that may be issued. -/
def Ok (δ : ι) (H : Set Write) (w : Write) : Prop := ∃ r, w = r.write ∧ r.Sound ∧ C.issue δ H r

/-- The record was issued, by some device. -/
structure Known (H : Set Write) (r : Record) : Prop where
  intro ::
  mem : r.write ∈ H
  sound : r.Sound
  issued : ∃ δ, C.issue δ H r

/-- An object decoded from a row of a user of the device. -/
structure ObjectOk (δ : ι) (H : Set Write) (o : ChatObject) : Prop where
  intro ::
  chat : ∃ c x y, o.chat = ChatRecord.toChat c ∧ CleanId x ∧ CleanId y ∧ c.chatId = chatKey x y
  place : ∃ u peer, C.session δ u ∧ o.owner = u.id ∧ CleanId peer ∧ o.key = chatKey u.id peer
  promise : C.object δ H o

/-- An observer at the location its closure is about, which captured what it may.
`n` is the number of `Chat` objects. -/
def ObserverOk (δ : ι) (H : Set Write) (n : Nat) (o : Observer) : Prop :=
  match o.callback with
  | .login user userDictionary =>
      ∃ u, C.session δ u ∧ u.Matches user ∧ userDictionary = u.dict ∧ o.ref = ["users", u.id]
  | .chatList owner chatList =>
      ∃ u, C.session δ u ∧ owner = u.id ∧ o.ref = ["chatbox", owner] ∧ ∀ r ∈ chatList, r < n
  | .lookup id => CleanId id ∧ o.ref = ["users", id]
  | .create friend user =>
      ∃ u f, C.session δ u ∧ u.Matches user ∧ f.Matches friend ∧ CleanId f.id ∧
        C.Known H (.user f) ∧ o.ref = ["chatbox", u.id, chatKey u.id f.id]
  | .friend _ => ∃ y, CleanId y ∧ C.peer H y ∧ o.ref = ["users", y]
  | .message _ _ => ∃ x y, CleanId x ∧ CleanId y ∧ o.ref = ["messages", chatKey x y]

/-- A home screen of a user of the device. -/
structure HomeOk (δ : ι) (n : Nat) (vc : HomeViewController) : Prop where
  session : C.Session δ vc.currentUser
  entries : ∀ r ∈ vc.chatList, r < n

/-- A chat screen of a user of the device. -/
structure ScreenOk (δ : ι) (n : Nat) (vc : ChatBoxViewController) : Prop where
  intro ::
  session : ∃ user, vc.currentUser = some user ∧ C.Session δ user
  friend : ∃ friendId, vc.friendId = some friendId ∧ CleanId friendId
  entry : ∃ r, vc.currentChatBox = some r ∧ r < n

/-- Everything in the process keeps its promise. -/
structure DeviceInv (δ : ι) (server : Server) (dev : Device) : Prop where
  token : ∀ a, dev.accessToken = some a → C.account δ a
  requests : ∀ request ∈ dev.requests, ∀ a, request = some a → C.account δ a
  /-- Before the first reply there is neither a screen nor an observer. -/
  user : C.Session δ dev.currentUser ∨ dev.homes = [] ∧ dev.observers = []
  observers : ∀ o ∈ dev.observers, C.ObserverOk δ (facts server dev) dev.chats.length o
  chats : ∀ o ∈ dev.chats, C.ObjectOk δ (facts server dev) o
  homes : ∀ vc ∈ dev.homes, C.HomeOk δ dev.chats.length vc
  screens : ∀ vc ∈ dev.screens, C.ScreenOk δ dev.chats.length vc
  pending : Transition.Causal (C.Ok δ) (applied server) dev.pending

/-- The invariant of a contract. -/
structure Inv (s : System ι) : Prop where
  log : ∀ w ∈ s.server.log, ∃ δ, C.Ok δ (applied s.server) w
  devices : ∀ δ, C.DeviceInv δ s.server (s.devices δ)

/-! ### Knowing more does no harm -/

section mono

variable {C} {δ : ι} {H H' : Set Write} {n n' : Nat}

theorem Ok.mono {w : Write} (hH : H ⊆ H') (h : C.Ok δ H w) : C.Ok δ H' w := by
  obtain ⟨r, hw, hr, hissue⟩ := h
  exact ⟨r, hw, hr, C.issue_mono hH hissue⟩

theorem Known.mono {r : Record} (hH : H ⊆ H') (h : C.Known H r) : C.Known H' r := by
  obtain ⟨hmem, hr, δ, hissue⟩ := h
  exact ⟨hH hmem, hr, δ, C.issue_mono hH hissue⟩

theorem ObjectOk.mono {o : ChatObject} (hH : H ⊆ H') (h : C.ObjectOk δ H o) : C.ObjectOk δ H' o :=
  ⟨h.chat, h.place, C.object_mono hH h.promise⟩

theorem ObserverOk.mono {o : Observer} (hH : H ⊆ H') (hn : n ≤ n') (h : C.ObserverOk δ H n o) :
    C.ObserverOk δ H' n' o := by
  obtain ⟨ref, callback, last⟩ := o
  cases callback with
  | login => exact h
  | chatList owner chatList =>
      obtain ⟨u, hu, howner, href, hlist⟩ := h
      exact ⟨u, hu, howner, href, fun r hr => (hlist r hr).trans_le hn⟩
  | lookup => exact h
  | create =>
      obtain ⟨u, f, hu, huser, hfriend, hf, hknown, href⟩ := h
      exact ⟨u, f, hu, huser, hfriend, hf, hknown.mono hH, href⟩
  | friend =>
      obtain ⟨y, hy, hpeer, href⟩ := h
      exact ⟨y, hy, C.peer_mono hH hpeer, href⟩
  | message => exact h

theorem HomeOk.mono {vc : HomeViewController} (hn : n ≤ n') (h : C.HomeOk δ n vc) :
    C.HomeOk δ n' vc :=
  ⟨h.session, fun r hr => (h.entries r hr).trans_le hn⟩

theorem ScreenOk.mono {vc : ChatBoxViewController} (hn : n ≤ n') (h : C.ScreenOk δ n vc) :
    C.ScreenOk δ n' vc := by
  obtain ⟨hsession, hfriend, r, hr, hlt⟩ := h
  exact ⟨hsession, hfriend, r, hr, hlt.trans_le hn⟩

/-- The server may have applied more. -/
theorem DeviceInv.mono {server server' : Server} {dev : Device}
    (hserver : applied server ⊆ applied server') (h : C.DeviceInv δ server dev) :
    C.DeviceInv δ server' dev := by
  have hH : facts server dev ⊆ facts server' dev := fun w hw => hw.imp (fun hw => hserver hw) id
  exact {
    token := h.token
    requests := h.requests
    user := h.user
    observers := fun o ho => (h.observers o ho).mono hH le_rfl
    chats := fun o ho => (h.chats o ho).mono hH
    homes := h.homes
    screens := h.screens
    pending := h.pending.mono Ok.mono hserver }

end mono

/-! ### What a device sees -/

section view

variable {C} {δ : ι} {server : Server} {dev : Device}

/-- An object of the device shows the key of two clean ids. -/
theorem ObjectOk.chatId {H : Set Write} {o : ChatObject} (h : C.ObjectOk δ H o) :
    ∃ x y, CleanId x ∧ CleanId y ∧ o.chat.chatId = some (chatKey x y) := by
  obtain ⟨c, x, y, hc, hx, hy, hxy⟩ := h.chat
  refine ⟨x, y, hx, hy, ?_⟩
  rw [hc, ← hxy]
  rfl

/-- A tap reads the second of them. -/
theorem ObjectOk.tapped {H : Set Write} {o : ChatObject} {chatId friendId : String}
    (h : C.ObjectOk δ H o) (hchatId : o.chat.chatId = some chatId)
    (hfriend : (componentsSeparatedBy chatId '_')[1]? = some friendId) :
    ∃ x, CleanId x ∧ CleanId friendId ∧ chatId = chatKey x friendId := by
  obtain ⟨x, y, hx, hy, hkey⟩ := h.chatId
  obtain rfl : chatKey x y = chatId := Option.some.inj (hkey.symm.trans hchatId)
  rw [componentsSeparatedBy_chatKey_of_clean hx hy] at hfriend
  obtain rfl : y = friendId := Option.some.inj hfriend
  exact ⟨x, hx, hy, rfl⟩

theorem DeviceInv.ok_of_pending (h : C.DeviceInv δ server dev) {w : Write}
    (hw : w ∈ dev.pending) : C.Ok δ (facts server dev) w :=
  h.pending.ok_of_mem Ok.mono hw

/-- Every write a device knows of stores a record that was issued. -/
theorem DeviceInv.known (h : C.DeviceInv δ server dev)
    (hlog : ∀ w ∈ server.log, ∃ δ, C.Ok δ (applied server) w) {w : Write}
    (hw : w ∈ facts server dev) : ∃ r, C.Known (facts server dev) r ∧ w = r.write := by
  have hok : ∃ δ, C.Ok δ (facts server dev) w := by
    rcases hw with hw | hw
    · obtain ⟨δ', hok⟩ := hlog w hw
      exact ⟨δ', hok.mono (applied_subset_facts server dev)⟩
    · exact ⟨δ, h.ok_of_pending hw⟩
  obtain ⟨δ', r, rfl, hr, hissue⟩ := hok
  exact ⟨r, ⟨hw, hr, δ', hissue⟩, rfl⟩

/-- What a device sees is made of records that were issued. -/
theorem DeviceInv.stored_view (h : C.DeviceInv δ server dev)
    (hlog : ∀ w ∈ server.log, ∃ δ, C.Ok δ (applied server) w) :
    Stored (C.Known (facts server dev)) (dev.view server.tree) := by
  rw [Device.view, server.tree_eq, ← applyAll_append]
  refine Stored.empty.applyAll fun w hw => h.known hlog ?_
  exact List.mem_append.mp hw

/-- What the server has is made of records that were issued. -/
theorem Inv.stored {s : System ι} (h : C.Inv s) :
    Stored (C.Known (applied s.server)) s.server.tree := by
  rw [s.server.tree_eq]
  refine Stored.empty.applyAll fun w hw => ?_
  obtain ⟨δ, r, rfl, hr, hissue⟩ := h.log w hw
  exact ⟨r, ⟨hw, hr, δ, hissue⟩, rfl⟩

/-- A record that was applied left something at its location. -/
theorem Inv.subtree_ne_empty {s : System ι} (h : C.Inv s) {r : Record}
    (hr : r.write ∈ s.server.log) : s.server.tree.subtree r.path ≠ ∅ := by
  rw [s.server.tree_eq]
  refine subtree_applyAll_ne_empty (fun w hw => ?_) (Or.inr ⟨r, rfl, hr⟩)
  obtain ⟨δ, r', hw', -⟩ := h.log w hw
  exact ⟨r', hw'⟩

end view

/-! ### One step of one process -/

section step

variable {C} {s : System ι} {δ : ι}

/-- The observers after a delivery, when the one that delivered is as it should be. -/
theorem DeviceInv.delivered {server : Server} {dev : Device} {tree : Snapshot} {i n : Nat}
    {ref : Path} {callback callback' : Callback} {snapshot : Snapshot} {H : Set Write}
    (h : C.DeviceInv δ server dev) (hH : facts server dev ⊆ H) (hn : dev.chats.length ≤ n)
    (hfires : dev.Fires tree i ref callback snapshot)
    (hok : C.ObserverOk δ H n ⟨ref, callback', some snapshot⟩) :
    ∀ o ∈ dev.observersDelivered i callback' snapshot, C.ObserverOk δ H n o := by
  intro o ho
  rcases hfires.mem_observersDelivered ho with ho | rfl
  · exact (h.observers o ho).mono hH hn
  · exact hok

/-- What the closure of the firing observer captured. -/
theorem DeviceInv.fires {server : Server} {dev : Device} {tree : Snapshot} {i : Nat} {ref : Path}
    {callback : Callback} {snapshot : Snapshot} (h : C.DeviceInv δ server dev)
    (hfires : dev.Fires tree i ref callback snapshot) (last : Option Snapshot) :
    C.ObserverOk δ (facts server dev) dev.chats.length ⟨ref, callback, last⟩ := by
  obtain ⟨last', hmem⟩ := hfires.mem
  have hok := h.observers _ hmem
  exact hok

theorem DeviceInv.session_of_home {server : Server} {dev : Device} {vc : HomeViewController}
    (h : C.DeviceInv δ server dev) (hvc : vc ∈ dev.homes) : C.Session δ dev.currentUser :=
  h.user.resolve_right fun hnone => by simp [hnone.1] at hvc

theorem DeviceInv.session_of_fires {server : Server} {dev : Device} {tree : Snapshot} {i : Nat}
    {ref : Path} {callback : Callback} {snapshot : Snapshot} (h : C.DeviceInv δ server dev)
    (hfires : dev.Fires tree i ref callback snapshot) : C.Session δ dev.currentUser := by
  obtain ⟨last, hmem⟩ := hfires.mem
  exact h.user.resolve_right fun hnone => by simp [hnone.2] at hmem

/-- The objects decoded from the rows of a user. -/
theorem Inv.chatObjects (h : C.Inv s) {u : UserRecord} (hu : C.session δ u)
    {objects : List ChatObject}
    (hobjects : ChatBusiness.chatObjects u.id
      (((s.devices δ).view s.server.tree).subtree ["chatbox", u.id]) = .ok objects) :
    ∀ o ∈ objects, C.ObjectOk δ (facts s.server (s.devices δ)) o := by
  intro o ho
  obtain ⟨key, hkey, hchat⟩ := mem_of_mapM_eq_ok hobjects o ho
  obtain ⟨chat, hof, heq⟩ := bind_eq_ok.mp hchat
  cases heq
  have hne := PathTree.mem_children.mp hkey
  rw [PathTree.subtree_subtree] at hof hne
  obtain ⟨peer, c, ⟨hmem, hsound, δ', hissue⟩, rfl, hdict⟩ :=
    ((h.devices δ).stored_view h.log).chat hne
  obtain rfl : c.toChat = chat := by
    have hread := hof
    simp only [List.cons_append, List.nil_append] at hread
    rw [hdict, ChatRecord.ofSnapshot_dict] at hread
    exact Except.ok.inj hread
  obtain ⟨-, hpeer, x, y, hx, hy, hid⟩ := id hsound
  exact ⟨⟨c, x, y, rfl, hx, hy, hid⟩, ⟨u, peer, hu, rfl, hpeer, rfl⟩,
    C.decode hu hsound hmem hissue⟩

section frame

variable {server : Server} {dev : Device}

/-- A queue grows by writes that rely only on what is known. -/
theorem DeviceInv.queue (h : C.DeviceInv δ server dev) (ws : List Write)
    (hws : Transition.Causal (C.Ok δ) (facts server dev) ws) :
    C.DeviceInv δ server { dev with pending := dev.pending ++ ws } := by
  have hH := facts_subset_queue server dev ws
  exact { h with
    observers := fun o ho => (h.observers o ho).mono hH le_rfl
    chats := fun o ho => (h.chats o ho).mono hH
    pending := Transition.Causal.append_iff.mpr ⟨h.pending, hws⟩ }

theorem DeviceInv.observers_push (h : C.DeviceInv δ server dev) {o : Observer}
    (ho : C.ObserverOk δ (facts server dev) dev.chats.length o) :
    ∀ o' ∈ dev.observers ++ [o], C.ObserverOk δ (facts server dev) dev.chats.length o' :=
  List.forall_mem_append.mpr ⟨h.observers, List.forall_mem_singleton.mpr ho⟩

/-- A home screen appears with no row. -/
theorem DeviceInv.homes_push (h : C.DeviceInv δ server dev) {user : User}
    (huser : C.Session δ user) :
    ∀ vc ∈ dev.homes ++ [⟨user, []⟩], C.HomeOk δ dev.chats.length vc :=
  List.forall_mem_append.mpr ⟨h.homes, List.forall_mem_singleton.mpr ⟨huser, by simp⟩⟩

/-- A chat screen changes in what it shows only. -/
theorem DeviceInv.screens_modify (h : C.DeviceInv δ server dev) {screen : Nat}
    {f : ChatBoxViewController → ChatBoxViewController}
    (huser : ∀ vc, (f vc).currentUser = vc.currentUser)
    (hfriend : ∀ vc, (f vc).friendId = vc.friendId)
    (hentry : ∀ vc, (f vc).currentChatBox = vc.currentChatBox) :
    ∀ vc ∈ dev.screens.modify screen f, C.ScreenOk δ dev.chats.length vc := by
  intro vc hvc
  rcases mem_modify hvc with hvc | ⟨vc', hvc', rfl⟩
  · exact h.screens vc hvc
  · obtain ⟨h₁, h₂, h₃⟩ := h.screens vc' (List.mem_of_getElem? hvc')
    exact ⟨(huser vc').symm ▸ h₁, (hfriend vc').symm ▸ h₂, (hentry vc').symm ▸ h₃⟩

end frame

/-- A process just started promises nothing. -/
theorem launch_inv {server : Server} {accessToken : Option UserId}
    (htoken : ∀ a, accessToken = some a → C.account δ a) (randomId : String) :
    C.DeviceInv δ server (Device.launch accessToken randomId) where
  token := htoken
  requests := by simp [Device.launch]
  user := Or.inr ⟨rfl, rfl⟩
  observers := by simp [Device.launch]
  chats := by simp [Device.launch]
  homes := by simp [Device.launch]
  screens := by simp [Device.launch]
  pending := Transition.Causal.nil

/-- A successful send is a send between clean ids, from a record. -/
theorem Inv.sendTapped (h : C.Inv s) {screen : Nat} {text randomStr : String} {timestamp : Int64}
    {vc : ChatBoxViewController} {user : User} {friendId : UserId} {entry : ChatRef}
    {object : ChatObject} {writes : List Write} {chatBox : Chat}
    (hrandom : isRandomString 20 randomStr) (hvc : (s.devices δ).screens[screen]? = some vc)
    (huser : vc.currentUser = some user) (hfriend : vc.friendId = some friendId)
    (hentry : vc.currentChatBox = some entry) (hobject : (s.devices δ).chats[entry]? = some object)
    (hsend : ChatBoxViewController.sendWrites user friendId object.chat text randomStr timestamp =
      .ok (writes, chatBox)) :
    ∃ u c, C.session δ u ∧ CleanId friendId ∧ Sending (s.devices δ) screen u friendId object c ∧
      C.ObjectOk δ (facts s.server (s.devices δ)) object ∧
      writes = (sendRecords u friendId c text randomStr timestamp).map Record.write ∧
      chatBox = (yourChat u friendId text timestamp).toChat := by
  have hdev := h.devices δ
  obtain ⟨⟨user', huser', u, hu, hmatch⟩, ⟨friendId', hfriend', hclean⟩, -⟩ :=
    hdev.screens vc (List.mem_of_getElem? hvc)
  cases huser.symm.trans huser'
  cases hfriend.symm.trans hfriend'
  have hobjectOk := hdev.chats object (List.mem_of_getElem? hobject)
  obtain ⟨c, x, y, hc, -⟩ := hobjectOk.chat
  rw [hc] at hsend
  obtain ⟨hwrites, hchatBox⟩ := sendWrites_inv hmatch (C.session_clean hu) hclean
    (clean_of_isRandomString hrandom).2 hsend
  exact ⟨u, c, hu, hclean, ⟨⟨vc, user, entry, hvc, huser, hmatch, hfriend, hentry, hobject⟩, hc⟩,
    hobjectOk, hwrites, hchatBox⟩

/-- The four writes of a send rely only on what is known and on each other. -/
theorem send_causal {screen : Nat} {text randomStr : String} {timestamp : Int64}
    {u : UserRecord} {friendId : UserId} {o : ChatObject} {c : ChatRecord}
    (hguard : C.guard s (.act δ (.sendTapped screen text randomStr timestamp)))
    (hu : C.session δ u) (hfriend : CleanId friendId)
    (hsending : Sending (s.devices δ) screen u friendId o c)
    (ho : C.ObjectOk δ (facts s.server (s.devices δ)) o) :
    Transition.Causal (C.Ok δ) (facts s.server (s.devices δ))
      ((sendRecords u friendId c text randomStr timestamp).map Record.write) := by
  have hclean := C.session_clean hu
  obtain ⟨c', x, y, hc', hx, hy, hxy⟩ := ho.chat
  obtain rfl : c = c' := by
    have hchat := hsending.chat.symm.trans hc'
    have hdict : (c.toChat).toDictionary = (c'.toChat).toDictionary := by rw [hchat]
    exact ChatRecord.dict_injective (Except.ok.inj hdict)
  have hsend := fun {H : Set Write} (hH : facts s.server (s.devices δ) ⊆ H) =>
    C.send hguard hsending hu hfriend hH (C.object_mono hH ho.promise)
  have hinsert : ∀ {w : Write} {H : Set Write}, facts s.server (s.devices δ) ⊆ H →
      facts s.server (s.devices δ) ⊆ insert w H := fun hH => hH.trans (Set.subset_insert _ _)
  have h₀ : facts s.server (s.devices δ) ⊆ facts s.server (s.devices δ) := subset_rfl
  refine ⟨⟨_, rfl, ?_, (hsend h₀).1⟩, ⟨_, rfl, ?_, (hsend (hinsert h₀)).2.1 (by simp)⟩,
    ⟨_, rfl, ?_, (hsend (hinsert (hinsert h₀))).2.2.1 (by simp)⟩,
    ⟨_, rfl, ?_, (hsend (hinsert (hinsert (hinsert h₀)))).2.2.2.1 (by simp)⟩, trivial⟩
  · exact ⟨hclean, hfriend, Or.inl ⟨rfl, rfl⟩⟩
  · exact ⟨hfriend, hclean, Or.inr ⟨rfl, rfl⟩⟩
  · exact ⟨hclean, hfriend, x, y, hx, hy, hxy⟩
  · exact ⟨hfriend, hclean, friendId, u.id, hfriend, hclean, rfl⟩

/-- The friend found under `users/<id>`. -/
theorem Inv.lookup (h : C.Inv s) {id : UserId} {snapshot : Snapshot}
    (hsnapshot : snapshot = ((s.devices δ).view s.server.tree).subtree ["users", id])
    (hdict : snapshot.dictionary? = some snapshot) :
    ∃ f, C.Known (facts s.server (s.devices δ)) (.user f) ∧ f.id = id ∧
      f.Matches ⟨some id, snapshot.string? "name", snapshot.string? "state",
        snapshot.string? "avatarUrl", snapshot.stringArray? "friendList"⟩ := by
  have hne : ((s.devices δ).view s.server.tree).subtree ["users", id] ≠ ∅ := by
    rw [← hsnapshot]
    intro hempty
    rw [hempty] at hdict
    simp at hdict
  obtain ⟨f, hf, rfl, hd⟩ := ((h.devices δ).stored_view h.log).user hne
  obtain rfl : snapshot = f.dict := hsnapshot.trans hd
  exact ⟨f, hf, rfl, f.matches_dict _⟩

/-- **Step**, when a chat list arrives. -/
theorem Inv.outcome_chatList (h : C.Inv s) {i : Nat} {ref : Path} {owner : UserId}
    {chatList list : List ChatRef} {snapshot : Snapshot} {objects : List ChatObject}
    (hfires : (s.devices δ).Fires s.server.tree i ref (.chatList owner chatList) snapshot)
    (hobjects : ChatBusiness.chatObjects owner snapshot = .ok objects)
    (hlist : list = chatList ++ List.range' (s.devices δ).chats.length objects.length) :
    C.DeviceInv δ s.server
      { s.devices δ with
        chats := (s.devices δ).chats ++ objects
        observers := ((s.devices δ).observersDelivered i (.chatList owner list) snapshot).filter
          (·.ref ≠ rootRef)
        homes := (s.devices δ).handed list } := by
  have hdev := h.devices δ
  obtain ⟨u, hu, rfl, rfl, hentries⟩ := hdev.fires hfires none
  obtain rfl := hfires.snapshot_eq
  have hn : (s.devices δ).chats.length ≤ ((s.devices δ).chats ++ objects).length := by simp
  have hlist' : ∀ r ∈ list, r < ((s.devices δ).chats ++ objects).length := by
    intro r hr
    rw [hlist] at hr
    rcases List.mem_append.mp hr with hr | hr
    · exact (hentries r hr).trans_le hn
    · rw [List.length_append]
      have := (List.mem_range'_1.mp hr).2
      omega
  have hok : C.ObserverOk δ (facts s.server (s.devices δ))
      ((s.devices δ).chats ++ objects).length ⟨["chatbox", u.id], .chatList u.id list,
        some (((s.devices δ).view s.server.tree).subtree ["chatbox", u.id])⟩ :=
    ⟨u, hu, rfl, rfl, hlist'⟩
  refine { hdev with
    user := Or.inl (hdev.session_of_fires hfires)
    observers := ?_
    chats := ?_
    homes := ?_
    screens := fun vc hvc => (hdev.screens vc hvc).mono hn }
  · intro o ho
    exact hdev.delivered subset_rfl hn hfires hok o (List.mem_of_mem_filter ho)
  · intro o ho
    rcases List.mem_append.mp ho with ho | ho
    · exact hdev.chats o ho
    · exact h.chatObjects hu hobjects o ho
  · intro vc hvc
    rcases Device.mem_handed hvc with hvc | ⟨vc', hvc', rfl⟩
    · exact (hdev.homes vc hvc).mono hn
    · exact ⟨(hdev.homes vc' hvc').session, hlist'⟩

/-- **Step**, when a looked up user is there. -/
theorem Inv.outcome_lookupFound (h : C.Inv s) {i : Nat} {ref createRef : Path}
    {id userId : UserId} {snapshot : Snapshot} {friend : User}
    (hfires : (s.devices δ).Fires s.server.tree i ref (.lookup id) snapshot)
    (hdict : snapshot.dictionary? = some snapshot)
    (hid : (s.devices δ).currentUser.id = some userId)
    (hfriend : friend = ⟨some id, snapshot.string? "name", snapshot.string? "state",
      snapshot.string? "avatarUrl", snapshot.stringArray? "friendList"⟩)
    (href : (child ["chatbox"] userId).bind (child · (chatKey userId id)) = .ok createRef) :
    C.DeviceInv δ s.server
      { s.devices δ with
        observers := (s.devices δ).observersDelivered i (.lookup id) snapshot ++
          [⟨createRef, .create friend (s.devices δ).currentUser, none⟩] } := by
  have hdev := h.devices δ
  obtain ⟨hclean, rfl⟩ := hdev.fires hfires none
  obtain ⟨u, hu, hmatch⟩ := hdev.session_of_fires hfires
  obtain rfl := hmatch.id_eq hid
  obtain rfl := chatRef_eq (C.session_clean hu) hclean href
  obtain ⟨f, hf, rfl, hmatch'⟩ := h.lookup hfires.snapshot_eq hdict
  rw [← hfriend] at hmatch'
  refine { hdev with user := Or.inl ⟨u, hu, hmatch⟩, observers := ?_ }
  intro o ho
  rcases List.mem_append.mp ho with ho | ho
  · exact hdev.delivered subset_rfl le_rfl hfires (hdev.fires hfires _) o ho
  · rw [List.mem_singleton.mp ho]
    exact ⟨u, f, hu, hmatch, hmatch', hclean, hf, rfl⟩

/-- **Step**, when there is no row yet. -/
theorem Inv.outcome_create (h : C.Inv s) {i : Nat} {timestamp : Int64} {ref createRef : Path}
    {friend user : User} {id friendId name avatarUrl : String} {snapshot : Snapshot}
    {dialogs : List (String × String)}
    (hfires : (s.devices δ).Fires s.server.tree i ref (.create friend user) snapshot)
    (hid : user.id = some id) (hfriend : friend.id = some friendId)
    (hname : friend.name = some name) (hurl : friend.avatarUrl = some avatarUrl)
    (href : (child ["chatbox"] id).bind (child · (chatKey id friendId)) = .ok createRef) :
    C.DeviceInv δ s.server
      { s.devices δ with
        observers := ((s.devices δ).observersDelivered i (.create friend user) snapshot).filter
          (·.ref ≠ rootRef)
        dialogs := dialogs
        pending := (s.devices δ).pending ++
          [⟨createRef, (newChat id friendId name avatarUrl timestamp).dict⟩] } := by
  have hdev := h.devices δ
  obtain ⟨u, f, hu, hmatch, hmatch', hclean, ⟨hmem, -, δ', hissue⟩, -⟩ := hdev.fires hfires none
  have hu' := C.session_clean hu
  rw [create_inv timestamp hu' hclean hmatch hmatch' hid hfriend hname hurl href]
  have hqueue := hdev.queue
    [(Record.chat u.id f.id (newChat u.id f.id f.name f.avatarUrl timestamp)).write]
    ⟨⟨_, rfl, ⟨hu', hclean, u.id, f.id, hu', hclean, rfl⟩, C.create hu hclean hmem hissue⟩,
      trivial⟩
  have hH := facts_subset_queue s.server (s.devices δ)
    [(Record.chat u.id f.id (newChat u.id f.id f.name f.avatarUrl timestamp)).write]
  refine { hqueue with user := Or.inl (hdev.session_of_fires hfires), observers := ?_ }
  intro o ho
  exact hdev.delivered hH le_rfl hfires ((hdev.fires hfires _).mono hH le_rfl) o
    (List.mem_of_mem_filter ho)

/-- **Step**, when an observer fires. -/
theorem Inv.outcome_fire (h : C.Inv s) {i : Nat} {timestamp : Int64} {dev' : Device}
    (hout : (s.devices δ).Outcome s.server.tree (.fire i timestamp) dev') :
    C.DeviceInv δ s.server dev' := by
  have hdev := h.devices δ
  cases hout with
  | @loginKnown _ _ ref user known userDictionary snapshot hfires hdict hknown =>
      obtain ⟨u, hu, hmatch, hd, href⟩ := hdev.fires hfires none
      have hknown' : u.Matches known := by
        rw [hknown]
        exact ⟨hmatch.id, hmatch.name, hmatch.state, hmatch.avatarUrl⟩
      have hok : C.ObserverOk δ (facts s.server (s.devices δ)) (s.devices δ).chats.length
          ⟨ref, .login known userDictionary, some snapshot⟩ := ⟨u, hu, hknown', hd, href⟩
      refine { hdev with
        user := Or.inl ⟨u, hu, hknown'⟩
        observers := ?_
        homes := hdev.homes_push ⟨u, hu, hknown'⟩ }
      intro o ho
      exact hdev.delivered subset_rfl le_rfl hfires hok o (List.mem_of_mem_filter ho)
  | @loginNew _ _ ref userRef user id userDictionary snapshot hfires hdict hid href =>
      obtain ⟨u, hu, hmatch, rfl, -⟩ := hdev.fires hfires none
      obtain rfl := hmatch.id_eq hid
      obtain ⟨-, rfl⟩ := (child_eq_ok (C.session_clean hu).2).mp href
      have hqueue := hdev.queue [(Record.user u).write]
        ⟨⟨.user u, rfl, C.session_clean hu, C.register hu⟩, trivial⟩
      have hH := facts_subset_queue s.server (s.devices δ) [(Record.user u).write]
      have hsession := hdev.session_of_fires hfires
      refine { hqueue with
        user := Or.inl hsession
        observers := ?_
        homes := hqueue.homes_push hsession }
      intro o ho
      exact hdev.delivered hH le_rfl hfires ((hdev.fires hfires _).mono hH le_rfl) o
        (List.mem_of_mem_filter ho)
  | chatList hfires hobjects hlist => exact h.outcome_chatList hfires hobjects hlist
  | lookupFound hfires hdict hid hfriend href =>
      exact h.outcome_lookupFound hfires hdict hid hfriend href
  | @lookupMissing _ _ ref id snapshot hfires hdict =>
      refine { hdev with
        user := Or.inl (hdev.session_of_fires hfires)
        observers := hdev.delivered subset_rfl le_rfl hfires (hdev.fires hfires _) }
  | createExists hfires hdict =>
      refine { hdev with user := Or.inl (hdev.session_of_fires hfires), observers := ?_ }
      intro o ho
      exact hdev.delivered subset_rfl le_rfl hfires (hdev.fires hfires _) o (List.mem_of_mem_filter ho)
  | create hfires _ hid hfriend hname hurl href =>
      exact h.outcome_create hfires hid hfriend hname hurl href
  | friend hfires hname hurl =>
      exact { hdev with
        user := Or.inl (hdev.session_of_fires hfires)
        observers := hdev.delivered subset_rfl le_rfl hfires (hdev.fires hfires _)
        screens := hdev.screens_modify (fun _ => rfl) (fun _ => rfl) (fun _ => rfl) }
  | message hfires hmessages =>
      obtain ⟨x, y, hx, hy, href⟩ := hdev.fires hfires none
      exact { hdev with
        user := Or.inl (hdev.session_of_fires hfires)
        observers := hdev.delivered subset_rfl le_rfl hfires ⟨x, y, hx, hy, href⟩
        screens := hdev.screens_modify (fun _ => rfl) (fun _ => rfl) (fun _ => rfl) }

/-- **Step**, when a row is tapped. -/
theorem Inv.outcome_rowTapped (h : C.Inv s) {home i : Nat} {dev' : Device}
    (hout : (s.devices δ).Outcome s.server.tree (.rowTapped home i) dev') :
    C.DeviceInv δ s.server dev' := by
  have hdev := h.devices δ
  cases hout with
  | @rowTapped home i vc entry object chatId friendId friendRef ref hvc hentry hobject hchatId hfriend
      hfriendRef href =>
      have hmem := List.mem_of_getElem? hvc
      have hok := hdev.chats object (List.mem_of_getElem? hobject)
      obtain ⟨x, hx, hy, rfl⟩ := hok.tapped hchatId hfriend
      obtain ⟨-, rfl⟩ := (child_eq_ok hy.2).mp hfriendRef
      obtain ⟨-, rfl⟩ := (child_eq_ok (slash_not_mem_chatKey hx hy)).mp href
      have hsession := hdev.session_of_home hmem
      refine { hdev with user := Or.inl hsession, observers := ?_, screens := ?_ }
      · intro o ho
        rcases List.mem_append.mp ho with ho | ho
        · exact hdev.observers o ho
        · rcases List.mem_pair.mp ho with rfl | rfl
          · exact ⟨friendId, hy, C.tap hok.promise hx hy hchatId, rfl⟩
          · exact ⟨x, friendId, hx, hy, rfl⟩
      · intro v hv
        rcases List.mem_append.mp hv with hv | hv
        · exact hdev.screens v hv
        · rw [List.mem_singleton.mp hv]
          exact ⟨⟨_, rfl, hsession⟩, ⟨friendId, rfl, hy⟩, ⟨entry, rfl,
            (hdev.homes vc hmem).entries entry (List.mem_of_getElem? hentry)⟩⟩

/-- **Step**, when a message is sent. -/
theorem Inv.outcome_sendTapped (h : C.Inv s) {screen : Nat} {text randomStr : String}
    {timestamp : Int64} {dev' : Device}
    (hguard : C.guard s (.act δ (.sendTapped screen text randomStr timestamp)))
    (hout : (s.devices δ).Outcome s.server.tree (.sendTapped screen text randomStr timestamp) dev') :
    C.DeviceInv δ s.server dev' := by
  have hdev := h.devices δ
  cases hout with
  | @sendTapped _ _ _ _ vc user friendId entry object writes chatBox hrandom hvc huser hfriend hentry
      hobject hsend =>
      obtain ⟨u, c, hu, hclean, hsending, ho, rfl, rfl⟩ :=
        h.sendTapped hrandom hvc huser hfriend hentry hobject hsend
      have hqueue := hdev.queue _ (send_causal hguard hu hclean hsending ho)
      have hH := facts_subset_queue s.server (s.devices δ)
        ((sendRecords u friendId c text randomStr timestamp).map Record.write)
      refine { hqueue with
        observers := fun o ho => (hqueue.observers o ho).mono subset_rfl (List.length_set).ge
        chats := ?_
        homes := fun vc hvc => (hqueue.homes vc hvc).mono (List.length_set).ge
        screens := fun vc hvc => (hqueue.screens vc hvc).mono (List.length_set).ge }
      intro o' ho'
      rcases List.mem_or_eq_of_mem_set ho' with ho' | rfl
      · exact hqueue.chats o' ho'
      · obtain ⟨-, -, -, -, hpromise⟩ :=
          C.send hguard hsending hu hclean hH (C.object_mono hH ho.promise)
        exact ⟨⟨_, friendId, u.id, rfl, hclean, C.session_clean hu, rfl⟩, ho.place, hpromise⟩

/-- **Step.** Whatever an allowed action does to a process, promises are kept. -/
theorem Inv.outcome (h : C.Inv s) {action : Action} {dev' : Device}
    (hguard : C.guard s (.act δ action))
    (hout : (s.devices δ).Outcome s.server.tree action dev') : C.DeviceInv δ s.server dev' := by
  have hdev := h.devices δ
  cases action with
  | logIn =>
      cases hout with
      | logIn account =>
          refine { hdev with token := ?_ }
          intro a ha
          cases ha
          exact C.logIn hguard
  | logOut =>
      cases hout with
      | logOut => exact { hdev with token := fun a ha => by cases ha }
  | fetchFacebookData =>
      cases hout with
      | fetchFacebookData =>
          refine { hdev with requests := ?_ }
          intro request hrequest a ha
          rcases List.mem_append.mp hrequest with hrequest | hrequest
          · exact hdev.requests request hrequest a ha
          · rw [List.mem_singleton.mp hrequest] at ha
            exact hdev.token a ha
  | reply =>
      cases hout with
      | replyError hrequest =>
          exact { hdev with requests := fun r hr => hdev.requests r (List.mem_of_mem_eraseIdx hr) }
      | @reply i request result u ref hrequest htoken hname hurl hstate href =>
          have hu : C.session δ u := C.reply hguard hrequest
            (hdev.requests _ (List.mem_of_getElem? hrequest)) (hdev.token _ htoken) hname hurl
          obtain ⟨-, rfl⟩ := (child_eq_ok (C.session_clean hu).2).mp href
          exact { hdev with
            requests := fun r hr => hdev.requests r (List.mem_of_mem_eraseIdx hr)
            user := Or.inl ⟨u, hu, u.matches_toUser⟩
            observers := hdev.observers_push ⟨u, hu, u.matches_toUser, rfl, rfl⟩ }
  | homeWillAppear =>
      cases hout with
      | @homeWillAppear home vc id ref hvc hid href =>
          have hmem := List.mem_of_getElem? hvc
          obtain ⟨u, hu, hmatch⟩ := (hdev.homes vc hmem).session
          obtain rfl := hmatch.id_eq hid
          obtain ⟨-, rfl⟩ := (child_eq_ok (C.session_clean hu).2).mp href
          exact { hdev with
            user := Or.inl (hdev.session_of_home hmem)
            observers := hdev.observers_push ⟨u, hu, rfl, rfl, by simp⟩ }
  | rowTapped => exact h.outcome_rowTapped hout
  | addFriend =>
      cases hout with
      | @addFriend id ref hhomes href =>
          have hid := C.addFriend hguard
          obtain ⟨-, rfl⟩ := (child_eq_ok hid.2).mp href
          exact { hdev with
            user := Or.inl (hdev.user.resolve_right fun h => hhomes h.1)
            observers := hdev.observers_push ⟨hid, rfl⟩ }
  | sendTapped => exact h.outcome_sendTapped hguard hout
  | fire => exact h.outcome_fire hout
  | relaunch =>
      cases hout with
      | relaunch hrandom => exact launch_inv hdev.token _

end step

/-! ### Runs -/

/-- The oldest queued write of a device is applied. -/
theorem Inv.flush {C : Contract ι} {s : System ι} (h : C.Inv s) {δ : ι} {w : Write}
    {ws : List Write} (hpending : (s.devices δ).pending = w :: ws) :
    C.Inv { server := s.server.apply w
            devices := Function.update s.devices δ { s.devices δ with pending := ws } } := by
  have hdev := h.devices δ
  have hcausal := hdev.pending
  rw [hpending] at hcausal
  have hserver : applied (s.server.apply w) = insert w (applied s.server) := by
    ext v
    simp [applied, or_comm]
  have hsub : applied s.server ⊆ applied (s.server.apply w) := by
    rw [hserver]
    exact Set.subset_insert _ _
  have hfacts : facts s.server (s.devices δ) =
      facts (s.server.apply w) { s.devices δ with pending := ws } := by
    ext v
    simp [facts, hpending, or_assoc]
  have hδ : C.DeviceInv δ (s.server.apply w) { s.devices δ with pending := ws } := { hdev with
    observers := fun o ho => hfacts ▸ hdev.observers o ho
    chats := fun o ho => hfacts ▸ hdev.chats o ho
    pending := hserver ▸ hcausal.tail }
  refine ⟨?_, (Function.forall_update_iff s.devices fun δ' => C.DeviceInv δ' (s.server.apply w)).mpr
    ⟨hδ, fun δ' _ => (h.devices δ').mono hsub⟩⟩
  intro v hv
  rcases List.mem_append.mp hv with hv | hv
  · obtain ⟨δ', hok⟩ := h.log v hv
    exact ⟨δ', hok.mono hsub⟩
  · rw [List.mem_singleton.mp hv]
    exact ⟨δ, hcausal.head.mono hsub⟩

/-- **Invariant.** On every run the contract allows, every promise is kept. -/
theorem inv {C : Contract ι} {s : System ι} (h : System.Reachable C.guard s) : C.Inv s := by
  refine h.invariant ?_ ?_
  · rintro s ⟨hserver, hdevices⟩
    refine ⟨by simp [hserver, Server.empty], fun δ => ?_⟩
    obtain ⟨randomId, -, hdev⟩ := hdevices δ
    rw [hdev]
    exact launch_inv (fun _ h => by cases h) randomId
  · intro s e s' _ hinv hguard hstep
    cases e with
    | act δ action =>
        obtain ⟨dev, hact, rfl⟩ := System.step_act_eq_ok.mp hstep
        have hδ : C.DeviceInv δ s.server dev := hinv.outcome hguard (Device.act_inv hact)
        exact ⟨hinv.log, (Function.forall_update_iff s.devices fun δ' => C.DeviceInv δ' s.server).mpr
          ⟨hδ, fun δ' _ => hinv.devices δ'⟩⟩
    | flush δ =>
        obtain ⟨w, ws, hpending, rfl⟩ := System.step_flush_eq_ok.mp hstep
        exact hinv.flush hpending

end Contract

end MyChat
