import MyChat.Issued

/-!
# MyChat.Routing

Where the messages of a chat session go. A session is opened by a tap, which takes the
friend from the `chatId` of the tapped object and keeps him for good; so what decides
is whether the object still has the key it was fetched under (`KeptEntry`).
`sessions_routed` says that this is exact: in a run every session is routed in every
state if and only if every tap finds such an object. `sessions_misrouted` is the run
that sends twice, goes back, and opens the chat again.
-/

namespace MyChat

variable {ι : Type} [DecidableEq ι]

/-! ### What a session is -/

/-- The screen and the location of a message observer. -/
def Observer.messageRef (o : Observer) : Option (Nat × Path) :=
  match o.callback with
  | .message screen _ => some (screen, o.ref)
  | _ => none

namespace Device

/-- The locations observed for incoming messages, each with its screen. -/
def messageRefs (dev : Device) : List (Nat × Path) := dev.observers.filterMap Observer.messageRef

/-- Friend and `Chat` object of each chat screen. -/
def sessions (dev : Device) : List (Option UserId × Option ChatRef) :=
  dev.screens.map fun vc => (vc.friendId, vc.currentChatBox)

end Device

/-- The message writes among `ws`. -/
def messageWrites (ws : List Write) : List Write :=
  ws.filter fun w => w.path.head? = some "messages"

/-- The session on screen `screen` of `δ` is one of `u` with `f`: whatever is sent in it
now is a message from `u` to `f`, stored under its id in the two copies of that
conversation and nowhere else, and `u`'s copy is what the session observes. -/
structure SessionRouted (s : System ι) (δ : ι) (screen : Nat) (u f : UserId) : Prop where
  send : ∀ text randomStr timestamp s',
    s.step (.act δ (.sendTapped screen text randomStr timestamp)) = .ok s' →
    ∃ (m : MessageRecord) (ws : List Write),
      m.id = randomStr ∧ m.fromId = u ∧ m.toId = f ∧ m.message = text ∧ m.ts = timestamp ∧
      (s'.devices δ).pending = (s.devices δ).pending ++ ws ∧
      messageWrites ws = [⟨["messages", chatKey u f, randomStr], m.dict⟩,
        ⟨["messages", chatKey f u, randomStr], m.dict⟩]
  observe : ∀ ref, (screen, ref) ∈ (s.devices δ).messageRefs ↔ ref = ["messages", chatKey u f]

/-- Every session opened from the entry fetched from `chatbox/u/u_f` is one of `u` with `f`. -/
def Routed (s : System ι) : Prop :=
  ∀ δ screen vc entry o u f, (s.devices δ).screens[screen]? = some vc →
    vc.currentChatBox = some entry → (s.devices δ).chats[entry]? = some o → o.owner = u →
    o.key = chatKey u f → SessionRouted s δ screen u f

/-- Clean ids, one account per device. -/
def AccountRun (account : ι → UserId) (_ : System ι) (e : Event ι) : Prop :=
  CleanIds e ∧ LogsIn (fun δ a => a = account δ) e

/-- A tap finds an object whose `chatId` is the key it was fetched under. -/
def KeptEntry (s : System ι) (e : Event ι) : Prop :=
  match e with
  | .act δ (.rowTapped home i) =>
      ∀ vc entry o, (s.devices δ).homes[home]? = some vc → vc.chatList[i]? = some entry →
        (s.devices δ).chats[entry]? = some o → o.chat.chatId = some o.key
  | _ => True

/-! ### What an action does to the sessions -/

section outcome

theorem filterMap_modify {α β : Type} {g : α → Option β} {f : α → α} {l : List α} {i : Nat}
    (h : ∀ a, l[i]? = some a → g (f a) = g a) : (l.modify i f).filterMap g = l.filterMap g := by
  induction l generalizing i with
  | nil => simp
  | cons a l ih =>
      cases i with
      | zero =>
          have ha := h a rfl
          simp [List.filterMap_cons, ha]
      | succ i =>
          have hl := ih fun b hb => h b (by simpa using hb)
          simp [List.filterMap_cons, hl]

theorem map_modify_of_eq {α β : Type} {g : α → β} {f : α → α} {l : List α} {i : Nat}
    (h : ∀ a, g (f a) = g a) : (l.modify i f).map g = l.map g := by
  rw [← List.filterMap_eq_map, filterMap_modify fun a _ => by simp [h]]

theorem filterMap_filter_of_none {α β : Type} {g : α → Option β} {p : α → Bool} {l : List α}
    (h : ∀ a ∈ l, p a = false → g a = none) : (l.filter p).filterMap g = l.filterMap g := by
  rw [List.filterMap_filter]
  refine List.filterMap_congr fun a ha => ?_
  cases hp : p a with
  | false => simp [h a ha hp]
  | true => simp

variable {C : Contract ι} {s : System ι} {δ : ι}

/-- A delivery moves no message observer. -/
theorem messageRefs_delivered {dev : Device} {tree : Snapshot} {i : Nat} {ref : Path}
    {callback callback' : Callback} {snapshot : Snapshot}
    (hfires : dev.Fires tree i ref callback snapshot)
    (hsame : ∀ last, Observer.messageRef ⟨ref, callback', some snapshot⟩ =
      Observer.messageRef ⟨ref, callback, last⟩) :
    (dev.observersDelivered i callback' snapshot).filterMap Observer.messageRef =
      dev.messageRefs := by
  obtain ⟨last, hi, -⟩ := hfires
  refine filterMap_modify fun o ho => ?_
  rw [hi] at ho
  cases ho
  exact hsame last

/-- `removeAllObservers` on the root removes no message observer: none is there. -/
theorem messageRefs_removed {server : Server} {dev : Device} {tree : Snapshot} {i : Nat} {ref : Path}
    {callback callback' : Callback} {snapshot : Snapshot} (h : C.DeviceInv δ server dev)
    (hfires : dev.Fires tree i ref callback snapshot)
    (hnone : ∀ last, Observer.messageRef ⟨ref, callback, last⟩ = none)
    (hnone' : Observer.messageRef ⟨ref, callback', some snapshot⟩ = none) :
    ((dev.observersDelivered i callback' snapshot).filter (·.ref ≠ rootRef)).filterMap
      Observer.messageRef = dev.messageRefs := by
  rw [filterMap_filter_of_none, messageRefs_delivered hfires fun last => by rw [hnone, hnone']]
  intro o ho hroot
  rcases hfires.mem_observersDelivered ho with ho | rfl
  · obtain ⟨ref', callback'', last⟩ := o
    cases callback'' with
    | message screen delivered =>
        obtain ⟨x, y, -, -, href⟩ := h.observers _ ho
        have href' : ref' = ["messages", chatKey x y] := href
        simp [href', rootRef] at hroot
    | _ => rfl
  · exact hnone'

/-- What an action does to the sessions of a process: it ends all of them, or opens one
for the friend parsed from the `chatId` of the tapped object, or leaves them as they
are. Objects stay where they were fetched from. -/
theorem Contract.Inv.sessions (h : C.Inv s) {action : Action} {dev' : Device}
    (hout : (s.devices δ).Outcome s.server.tree action dev') :
    (dev'.sessions = [] ∧ dev'.messageRefs = []) ∨
    (dev'.sessions = (s.devices δ).sessions ∧ dev'.messageRefs = (s.devices δ).messageRefs ∧
      (s.devices δ).places <+: dev'.places) ∨
    ∃ home i vc entry o x y, action = .rowTapped home i ∧ (s.devices δ).homes[home]? = some vc ∧
      vc.chatList[i]? = some entry ∧ (s.devices δ).chats[entry]? = some o ∧ CleanId x ∧ CleanId y ∧
      o.chat.chatId = some (chatKey x y) ∧
      dev'.sessions = (s.devices δ).sessions ++ [(some y, some entry)] ∧
      dev'.messageRefs = (s.devices δ).messageRefs ++
        [((s.devices δ).sessions.length, ["messages", chatKey x y])] ∧
      dev'.places = (s.devices δ).places := by
  have hdev := h.devices δ
  by_cases hrelaunch : ∃ randomId, action = .relaunch randomId
  · obtain ⟨randomId, rfl⟩ := hrelaunch
    cases hout with
    | relaunch => exact Or.inl ⟨rfl, rfl⟩
  have hplaces := hout.places_prefix fun randomId h => hrelaunch ⟨randomId, h⟩
  cases hout with
  | relaunch => exact Or.inl ⟨rfl, rfl⟩
  | @rowTapped home i vc entry object chatId friendId friendRef ref hvc hentry hobject hchatId hfriend
      hfriendRef href =>
      obtain ⟨x, hx, hy, rfl⟩ :=
        (hdev.chats object (List.mem_of_getElem? hobject)).tapped hchatId hfriend
      obtain ⟨-, rfl⟩ := (child_eq_ok (slash_not_mem_chatKey hx hy)).mp href
      refine Or.inr (Or.inr ⟨home, i, vc, entry, object, x, friendId, rfl, hvc, hentry, hobject,
        hx, hy, hchatId, ?_, ?_, rfl⟩)
      · simp [Device.sessions]
      · simp [Device.messageRefs, Device.sessions]
        rfl
  | logIn | logOut | fetchFacebookData | replyError =>
      exact Or.inr (Or.inl ⟨rfl, rfl, List.prefix_refl _⟩)
  | reply | homeWillAppear | addFriend =>
      refine Or.inr (Or.inl ⟨rfl, ?_, List.prefix_refl _⟩)
      simp [Device.messageRefs, Observer.messageRef]
  | sendTapped => exact Or.inr (Or.inl ⟨rfl, rfl, hplaces⟩)
  | loginKnown hfires | loginNew hfires | createExists hfires | create hfires =>
      exact Or.inr (Or.inl ⟨rfl, messageRefs_removed hdev hfires (fun _ => rfl) rfl,
        List.prefix_refl _⟩)
  | chatList hfires =>
      exact Or.inr (Or.inl ⟨rfl, messageRefs_removed hdev hfires (fun _ => rfl) rfl, hplaces⟩)
  | @lookupFound _ _ ref createRef id userId snapshot friend hfires hdict hid hfriend href =>
      refine Or.inr (Or.inl ⟨rfl, ?_, List.prefix_refl _⟩)
      have hrefs := @messageRefs_delivered _ _ _ _ _ (.lookup id) _ hfires fun _ => rfl
      rw [Device.messageRefs, List.filterMap_append, hrefs]
      simp [Observer.messageRef]
  | lookupMissing hfires =>
      exact Or.inr (Or.inl ⟨rfl, messageRefs_delivered hfires fun _ => rfl, List.prefix_refl _⟩)
  | friend hfires =>
      refine Or.inr (Or.inl ⟨?_, messageRefs_delivered hfires fun _ => rfl, List.prefix_refl _⟩)
      exact map_modify_of_eq fun _ => rfl
  | message hfires =>
      refine Or.inr (Or.inl ⟨?_, messageRefs_delivered hfires fun _ => rfl, List.prefix_refl _⟩)
      exact map_modify_of_eq fun _ => rfl

end outcome

/-! ### Runs -/

/-- Every session is with the friend of its row and observes the conversation with him. -/
structure SessionsInv (account : UserId) (dev : Device) : Prop where
  session : ∀ screen friendId entry, dev.sessions[screen]? = some (friendId, entry) →
    ∃ r f, entry = some r ∧ friendId = some f ∧
      dev.places[r]? = some (account, chatKey account f) ∧
      ∀ ref, (screen, ref) ∈ dev.messageRefs ↔ ref = ["messages", chatKey account f]
  bound : ∀ p ∈ dev.messageRefs, p.1 < dev.sessions.length

section runs

variable {account : ι → UserId} {s : System ι}

/-- The place of an object of a device with one account. -/
theorem place_of_object (h : (plain fun δ a => a = account δ).Inv s) {δ : ι} {o : ChatObject}
    (ho : o ∈ (s.devices δ).chats) :
    ∃ peer, o.owner = account δ ∧ CleanId (account δ) ∧ CleanId peer ∧
      o.key = chatKey (account δ) peer := by
  obtain ⟨u, peer, ⟨hclean, hu⟩, howner, hpeer, hkey⟩ := ((h.devices δ).chats o ho).place
  rw [hu] at howner hclean hkey
  exact ⟨peer, howner, hclean, hpeer, hkey⟩

/-- **Step.** A tap that finds the key keeps every session routed; nothing else matters. -/
theorem sessionsInv_outcome (h : (plain fun δ a => a = account δ).Inv s) {δ : ι} {action : Action}
    {dev' : Device} (hsessions : SessionsInv (account δ) (s.devices δ))
    (hkept : KeptEntry s (.act δ action))
    (hout : (s.devices δ).Outcome s.server.tree action dev') : SessionsInv (account δ) dev' := by
  rcases h.sessions hout with ⟨hnil, hrefs⟩ | ⟨hsame, hrefs, t, hplaces⟩ |
    ⟨home, i, vc, entry, o, x, y, rfl, hvc, hentry, ho, hx, hy, hid, hsess, hrefs, hplaces⟩
  · exact ⟨by simp [hnil], by simp [hrefs]⟩
  · refine ⟨fun screen friendId entry hscreen => ?_, fun p hp => ?_⟩
    · rw [hsame] at hscreen
      obtain ⟨r, f, hr, hf, hplace, hobs⟩ := hsessions.session screen friendId entry hscreen
      refine ⟨r, f, hr, hf, ?_, fun ref => by rw [hrefs]; exact hobs ref⟩
      rw [← hplaces, List.getElem?_append_left (List.getElem?_eq_some_iff.mp hplace).1]
      exact hplace
    · rw [hrefs] at hp
      rw [hsame]
      exact hsessions.bound p hp
  · -- the new session is with the peer of the tapped row, because its key was found
    obtain ⟨peer, howner, hclean, -, hkey⟩ := place_of_object h (List.mem_of_getElem? ho)
    have hchatId := hkept vc entry o hvc hentry ho
    rw [hid, hkey] at hchatId
    obtain ⟨rfl, rfl⟩ := chatKey_inj hx.1 hclean.1 (Option.some.inj hchatId)
    have hplace : (s.devices δ).places[entry]? = some (account δ, chatKey (account δ) y) := by
      simp [Device.places, ho, howner, hkey]
    refine ⟨fun screen friendId entry' hscreen => ?_, fun p hp => ?_⟩
    · rw [hsess] at hscreen
      rw [hplaces, hrefs]
      by_cases hlt : screen < (s.devices δ).sessions.length
      · rw [List.getElem?_append_left hlt] at hscreen
        obtain ⟨r, f, hr, hf, hplace', hobs⟩ := hsessions.session screen friendId entry' hscreen
        refine ⟨r, f, hr, hf, hplace', fun ref => ?_⟩
        rw [List.mem_append, hobs ref]
        simp [hlt.ne]
      · obtain ⟨rfl, hpair⟩ : screen = (s.devices δ).sessions.length ∧
            (some y, some entry) = (friendId, entry') := by
          have hle := Nat.not_lt.mp hlt
          rw [List.getElem?_append_right hle, List.getElem?_singleton] at hscreen
          split at hscreen
          · next hzero => exact ⟨by omega, Option.some.inj hscreen⟩
          · cases hscreen
        cases hpair
        refine ⟨entry, y, rfl, rfl, hplace, fun ref => ?_⟩
        have hnew : ((s.devices δ).sessions.length, ref) ∉ (s.devices δ).messageRefs :=
          fun hmem => absurd (hsessions.bound _ hmem) (by simp)
        simp [hnew]
    · rw [hrefs] at hp
      rw [hsess, List.length_append]
      rcases List.mem_append.mp hp with hp | hp
      · exact (hsessions.bound p hp).trans_le (by simp)
      · rw [List.mem_singleton.mp hp]
        simp

/-- **Invariant.** Taps that find the key make sessions that stay routed. -/
theorem sessionsInv (h : System.Reachable (fun s e => AccountRun account s e ∧ KeptEntry s e) s)
    (δ : ι) : SessionsInv (account δ) (s.devices δ) := by
  refine System.device_invariant (P := fun δ dev => SessionsInv (account δ) dev) ?_ ?_ ?_ h δ
  · intro δ randomId
    exact ⟨by simp [Device.launch, Device.sessions], by simp [Device.launch, Device.messageRefs]⟩
  · intro δ dev ws hsessions
    exact ⟨hsessions.session, hsessions.bound⟩
  · intro s δ action dev' hr hsessions hguard hact
    have hinv : (plain fun δ a => a = account δ).Inv s :=
      Contract.inv (hr.mono fun _ _ hg => hg.1)
    exact sessionsInv_outcome hinv hsessions hguard.2 (Device.act_inv hact)

/-- What a send in a session does, whoever the friend is. -/
theorem session_send (h : (plain fun δ a => a = account δ).Inv s) {δ : ι} {screen : Nat}
    {text randomStr : String} {timestamp : Int64} {s' : System ι} {f : UserId}
    {entry : Option ChatRef} (hsession : (s.devices δ).sessions[screen]? = some (some f, entry))
    (hstep : s.step (.act δ (.sendTapped screen text randomStr timestamp)) = .ok s') :
    ∃ (m : MessageRecord) (ws : List Write),
      m.id = randomStr ∧ m.fromId = account δ ∧ m.toId = f ∧ m.message = text ∧ m.ts = timestamp ∧
      (s'.devices δ).pending = (s.devices δ).pending ++ ws ∧
      messageWrites ws = [⟨["messages", chatKey (account δ) f, randomStr], m.dict⟩,
        ⟨["messages", chatKey f (account δ), randomStr], m.dict⟩] := by
  obtain ⟨dev, hact, rfl⟩ := System.step_act_eq_ok.mp hstep
  have hout := Device.act_inv hact
  simp only [Function.update_self]
  cases hout with
  | sendTapped hrandom hvc huser hfriend hentry hobject hsend =>
      obtain ⟨u, c, ⟨-, hu⟩, -, -, -, rfl, -⟩ :=
        h.sendTapped hrandom hvc huser hfriend hentry hobject hsend
      simp only [Device.sessions, List.getElem?_map, hvc, Option.map_some, Option.some.injEq,
        Prod.mk.injEq, hfriend] at hsession
      obtain ⟨rfl, -⟩ := hsession
      refine ⟨sentMessage u _ text randomStr timestamp, _, rfl, hu, rfl, rfl, rfl, rfl, ?_⟩
      simp [messageWrites, sendRecords, Record.write, Record.path, Record.dict, sentMessage, hu]

/-- **Message routing.** On runs whose taps find the key, every session is routed. -/
theorem routed (h : System.Reachable (fun s e => AccountRun account s e ∧ KeptEntry s e) s) :
    Routed s := by
  intro δ screen vc entry o u f hvc hentry ho howner hkey
  have hinv : (plain fun δ a => a = account δ).Inv s :=
    Contract.inv (h.mono fun _ _ hg => hg.1)
  have hsession : (s.devices δ).sessions[screen]? = some (vc.friendId, some entry) := by
    simp [Device.sessions, hvc, hentry]
  obtain ⟨r, f', hr, hf, hplace, hobs⟩ := (sessionsInv h δ).session screen _ _ hsession
  cases hr
  simp only [Device.places, List.getElem?_map, ho, Option.map_some, Option.some.injEq,
    Prod.mk.injEq] at hplace
  obtain rfl : account δ = u := hplace.1.symm.trans howner
  obtain rfl : f = f' := chatKey_right_inj (hkey.symm.trans hplace.2)
  rw [hf] at hsession
  exact ⟨fun _ _ _ _ hstep => session_send hinv hsession hstep, hobs⟩

/-- A tap that does not find the key opens a session that observes the wrong location. -/
theorem not_routed_of_tap {e : Event ι} {s' : System ι}
    (h : System.Reachable (AccountRun account) s) (hstep : s.step e = .ok s')
    (hkept : ¬ KeptEntry s e) : ¬ Routed s' := by
  intro hrouted
  have hinv : (plain fun δ a => a = account δ).Inv s := Contract.inv h
  unfold KeptEntry at hkept
  split at hkept
  · next δ home i =>
    push Not at hkept
    obtain ⟨vc, entry, o, hvc, hentry, ho, hid⟩ := hkept
    obtain ⟨dev, hact, rfl⟩ := System.step_act_eq_ok.mp hstep
    obtain ⟨peer, howner, -, -, hkey⟩ := place_of_object hinv (List.mem_of_getElem? ho)
    have hout := Device.act_inv hact
    cases hout with
    | @rowTapped _ _ vc' entry' o' chatId friendId friendRef ref hvc' hentry' ho' hchatId hfriend
        hfriendRef href =>
        cases hvc.symm.trans hvc'
        cases hentry.symm.trans hentry'
        cases ho.symm.trans ho'
        obtain ⟨⟨c, x, y, hc, hx, hy, hxy⟩, -, -⟩ :=
          (hinv.devices δ).chats o (List.mem_of_getElem? ho)
        obtain rfl : chatKey x y = chatId := by
          rw [hc] at hchatId
          rw [← hxy]
          exact Option.some.inj hchatId
        obtain ⟨-, rfl⟩ := (child_eq_ok (slash_not_mem_chatKey hx hy)).mp href
        have hsession := hrouted δ (s.devices δ).screens.length
          ⟨some friendId, some (s.devices δ).currentUser, some entry, [], none⟩ entry o (account δ) peer
          (by simp) rfl (by simpa using ho) howner hkey
        have hmem := (hsession.observe ["messages", chatKey x y]).mp (by
          simp [Device.messageRefs, Observer.messageRef])
        refine hid ?_
        rw [hchatId, hkey]
        simpa using hmem
  · exact hkept trivial

/-- **Exactly when.** A run keeps every session routed if and only if every tap finds an
object that still has the key it was fetched under. -/
theorem sessions_routed {tr : List (System ι × Event ι × System ι)}
    (h : System.Run (AccountRun account) tr s) :
    (∀ x ∈ tr, Routed x.2.2) ↔ ∀ x ∈ tr, KeptEntry x.1 x.2.1 := by
  constructor
  · intro hrouted x hx
    obtain ⟨⟨tr', -, hx'⟩, -, hstep⟩ := h.mem hx
    by_contra hkept
    exact not_routed_of_tap hx'.reachable hstep hkept (hrouted x hx)
  · intro hkept x hx
    obtain ⟨⟨tr', hpre, hx'⟩, hguard, hstep⟩ := h.mem hx
    have hr := hx'.reach fun y hy => hkept y (hpre.subset hy)
    exact routed (.next hr ⟨hguard, hkept x hx⟩ hstep)

end runs

/-! ### A run that sends twice and opens the chat again -/

/-- Executable form of `AccountRun`. -/
def accountRun (_ : System Bool) (e : Event Bool) : Bool :=
  decide (CleanIds e) && decide (LogsIn (fun δ a => a = accountOf δ) e)

theorem accountRun_sound (s : System Bool) (e : Event Bool) (h : accountRun s e = true) :
    AccountRun accountOf s e := by
  simp only [accountRun, Bool.and_eq_true, decide_eq_true_eq] at h
  exact h

/-- User 1 sends twice in one opening, returns to the list, which is fetched again, and
opens the chat with user 2 again. -/
def sampleReopen : List (Event Bool) :=
  sampleOpen ++ sampleSend "a" 'a' 101 ++ [.act false (.fire 3 0)] ++ sampleSend "b" 'b' 102 ++
    [.act false (.fire 3 0), .act false (.homeWillAppear 0), .act false (.fire 6 0),
      .act false (.rowTapped 0 0)]

/-- The run with one opening and one send. -/
theorem sessions_routed_sample :
    ∃ tr s, System.Run (AccountRun accountOf) tr s ∧
      tr.map (fun x => x.2.1) = sampleOpen ++ sampleSend "a" 'a' 101 ∧
      ((∀ x ∈ tr, Routed x.2.2) ↔ ∀ x ∈ tr, KeptEntry x.1 x.2.1) := by
  have hrun : (Transition.run System.step accountRun sampleStart
      (sampleOpen ++ sampleSend "a" 'a' 101)).isSome := by
    decide +kernel
  obtain ⟨s, hs⟩ := Option.isSome_iff_exists.mp hrun
  obtain ⟨tr, htr, hevents⟩ :=
    Transition.Trace.of_run accountRun_sound (.start initial_sampleStart) hs
  exact ⟨tr, s, htr, hevents, sessions_routed htr⟩

/-- The reopened session of user 1 with user 2 is one with user 1 that observes the
conversation of user 2. -/
theorem sessions_misrouted :
    ¬ ∀ s, System.Reachable (AccountRun accountOf) s → Routed s := by
  intro h
  have hrun : (Transition.run System.step accountRun sampleStart sampleReopen).map (fun s =>
      ((s.devices false).sessions[1]?, (s.devices false).places[3]?,
        decide ((1, ["messages", "2_1"]) ∈ (s.devices false).messageRefs))) =
      some (some (some "1", some 3), some ("1", "1_2"), true) := by
    decide +kernel
  obtain ⟨s, hs, hstate⟩ := Option.map_eq_some_iff.mp hrun
  simp only [Prod.mk.injEq, Device.sessions, Device.places, List.getElem?_map,
    Option.map_eq_some_iff, decide_eq_true_eq] at hstate
  obtain ⟨⟨vc, hvc, -, hentry⟩, ⟨o, ho, howner, hkey⟩, hobserved⟩ := hstate
  have hrouted := h s (.of_run accountRun_sound (.start initial_sampleStart) hs) false 1 vc 3 o "1" "2"
    hvc hentry ho howner (by rw [hkey]; decide)
  have href := (hrouted.observe _).mp hobserved
  exact absurd href (by decide)

end MyChat
