import MyChat.Issued

/-!
# MyChat.RecordIdentity

Does a row keep the identity of the chat it stands for? The row `chatbox/a/a_b` should
carry its own key and the profile of `b`. It does as long as every send to another
user is made from an object that still has the key of that chat (`rows_identified`).
A send leaves the object with the key of the *friend's* row and the profile of the
sender, so the second send of one opening stores those in the sender's own row
(`rows_not_identified`).
-/

namespace MyChat

variable {ι : Type} [DecidableEq ι]

/-- The chat shows name and picture of `user`. -/
def Shows (me : UserId → Json) (user : UserId) (c : Chat) : Prop :=
  facebookName (me user) = c.name ∧ facebookUrl (me user) = c.avatarUrl

/-- Each row for another user has its own key as `chatId` and shows that user. -/
def RowsIdentified (me : UserId → Json) (s : System ι) : Prop :=
  ∀ a b, a ≠ b → s.server.tree.subtree ["chatbox", a, chatKey a b] ≠ ∅ →
    ∃ c : ChatRecord, s.server.tree.subtree ["chatbox", a, chatKey a b] = c.dict ∧
      c.chatId = chatKey a b ∧ Shows me b c.toChat

/-- One account per device, clean ids, profiles that do not change. -/
def ProfileRun (account : ι → UserId) (me : UserId → Json) (s : System ι) (e : Event ι) : Prop :=
  CleanIds e ∧ LogsIn (fun δ a => a = account δ) e ∧ Honest me s e

/-- A send to another user is made from an object whose `chatId` is the key of that chat. -/
def KeyKept (s : System ι) (e : Event ι) : Prop :=
  match e with
  | .act δ (.sendTapped screen _ _ _) =>
      ∀ vc user entry o u friendId, (s.devices δ).screens[screen]? = some vc →
        vc.currentUser = some user → user.id = some u → vc.friendId = some friendId →
        vc.currentChatBox = some entry → (s.devices δ).chats[entry]? = some o → u ≠ friendId →
        o.chat.chatId = some (chatKey u friendId)
  | _ => True

/-- The identity a record carries. -/
def Identified (me : UserId → Json) : Record → Prop
  | .user u => Genuine me u
  | .chat owner peer c => (owner ≠ peer → c.chatId = chatKey owner peer) ∧
      ∀ y, c.chatId = chatKey owner y → Shows me y c.toChat
  | .message _ _ _ => True

/-- The contract: an object that has the key of a chat of this device's account shows
the other user of that chat. -/
def identity (account : ι → UserId) (me : UserId → Json) : Contract ι where
  guard s e := ProfileRun account me s e ∧ KeyKept s e
  account δ a := CleanId a ∧ a = account δ
  session δ u := CleanId u.id ∧ u.id = account δ ∧ Genuine me u
  issue _ _ r := Identified me r
  object δ _ o := ∀ y, o.chat.chatId = some (chatKey (account δ) y) → Shows me y o.chat
  peer _ _ := True
  issue_mono _ h := h
  object_mono _ h := h
  peer_mono _ h := h
  session_clean h := h.1
  logIn h := ⟨h.1.1, h.1.2.1⟩
  reply := by
    intro s δ i result request u hguard hrequest haccount hu hname hurl
    obtain ⟨a, ha, hme⟩ := hguard.1.2.2
    rw [hrequest] at ha
    obtain rfl : u.id = a := hu.2.trans (haccount a (Option.some.inj ha)).2.symm
    exact ⟨hu.1, hu.2, hme.1.symm.trans hname, hme.2.symm.trans hurl⟩
  addFriend h := h.1.1
  register h := h.2.2
  decode := by
    intro δ δ' H u peer c hu _ _ hissue y hy
    rw [← hu.2.1] at hy
    exact hissue.2 y (Option.some.inj hy)
  create := by
    intro δ δ' H u f timestamp _ _ _ hf
    refine ⟨fun _ => rfl, fun y hy => ?_⟩
    obtain rfl := chatKey_right_inj hy
    exact hf
  tap _ _ _ _ := trivial
  send := by
    intro s δ screen text randomStr timestamp u friendId o c H hguard hsending hu hfriend _ ho m
    obtain ⟨vc, user, entry, hvc, huser, hmatch, hfriendId, hentry, hobject⟩ := hsending.vc
    have hchat := hsending.chat
    refine ⟨trivial, fun _ => trivial, fun _ => ⟨fun hne => ?_, fun y hy => ?_⟩,
      fun _ => ⟨fun _ => rfl, fun y hy => ?_⟩, fun y hy => ?_⟩
    · have hkey := hguard.2 vc user entry o u.id friendId hvc huser hmatch.id hfriendId hentry hobject
        hne
      rw [hchat] at hkey
      exact Option.some.inj hkey
    · have hshows := ho y
      rw [hchat, ← hu.2.1] at hshows
      exact hshows (congrArg some hy)
    · obtain rfl := chatKey_right_inj hy
      exact hu.2.2
    · rw [← hu.2.1] at hy
      obtain ⟨-, rfl⟩ := chatKey_inj hfriend.1 hu.1.1 (Option.some.inj hy)
      exact hu.2.2

/-- **Record identity.** On runs that send to another user only while the session's
object has the key of that chat, every row keeps its identity. -/
theorem rows_identified {account : ι → UserId} {me : UserId → Json} {s : System ι}
    (h : System.Reachable (fun s e => ProfileRun account me s e ∧ KeyKept s e) s) :
    RowsIdentified me s := by
  intro a b hab hne
  have hinv : (identity account me).Inv s := Contract.inv h
  obtain ⟨peer, c, ⟨-, -, δ, hissue⟩, hkey, hd⟩ := hinv.stored.chat hne
  obtain rfl := chatKey_right_inj hkey
  exact ⟨c, hd, hissue.1 hab, hissue.2 b (hissue.1 hab)⟩

/-! ### A run that sends twice -/

/-- Executable form of `ProfileRun`. -/
def profileRun (s : System Bool) (e : Event Bool) : Bool :=
  decide (CleanIds e) && decide (LogsIn (fun δ a => a = accountOf δ) e) && honest sampleMe s e

theorem profileRun_sound (s : System Bool) (e : Event Bool) (h : profileRun s e = true) :
    ProfileRun accountOf sampleMe s e := by
  simp only [profileRun, Bool.and_eq_true, decide_eq_true_eq] at h
  exact ⟨h.1.1, h.1.2, honest_sound h.2⟩

/-- Executable form of `KeyKept`. -/
def keyKept (s : System ι) (e : Event ι) : Bool :=
  match e with
  | .act δ (.sendTapped screen _ _ _) =>
      match (s.devices δ).screens[screen]? with
      | some ⟨some friendId, some user, some entry, _, _⟩ =>
          match user.id, (s.devices δ).chats[entry]? with
          | some u, some o => u = friendId || o.chat.chatId = some (chatKey u friendId)
          | _, _ => true
      | _ => true
  | _ => true

omit [DecidableEq ι] in
theorem keyKept_sound {s : System ι} {e : Event ι} (h : keyKept s e = true) : KeyKept s e := by
  unfold keyKept at h
  unfold KeyKept
  split at h
  · next δ screen text randomStr timestamp =>
    intro vc user entry o u friendId hvc huser hu hfriend hentry ho hne
    obtain ⟨_, _, _, _, _⟩ := vc
    cases huser
    cases hfriend
    cases hentry
    simpa [hvc, hu, ho, hne] using h
  · trivial

/-- After the first send of an opening. -/
theorem rows_identified_sample :
    ∃ s, Transition.run System.step (fun s e => profileRun s e && keyKept s e) sampleStart
        (sampleOpen ++ sampleSend "a" 'a' 101) = some s ∧ RowsIdentified sampleMe s := by
  have hrun : (Transition.run System.step (fun s e => profileRun s e && keyKept s e) sampleStart
      (sampleOpen ++ sampleSend "a" 'a' 101)).isSome := by
    decide +kernel
  obtain ⟨s, hs⟩ := Option.isSome_iff_exists.mp hrun
  refine ⟨s, hs, @rows_identified Bool _ accountOf sampleMe s (.of_run (fun s e h => ?_)
    (.start initial_sampleStart) hs)⟩
  rw [Bool.and_eq_true] at h
  exact ⟨profileRun_sound s e h.1, keyKept_sound h.2⟩

/-- The second send of one opening stores the friend's key in the sender's own row. -/
theorem rows_not_identified :
    ¬ ∀ s, System.Reachable (ProfileRun accountOf sampleMe) s → RowsIdentified sampleMe s := by
  intro h
  have hrun : (Transition.run System.step profileRun sampleStart
      (sampleOpen ++ sampleSend "a" 'a' 101 ++ sampleSend "b" 'b' 102)).map (fun s =>
        Snapshot.string? (s.server.tree.subtree ["chatbox", "1", "1_2"]) "chatId") =
      some (some "2_1") := by
    decide +kernel
  obtain ⟨s, hs, hid⟩ := Option.map_eq_some_iff.mp hrun
  have hrows := h s (.of_run profileRun_sound (.start initial_sampleStart) hs) "1" "2" (by decide)
  have hkey : chatKey "1" "2" = "1_2" := by decide
  rw [hkey] at hrows
  obtain ⟨c, hd, hc, -⟩ := hrows (by
    intro hempty
    rw [hempty] at hid
    simp [Snapshot.string?] at hid)
  rw [hd] at hid
  simp [Snapshot.string?, List.lookup_cons, Scalar.string?, hc] at hid

end MyChat
