import MyChat.ChatTable
import MyChat.Lib.Pieces

/-!
# MyChat.ChatId

The `chatId` of a row as a code for a pair of ids. It is written as `u_f`, read back by
taking the component after the first `_`, and also used as a place: it is handed to
`child`, which does not take a key but a path. Ids without `_` are read back
(`parsedFriendId_chatKey`) and tell their key, but `child` drops empty pieces, so ids that
differ only in slashes can lead to the same place. `chatIds_right_iff` says when.
-/

namespace MyChat

/-! ### Reading a chat id -/

/-- `chatId.components(separatedBy: "_")[1]`, as `cellTouchDownHandle` takes it. -/
def parsedFriendId (chatId : String) : Except Fault UserId :=
  (componentsSeparatedBy chatId '_')[1]?.elim (.error .indexOutOfRange) .ok

theorem parsedFriendId_eq_ok {chatId : String} {friendId : UserId} :
    parsedFriendId chatId = .ok friendId ↔
      (componentsSeparatedBy chatId '_')[1]? = some friendId := by
  rw [parsedFriendId]
  cases (componentsSeparatedBy chatId '_')[1]? <;> simp

/-- A tap presents the screen of the friend that is read from the row's id. -/
theorem screenAt_eq_parsedFriendId (chatList : List ChatRef) (dev : Device) (i : Nat) :
    ChatTable.screenAt chatList dev i = do
      let entry ← enabled chatList[i]?
      let object ← enabled dev.chats[entry]?
      let chatId ← unwrap "ids" object.chat.chatId
      let friendId ← parsedFriendId chatId
      return ⟨some friendId, some dev.currentUser, some entry, [], none⟩ := by
  rw [ChatTable.screenAt]
  refine bind_congr fun entry => bind_congr fun object => ?_
  cases object.chat.chatId <;> rfl

/-- The components of an id have no `_`. -/
theorem not_mem_component {s c : String} (h : c ∈ componentsSeparatedBy s '_') :
    '_' ∉ c.toList := by
  obtain ⟨l, hl, rfl⟩ := List.mem_map.mp h
  rw [String.toList_ofList]
  exact fun hmem => (Pieces.mem_and_ne_of_mem_splitOn hl hmem).2 rfl

theorem parsedFriendId_chatKey_ok (u f : UserId) :
    ∃ friendId, parsedFriendId (chatKey u f) = .ok friendId := by
  have hsep : '_' ∈ (chatKey u f).toList := by simp [chatKey_toList]
  obtain ⟨friendId, hfriend⟩ := second_component_iff.mpr hsep
  exact ⟨friendId, parsedFriendId_eq_ok.mpr hfriend⟩

/-- What is read back from `u_f` is `f`, or it is in `u` already. -/
theorem parsedFriendId_chatKey (u f : UserId) :
    parsedFriendId (chatKey u f) = .ok f ↔ '_' ∉ f.toList ∧
      ('_' ∉ u.toList ∨ (componentsSeparatedBy u '_')[1]? = some f) := by
  rw [parsedFriendId_eq_ok, componentsSeparatedBy_chatKey]
  by_cases hu : '_' ∈ u.toList
  · -- `u` has a second component of its own, and that one is read
    obtain ⟨c, hc⟩ := second_component_iff.mpr hu
    have hlt : 1 < (componentsSeparatedBy u '_').length := (List.getElem?_eq_some_iff.mp hc).1
    rw [List.getElem?_append_left hlt]
    constructor
    · intro h
      exact ⟨not_mem_component (List.mem_of_getElem? h), Or.inr h⟩
    · intro h
      exact h.2.resolve_left (not_not_intro hu)
  · rw [componentsSeparatedBy_of_not_mem hu]
    constructor
    · intro h
      have hmem : f ∈ componentsSeparatedBy f '_' := List.mem_of_getElem? (i := 0) (by simpa using h)
      exact ⟨not_mem_component hmem, Or.inl hu⟩
    · intro h
      rw [componentsSeparatedBy_of_not_mem h.1]
      rfl

/-! ### Where a chat is kept -/

/-- `child("chatbox").child(u).child(u_f)`. -/
def chatboxRef (u f : UserId) : Except Fault Path :=
  (child ["chatbox"] u).bind (child · (chatKey u f))

/-- `child("messages").child(u_f)`. -/
def messagesRef (u f : UserId) : Except Fault Path := child ["messages"] (chatKey u f)

/-- `createNewChatBox` observes the row's place, for any ids. -/
theorem createNewChatBox_chatboxRef {dev dev' : Device} {friend user : User}
    (h : ChatBusiness.createNewChatBox dev friend user = .ok dev') :
    ∃ u f ref, user.id = some u ∧ friend.id = some f ∧ chatboxRef u f = .ok ref ∧
      dev' = dev.observe ref (.create friend user) := by
  simp only [ChatBusiness.createNewChatBox, bind_eq_ok, unwrap_eq_ok] at h
  obtain ⟨u, hu, f, hf, chatbox, hchatbox, ref, href, h⟩ := h
  exact ⟨u, f, ref, hu, hf, bind_eq_ok.mpr ⟨chatbox, hchatbox, href⟩, (Except.ok.inj h).symm⟩

/-- A send writes below the two message places and to the two rows, for any ids. -/
theorem sendWrites_places {user : User} {f : UserId} {c c' : Chat} {text randomStr : String}
    {timestamp : Int64} {writes : List Write}
    (h : ChatBoxViewController.sendWrites user f c text randomStr timestamp = .ok (writes, c')) :
    ∃ u p₁ p₂ p₃ p₄, user.id = some u ∧ writes.map Write.path = [p₁, p₂, p₃, p₄] ∧
      (messagesRef u f).bind (child · randomStr) = .ok p₁ ∧
      (messagesRef f u).bind (child · randomStr) = .ok p₂ ∧
      chatboxRef u f = .ok p₃ ∧ chatboxRef f u = .ok p₄ := by
  simp only [ChatBoxViewController.sendWrites, bind_eq_ok, unwrap_eq_ok] at h
  obtain ⟨u, hu, myRef, hmyRef, p₁, hp₁, myMessage, -, yourRef, hyourRef, p₂, hp₂, yourMessage, -,
    myChatRef, hmyChatRef, p₃, hp₃, myChat, -, yourChatRef, hyourChatRef, p₄, hp₄, yourChat, -,
    h⟩ := h
  cases h
  exact ⟨u, p₁, p₂, p₃, p₄, hu, rfl, bind_eq_ok.mpr ⟨myRef, hmyRef, hp₁⟩,
    bind_eq_ok.mpr ⟨yourRef, hyourRef, hp₂⟩, bind_eq_ok.mpr ⟨myChatRef, hmyChatRef, hp₃⟩,
    bind_eq_ok.mpr ⟨yourChatRef, hyourChatRef, hp₄⟩⟩

/-! ### When places coincide -/

theorem pathPieces_eq_pieces (s : String) :
    pathPieces s = (Pieces.pieces '/' s.toList).map String.ofList := by
  rw [pathPieces, componentsSeparatedBy, Pieces.pieces, List.filter_map]
  refine congrArg _ (List.filter_congr fun l _ => ?_)
  simp [Function.comp, ← String.toList_inj]

theorem map_ofList_inj {ls ls' : List (List Char)} :
    ls.map String.ofList = ls'.map String.ofList ↔ ls = ls' :=
  (List.map_injective_iff.mpr fun _ _ => String.ofList_injective).eq_iff

variable {u f u' f' : UserId}

/-- Keys are one path exactly when both ids are, up to the slashes that are dropped. -/
theorem pathPieces_chatKey_iff (hu : '_' ∉ u.toList) (hf : '_' ∉ f.toList) (hu' : '_' ∉ u'.toList)
    (hf' : '_' ∉ f'.toList) :
    pathPieces (chatKey u f) = pathPieces (chatKey u' f') ↔
      pathPieces (u ++ "_") = pathPieces (u' ++ "_") ∧
        pathPieces ("_" ++ f) = pathPieces ("_" ++ f') := by
  simp only [pathPieces_eq_pieces, map_ofList_inj, chatKey_toList, String.toList_append]
  exact Pieces.pieces_marker_iff (by decide) hu hf hu' hf'

/-- Rows at one place have their messages at one place. -/
theorem pathPieces_chatKey_of_chatbox (hu : '_' ∉ u.toList) (hf : '_' ∉ f.toList)
    (hu' : '_' ∉ u'.toList) (hf' : '_' ∉ f'.toList)
    (h : pathPieces u ++ pathPieces (chatKey u f) = pathPieces u' ++ pathPieces (chatKey u' f')) :
    pathPieces (chatKey u f) = pathPieces (chatKey u' f') := by
  simp only [pathPieces_eq_pieces, ← List.map_append, map_ofList_inj, chatKey_toList] at h ⊢
  exact Pieces.pieces_marker_of_repeat (by decide) hu hf hu' hf' h

theorem messagesRef_eq_ok {ref : Path} :
    messagesRef u f = .ok ref ↔
      (PathChars u ∧ PathChars f) ∧ ref = "messages" :: pathPieces (chatKey u f) := by
  rw [messagesRef, child, ← isValidPathString_chatKey_iff]
  split
  · next hv => simp [hv, eq_comm]
  · next hv => simp [hv]

/-- A row's place, and that its key is a path. -/
theorem chatboxRef_inv {ref : Path} (h : chatboxRef u f = .ok ref) :
    (PathChars u ∧ PathChars f) ∧
      ref = "chatbox" :: (pathPieces u ++ pathPieces (chatKey u f)) := by
  obtain ⟨owner, howner, href⟩ := bind_eq_ok.mp h
  unfold child at howner href
  split at howner <;> cases howner
  split at href
  · next hv =>
    cases href
    exact ⟨isValidPathString_chatKey_iff.mp hv, rfl⟩
  · cases href

/-- Two references lead to one place. -/
def Coincide (r r' : Except Fault Path) : Prop := ∃ ref, r = .ok ref ∧ r' = .ok ref

/-- No id has a `_`. -/
def Separable (u f u' f' : UserId) : Prop :=
  '_' ∉ u.toList ∧ '_' ∉ f.toList ∧ '_' ∉ u'.toList ∧ '_' ∉ f'.toList

/-- The pairs are different, but only in slashes that `child` drops. -/
structure OnlySlashesDiffer (u f u' f' : UserId) : Prop where
  separable : Separable u f u' f'
  pathChars : PathChars u ∧ PathChars f ∧ PathChars u' ∧ PathChars f'
  ne : ¬ (u = u' ∧ f = f')
  owner : pathPieces (u ++ "_") = pathPieces (u' ++ "_")
  friend : pathPieces ("_" ++ f) = pathPieces ("_" ++ f')

theorem eq_of_pathPieces {s s' : String} (hs : s ≠ "") (hs' : s' ≠ "") (h : '/' ∉ s.toList)
    (h' : '/' ∉ s'.toList) (heq : pathPieces s = pathPieces s') : s = s' := by
  rw [pathPieces_of_not_mem hs h, pathPieces_of_not_mem hs' h'] at heq
  exact List.singleton_inj.mp heq

/-- Ids without slashes do not differ in slashes only. -/
theorem not_onlySlashesDiffer (hu : '/' ∉ u.toList) (hf : '/' ∉ f.toList) (hu' : '/' ∉ u'.toList)
    (hf' : '/' ∉ f'.toList) : ¬ OnlySlashesDiffer u f u' f' := by
  intro h
  have howner := eq_of_pathPieces (by simp) (by simp) (by simp [hu]) (by simp [hu']) h.owner
  have hfriend := eq_of_pathPieces (by simp) (by simp) (by simp [hf]) (by simp [hf']) h.friend
  exact h.ne ⟨by simpa using howner, by simpa using hfriend⟩

/-- Message places coincide exactly for pairs that are one path. -/
theorem coincide_messagesRef_iff (h : Separable u f u' f') (hne : ¬ (u = u' ∧ f = f')) :
    Coincide (messagesRef u f) (messagesRef u' f') ↔ OnlySlashesDiffer u f u' f' := by
  obtain ⟨hu, hf, hu', hf'⟩ := h
  constructor
  · intro hcoincide
    obtain ⟨ref, href, href'⟩ := hcoincide
    obtain ⟨hchars, rfl⟩ := messagesRef_eq_ok.mp href
    obtain ⟨hchars', heq⟩ := messagesRef_eq_ok.mp href'
    obtain ⟨howner, hfriend⟩ :=
      (pathPieces_chatKey_iff hu hf hu' hf').mp (List.cons.inj heq).2
    exact ⟨⟨hu, hf, hu', hf'⟩, ⟨hchars.1, hchars.2, hchars'⟩, hne, howner, hfriend⟩
  · intro hslashes
    obtain ⟨hcu, hcf, hcu', hcf'⟩ := hslashes.pathChars
    have heq := (pathPieces_chatKey_iff hu hf hu' hf').mpr ⟨hslashes.owner, hslashes.friend⟩
    exact ⟨_, messagesRef_eq_ok.mpr ⟨⟨hcu, hcf⟩, rfl⟩,
      messagesRef_eq_ok.mpr ⟨⟨hcu', hcf'⟩, congrArg _ heq⟩⟩

theorem coincide_messagesRef_of_chatboxRef (h : Separable u f u' f')
    (hcoincide : Coincide (chatboxRef u f) (chatboxRef u' f')) :
    Coincide (messagesRef u f) (messagesRef u' f') := by
  obtain ⟨hu, hf, hu', hf'⟩ := h
  obtain ⟨ref, href, href'⟩ := hcoincide
  obtain ⟨hchars, rfl⟩ := chatboxRef_inv href
  obtain ⟨hchars', heq⟩ := chatboxRef_inv href'
  have hpieces := pathPieces_chatKey_of_chatbox hu hf hu' hf' (List.cons.inj heq).2
  exact ⟨_, messagesRef_eq_ok.mpr ⟨hchars, rfl⟩,
    messagesRef_eq_ok.mpr ⟨hchars', congrArg _ hpieces⟩⟩

/-! ### The code for pairs -/

/-- What a code for pairs of ids has to do: the id of a chat can always be read, it gives the
friend back exactly when the friend is the component after the first `_`, keys of ids without
`_` tell the pair, and so do the places of the rows and of the messages. -/
structure ChatIdsRight (u f u' f' : UserId) : Prop where
  parses : ∃ friendId, parsedFriendId (chatKey u f) = .ok friendId
  friend : parsedFriendId (chatKey u f) = .ok f ↔ '_' ∉ f.toList ∧
    ('_' ∉ u.toList ∨ (componentsSeparatedBy u '_')[1]? = some f)
  key : Separable u f u' f' → chatKey u f = chatKey u' f' → u = u' ∧ f = f'
  chatbox : Separable u f u' f' → ¬ (u = u' ∧ f = f') →
    ¬ Coincide (chatboxRef u f) (chatboxRef u' f')
  messages : Separable u f u' f' → ¬ (u = u' ∧ f = f') →
    ¬ Coincide (messagesRef u f) (messagesRef u' f')

/-- **Chat ids.** All of it holds, except for places of pairs that differ only in slashes. -/
theorem chatIds_right_iff (u f u' f' : UserId) :
    ChatIdsRight u f u' f' ↔ ¬ OnlySlashesDiffer u f u' f' := by
  constructor
  · intro hright hslashes
    refine hright.messages hslashes.separable hslashes.ne ?_
    exact (coincide_messagesRef_iff hslashes.separable hslashes.ne).mpr hslashes
  · intro hslashes
    refine ⟨parsedFriendId_chatKey_ok u f, parsedFriendId_chatKey u f, ?_, ?_, ?_⟩
    · intro hsep hkey
      exact chatKey_inj hsep.1 hsep.2.2.1 hkey
    · intro hsep hne hcoincide
      have hmessages := coincide_messagesRef_of_chatboxRef hsep hcoincide
      exact hslashes ((coincide_messagesRef_iff hsep hne).mp hmessages)
    · intro hsep hne hcoincide
      exact hslashes ((coincide_messagesRef_iff hsep hne).mp hcoincide)

/-- User 1 has one row and one list of messages for friend `2` and for friend `2/`. -/
theorem chatIds_share_place : ¬ ∀ u f u' f' : UserId, ChatIdsRight u f u' f' := by
  intro h
  have hright := h "1" "2" "1" "2/"
  have hchatbox : Coincide (chatboxRef "1" "2") (chatboxRef "1" "2/") :=
    ⟨["chatbox", "1", "1_2"], by decide +kernel, by decide +kernel⟩
  exact hright.chatbox (by simp [Separable]) (by decide) hchatbox

end MyChat
