import MyChat.Outcome

/-!
# MyChat.Records

The three kinds of records the app stores, and what the database looks like when
nothing else is ever written: it is made of whole records (`Stored`), each of which
some client issued, and a record location holds the record written there last.

Locations are told apart by their first piece and their length, so no record lies
inside another (`separated_record`), whatever the ids are. That a location
determines *whose* record it is needs ids without `_` (`chatKey_inj`).
-/

namespace MyChat

/-! ### Ids and keys -/

/-- An id that can be part of a chat key and of a path. -/
def CleanId (id : UserId) : Prop := '_' ∉ id.toList ∧ '/' ∉ id.toList

instance (id : UserId) : Decidable (CleanId id) :=
  inferInstanceAs (Decidable ('_' ∉ id.toList ∧ '/' ∉ id.toList))

theorem clean_of_isRandomString {n : Nat} {s : String} (h : isRandomString n s) : CleanId s := by
  simp only [isRandomString, Bool.and_eq_true, List.all_eq_true] at h
  refine ⟨fun hmem => ?_, fun hmem => ?_⟩
  · exact absurd (h.2 _ hmem) (by decide)
  · exact absurd (h.2 _ hmem) (by decide)

theorem chatKey_toList (u f : UserId) : (chatKey u f).toList = u.toList ++ '_' :: f.toList := by
  simp [chatKey]

/-- A chat key can be a path when the characters of its ids allow it. It is never empty. -/
theorem isValidPathString_chatKey_iff {u f : UserId} :
    isValidPathString (chatKey u f) ↔ PathChars u ∧ PathChars f := by
  have hne : chatKey u f ≠ "" := by
    rw [ne_eq, ← String.toList_inj, chatKey_toList]
    simp
  have hsep : '_' ∉ kInvalidPathCharacters := by decide
  rw [isValidPathString_iff, and_iff_right hne]
  simp only [PathChars, chatKey_toList, List.forall_mem_append, List.forall_mem_cons, hsep,
    not_false_eq_true, true_and]

/-- Splitting a chat key at `_` splits the two ids. -/
theorem componentsSeparatedBy_chatKey (u f : UserId) :
    componentsSeparatedBy (chatKey u f) '_' =
      componentsSeparatedBy u '_' ++ componentsSeparatedBy f '_' := by
  simp [componentsSeparatedBy, chatKey_toList, List.splitOn_append_cons_self]

theorem componentsSeparatedBy_of_not_mem {s : String} (h : '_' ∉ s.toList) :
    componentsSeparatedBy s '_' = [s] := by
  simp [componentsSeparatedBy, List.splitOn_eq_singleton h]

theorem componentsSeparatedBy_chatKey_of_clean {u f : UserId} (hu : CleanId u) (hf : CleanId f) :
    componentsSeparatedBy (chatKey u f) '_' = [u, f] := by
  rw [componentsSeparatedBy_chatKey, componentsSeparatedBy_of_not_mem hu.1,
    componentsSeparatedBy_of_not_mem hf.1]
  rfl

/-- Chat keys of different pairs never coincide. -/
theorem chatKey_inj {u f u' f' : UserId} (hu : '_' ∉ u.toList) (hu' : '_' ∉ u'.toList)
    (h : chatKey u f = chatKey u' f') : u = u' ∧ f = f' := by
  have hlist : u.toList ++ '_' :: f.toList = u'.toList ++ '_' :: f'.toList := by
    rw [← chatKey_toList, ← chatKey_toList, h]
  rcases List.append_eq_append_iff.mp hlist with ⟨r, hr, hr'⟩ | ⟨r, hr, hr'⟩
  · cases r with
    | nil =>
        have hf : f = f' := by simpa [String.toList_inj] using hr'
        exact ⟨by simpa [String.toList_inj] using hr.symm, hf⟩
    | cons c r =>
        obtain ⟨rfl, -⟩ : '_' = c ∧ _ := List.cons.inj hr'
        exact absurd (by rw [hr]; simp) hu'
  · cases r with
    | nil =>
        have hf : f = f' := by simpa [String.toList_inj, eq_comm] using hr'
        exact ⟨by simpa [String.toList_inj] using hr, hf⟩
    | cons c r =>
        obtain ⟨rfl, -⟩ : '_' = c ∧ _ := List.cons.inj hr'
        exact absurd (by rw [hr]; simp) hu

theorem chatKey_right_inj {u f f' : UserId} (h : chatKey u f = chatKey u f') : f = f' := by
  have hlist : (chatKey u f).toList = (chatKey u f').toList := by rw [h]
  simpa [chatKey_toList, String.toList_inj] using hlist

theorem slash_not_mem_chatKey {u f : UserId} (hu : CleanId u) (hf : CleanId f) :
    '/' ∉ (chatKey u f).toList := by
  simp [chatKey_toList, hu.2, hf.2]

/-- The location of a row, as the code walks to it. -/
theorem chatRef_eq {u f : UserId} {ref : Path} (hu : CleanId u) (hf : CleanId f)
    (h : (child ["chatbox"] u).bind (child · (chatKey u f)) = .ok ref) :
    ref = ["chatbox", u, chatKey u f] := by
  obtain ⟨chatbox, hchatbox, href⟩ := bind_eq_ok.mp h
  obtain ⟨-, rfl⟩ := (child_eq_ok hu.2).mp hchatbox
  obtain ⟨-, rfl⟩ := (child_eq_ok (slash_not_mem_chatKey hu hf)).mp href
  rfl

/-! ### Records -/

/-- A record with its place: a user, `owner`'s row for `peer`, or a message in
`owner`'s copy of the conversation with `peer`. -/
inductive Record
  | user (u : UserRecord)
  | chat (owner peer : UserId) (c : ChatRecord)
  | message (owner peer : UserId) (m : MessageRecord)

namespace Record

def path : Record → Path
  | user u => ["users", u.id]
  | chat owner peer _ => ["chatbox", owner, chatKey owner peer]
  | message owner peer m => ["messages", chatKey owner peer, m.id]

def dict : Record → Snapshot
  | user u => u.dict
  | chat _ _ c => c.dict
  | message _ _ m => m.dict

/-- The `setValue` call that stores the record. -/
def write (r : Record) : Write := ⟨r.path, r.dict⟩

theorem dict_ne_empty (r : Record) : r.dict ≠ ∅ := by
  cases r with
  | user u => exact u.dict_ne_empty
  | chat _ _ c => exact c.dict_ne_empty
  | message _ _ m => exact m.dict_ne_empty

/-- No record location lies inside another one: those of one kind have one length,
those of different kinds differ in the first piece. -/
theorem path_prefix_eq {r r' : Record} (h : r.path <+: r'.path) : r.path = r'.path := by
  refine h.eq_of_length ?_
  obtain ⟨q, hq⟩ := h
  cases r <;> cases r' <;> simp [path] at hq ⊢

theorem path_eq_or_incomparable (r r' : Record) :
    r.path = r'.path ∨ Incomparable r.path r'.path := by
  by_cases h : r.path = r'.path
  · exact Or.inl h
  · exact Or.inr ⟨fun hp => h (path_prefix_eq hp), fun hp => h (path_prefix_eq hp).symm⟩

end Record

namespace Record

/-- What every record the app writes under clean ids looks like: its place is given by
clean ids, a row's `chatId` is a chat key, and a message is between the two users of
the conversation it is filed under. -/
def Sound : Record → Prop
  | user u => CleanId u.id
  | chat owner peer c =>
      CleanId owner ∧ CleanId peer ∧ ∃ x y, CleanId x ∧ CleanId y ∧ c.chatId = chatKey x y
  | message owner peer m =>
      CleanId owner ∧ CleanId peer ∧
        (m.fromId = owner ∧ m.toId = peer ∨ m.fromId = peer ∧ m.toId = owner)

/-- A write under clean ids says which record it stores. -/
theorem write_inj {r r' : Record} (hr : r.Sound) (hr' : r'.Sound) (h : r.write = r'.write) :
    r = r' := by
  have hpath : r.path = r'.path := congrArg Write.path h
  have hdict : r.dict = r'.dict := congrArg Write.value h
  cases r <;> cases r' <;> simp only [path, List.cons.injEq, String.reduceEq, false_and, and_true,
    true_and, reduceCtorEq, and_false] at hpath
  · rw [UserRecord.dict_injective hdict]
  · next o p c o' p' c' =>
    obtain ⟨rfl, hkey⟩ := hpath
    rw [chatKey_right_inj hkey, ChatRecord.dict_injective hdict]
  · next o p m o' p' m' =>
    obtain ⟨rfl, rfl⟩ := chatKey_inj hr.1.1 hr'.1.1 hpath.1
    rw [MessageRecord.dict_injective hdict]

end Record

/-- Where `owner` keeps the row for `peer`. -/
def rowPath (owner peer : UserId) : Path := ["chatbox", owner, chatKey owner peer]

theorem rowPath_inj {a b a' b' : UserId} : rowPath a b = rowPath a' b' ↔ a = a' ∧ b = b' := by
  constructor
  · intro h
    obtain ⟨rfl, hkey⟩ : a = a' ∧ chatKey a b = chatKey a' b' := by simpa [rowPath] using h
    exact ⟨rfl, chatKey_right_inj hkey⟩
  · intro hcase
    obtain ⟨rfl, rfl⟩ := hcase
    rfl

/-! ### The records of one send -/

/-- The message of a send. -/
def sentMessage (u : UserRecord) (friendId : UserId) (text randomStr : String) (timestamp : Int64) :
    MessageRecord :=
  ⟨randomStr, u.id, friendId, timestamp, false, text⟩

/-- The sender's row: the object as it was, with the new last message. -/
def myChat (c : ChatRecord) (text : String) (timestamp : Int64) : ChatRecord :=
  { c with lastMessenger := text, ts := timestamp, messState := "SENT_BY_YOU" }

/-- The friend's row, which is also what the sender's object has become. -/
def yourChat (u : UserRecord) (friendId : UserId) (text : String) (timestamp : Int64) : ChatRecord :=
  ⟨chatKey friendId u.id, u.name, text, "SENT_BY_FRIEND", true, timestamp, u.avatarUrl⟩

/-- What a send of `u` to `friendId` stores, in the order of the calls. -/
def sendRecords (u : UserRecord) (friendId : UserId) (c : ChatRecord) (text randomStr : String)
    (timestamp : Int64) : List Record :=
  [.message u.id friendId (sentMessage u friendId text randomStr timestamp),
    .message friendId u.id (sentMessage u friendId text randomStr timestamp),
    .chat u.id friendId (myChat c text timestamp),
    .chat friendId u.id (yourChat u friendId text timestamp)]

/-- `sendWrites` issues exactly these records, from an object that is a record. -/
theorem sendWrites_inv {u : UserRecord} {user : User} {friendId : UserId} {c : ChatRecord}
    {text randomStr : String} {timestamp : Int64} {writes : List Write} {chatBox : Chat}
    (hu : u.Matches user) (hid : CleanId u.id) (hfriend : CleanId friendId)
    (hrandom : '/' ∉ randomStr.toList)
    (h : ChatBoxViewController.sendWrites user friendId c.toChat text randomStr timestamp =
      .ok (writes, chatBox)) :
    writes = (sendRecords u friendId c text randomStr timestamp).map Record.write ∧
      chatBox = (yourChat u friendId text timestamp).toChat := by
  simp only [ChatBoxViewController.sendWrites, hu.id, hu.name, hu.avatarUrl, bind_eq_ok,
    unwrap_eq_ok, Option.some.injEq] at h
  obtain ⟨_, rfl, myRef, hmyRef, myRef', hmyRef', myMessage, hmyMessage, yourRef, hyourRef,
    yourRef', hyourRef', yourMessage, hyourMessage, myChatRef, hmyChatRef, myChatRef', hmyChatRef',
    myDict, hmyDict, yourChatRef, hyourChatRef, yourChatRef', hyourChatRef', yourDict, hyourDict,
    hres⟩ := h
  have hkey := slash_not_mem_chatKey hid hfriend
  have hkey' := slash_not_mem_chatKey hfriend hid
  obtain ⟨-, rfl⟩ := (child_eq_ok hkey).mp hmyRef
  obtain ⟨-, rfl⟩ := (child_eq_ok hrandom).mp hmyRef'
  obtain ⟨-, rfl⟩ := (child_eq_ok hkey').mp hyourRef
  obtain ⟨-, rfl⟩ := (child_eq_ok hrandom).mp hyourRef'
  obtain ⟨-, rfl⟩ := (child_eq_ok hid.2).mp hmyChatRef
  obtain ⟨-, rfl⟩ := (child_eq_ok hkey).mp hmyChatRef'
  obtain ⟨-, rfl⟩ := (child_eq_ok hfriend.2).mp hyourChatRef
  obtain ⟨-, rfl⟩ := (child_eq_ok hkey').mp hyourChatRef'
  -- each dictionary is the one of a record, by the encoders on complete values
  obtain rfl : (sentMessage u friendId text randomStr timestamp).dict = myMessage :=
    Except.ok.inj hmyMessage
  obtain rfl : (sentMessage u friendId text randomStr timestamp).dict = yourMessage :=
    Except.ok.inj hyourMessage
  obtain rfl : (myChat c text timestamp).dict = myDict := Except.ok.inj hmyDict
  obtain rfl : (yourChat u friendId text timestamp).dict = yourDict := Except.ok.inj hyourDict
  obtain ⟨rfl, rfl⟩ := Prod.mk.inj (Except.ok.inj hres)
  exact ⟨rfl, rfl⟩

/-- `createNewChatBox` writes a record, for users that are records. -/
theorem create_inv {u f : UserRecord} {user friend : User} {id friendId name avatarUrl : String}
    {createRef : Path} (timestamp : Int64) (hu : CleanId u.id) (hf : CleanId f.id)
    (hmatch : u.Matches user) (hmatch' : f.Matches friend) (hid : user.id = some id)
    (hfriend : friend.id = some friendId) (hname : friend.name = some name)
    (hurl : friend.avatarUrl = some avatarUrl)
    (href : (child ["chatbox"] id).bind (child · (chatKey id friendId)) = .ok createRef) :
    (⟨createRef, (newChat id friendId name avatarUrl timestamp).dict⟩ : Write) =
      (Record.chat u.id f.id (newChat u.id f.id f.name f.avatarUrl timestamp)).write := by
  obtain rfl := hmatch.id_eq hid
  obtain rfl := hmatch'.id_eq hfriend
  obtain rfl : f.name = name := Option.some.inj (hmatch'.name.symm.trans hname)
  obtain rfl : f.avatarUrl = avatarUrl := Option.some.inj (hmatch'.avatarUrl.symm.trans hurl)
  obtain rfl := chatRef_eq hu hf href
  rfl

/-! ### Stored records -/

/-- The location `p` holds a record satisfying `P`. -/
def RecordAt (P : Record → Prop) (p : Path) (t : Snapshot) : Prop :=
  ∃ r, P r ∧ r.path = p ∧ t = r.dict

theorem separated_record (P : Record → Prop) : PathTree.Separated (RecordAt P) := by
  rintro p s p' s' ⟨r, -, rfl, -⟩ ⟨r', -, rfl, -⟩
  exact r.path_eq_or_incomparable r'

/-- Everything stored is a record satisfying `P`. -/
def Stored (P : Record → Prop) (tree : Snapshot) : Prop := tree.MadeOf (RecordAt P)

namespace Stored

variable {P Q : Record → Prop} {tree : Snapshot}

theorem empty : Stored P ∅ := PathTree.MadeOf.empty

theorem mono (h : ∀ r, P r → Q r) (ht : Stored P tree) : Stored Q tree :=
  PathTree.MadeOf.mono (fun _ _ ⟨r, hr, hp, hd⟩ => ⟨r, h r hr, hp, hd⟩) ht

theorem apply {r : Record} (hr : P r) (ht : Stored P tree) : Stored P (r.write.apply tree) :=
  PathTree.MadeOf.graft (separated_record P) ⟨r, hr, rfl, rfl⟩ ht

theorem applyAll {ws : List Write} (hws : ∀ w ∈ ws, ∃ r, P r ∧ w = r.write)
    (ht : Stored P tree) : Stored P (applyAll tree ws) := by
  induction ws generalizing tree with
  | nil => exact ht
  | cons w ws ih =>
      obtain ⟨r, hr, rfl⟩ := hws w List.mem_cons_self
      exact ih (fun w hw => hws w (List.mem_cons_of_mem _ hw)) (ht.apply hr)

/-- What is stored under `users/<id>`. -/
theorem user (ht : Stored P tree) {id : UserId} (hne : tree.subtree ["users", id] ≠ ∅) :
    ∃ u : UserRecord, P (.user u) ∧ u.id = id ∧ tree.subtree ["users", id] = u.dict := by
  obtain ⟨p', q, hp', r, hr, rfl, hd⟩ := PathTree.MadeOf.exists_record ht hne
  cases r with
  | user u =>
      obtain rfl : u.id = id := by simpa [Record.path] using hp'
      exact ⟨u, hr, rfl, hd⟩
  | chat => simp [Record.path] at hp'
  | message => simp [Record.path] at hp'

/-- What is stored under `chatbox/<owner>/<key>`. -/
theorem chat (ht : Stored P tree) {owner : UserId} {key : String}
    (hne : tree.subtree ["chatbox", owner, key] ≠ ∅) :
    ∃ peer c, P (.chat owner peer c) ∧ key = chatKey owner peer ∧
      tree.subtree ["chatbox", owner, key] = c.dict := by
  obtain ⟨p', q, hp', r, hr, rfl, hd⟩ := PathTree.MadeOf.exists_record ht hne
  cases r with
  | user => simp [Record.path] at hp'
  | chat owner' peer c =>
      obtain ⟨rfl, rfl⟩ : owner' = owner ∧ chatKey owner' peer = key := by
        simpa [Record.path] using hp'
      exact ⟨peer, c, hr, rfl, hd⟩
  | message => simp [Record.path] at hp'

/-- What is stored under `messages/<key>/<id>`. -/
theorem message (ht : Stored P tree) {key id : String}
    (hne : tree.subtree ["messages", key, id] ≠ ∅) :
    ∃ owner peer m, P (.message owner peer m) ∧ key = chatKey owner peer ∧ m.id = id ∧
      tree.subtree ["messages", key, id] = m.dict := by
  obtain ⟨p', q, hp', r, hr, rfl, hd⟩ := PathTree.MadeOf.exists_record ht hne
  cases r with
  | user => simp [Record.path] at hp'
  | chat => simp [Record.path] at hp'
  | message owner peer m =>
      obtain ⟨rfl, rfl⟩ : chatKey owner peer = key ∧ m.id = id := by
        simpa [Record.path] using hp'
      exact ⟨owner, peer, m, hr, rfl, rfl, hd⟩

/-- There is no value at `messages/<key>` itself. -/
theorem get_messages (ht : Stored P tree) (key : String) : tree.get ["messages", key] = none := by
  by_contra hne
  obtain ⟨v, hv⟩ := Option.ne_none_iff_exists'.mp hne
  obtain ⟨p, hp, r, -, rfl, -⟩ := ht _ (PathTree.get_eq_some_iff.mp hv)
  cases r <;> simp [Record.path] at hp

end Stored

/-! ### Locations after writes -/

/-- Paths with different first pieces are incomparable. -/
theorem incomparable_of_head {p q : Path} {k k' : String} (h : [k] <+: p) (hk : k ≠ k') :
    Incomparable p (k' :: q) := by
  obtain ⟨r, rfl⟩ := h
  simp [Incomparable, hk, Ne.symm hk]

theorem subtree_apply_self (r : Record) (tree : Snapshot) :
    (r.write.apply tree).subtree r.path = r.dict :=
  PathTree.subtree_graft_self tree r.dict r.path

theorem subtree_apply_of_ne {r r' : Record} (h : r.path ≠ r'.path) (tree : Snapshot) :
    (r.write.apply tree).subtree r'.path = tree.subtree r'.path :=
  PathTree.subtree_graft_of_incomparable ((r.path_eq_or_incomparable r').resolve_left h)

/-- A record location, once written, is never empty again. -/
theorem subtree_applyAll_ne_empty {ws : List Write} {r : Record} {tree : Snapshot}
    (hws : ∀ w ∈ ws, ∃ r : Record, w = r.write)
    (h : tree.subtree r.path ≠ ∅ ∨ ∃ r' : Record, r'.path = r.path ∧ r'.write ∈ ws) :
    (applyAll tree ws).subtree r.path ≠ ∅ := by
  induction ws generalizing tree with
  | nil =>
      rcases h with h | ⟨r', -, hmem⟩
      · exact h
      · simp at hmem
  | cons w ws ih =>
      obtain ⟨r', rfl⟩ := hws w List.mem_cons_self
      refine ih (fun w hw => hws w (List.mem_cons_of_mem _ hw)) ?_
      by_cases hp : r'.path = r.path
      · left
        rw [← hp, subtree_apply_self]
        exact r'.dict_ne_empty
      · rcases h with h | ⟨r'', hr'', hmem⟩
        · left
          rwa [subtree_apply_of_ne hp]
        · right
          rcases List.mem_cons.mp hmem with heq | hmem
          · exact absurd ((congrArg Write.path heq).symm.trans hr'') hp
          · exact ⟨r'', hr'', hmem⟩

/-- What a record location holds was there before or is one of the writes to it. -/
theorem subtree_applyAll_cases {ws : List Write} {r : Record} {tree : Snapshot}
    (hws : ∀ w ∈ ws, ∃ r : Record, w = r.write) :
    (applyAll tree ws).subtree r.path = tree.subtree r.path ∨
      ∃ r' : Record, r'.path = r.path ∧ r'.write ∈ ws ∧
        (applyAll tree ws).subtree r.path = r'.dict := by
  induction ws generalizing tree with
  | nil => exact Or.inl rfl
  | cons w ws ih =>
      obtain ⟨r', rfl⟩ := hws w List.mem_cons_self
      rcases @ih (r'.write.apply tree) (fun w hw => hws w (List.mem_cons_of_mem _ hw)) with
        h | ⟨r'', hr'', hmem, h⟩
      · by_cases hp : r'.path = r.path
        · refine Or.inr ⟨r', hp, List.mem_cons_self, ?_⟩
          rw [applyAll_cons, h, ← hp, subtree_apply_self]
        · left
          rw [applyAll_cons, h, subtree_apply_of_ne hp]
      · exact Or.inr ⟨r'', hr'', List.mem_cons_of_mem _ hmem, h⟩

end MyChat
