import MyChat.Outcome
import Mathlib.Data.List.Perm.Basic

/-!
# MyChat.RoundTrip

What is stored reads back as what was stored. Firebase keeps an array as children keyed
by index, and an array without elements not at all; so a chat, a message and a user with
friends come back as they were, and a user with an empty friend list comes back with none,
which the encoder then traps on (`decodesBack_iff`).
-/

namespace MyChat

/-! ### Arrays -/

theorem toDigits_head? {n : Nat} (h : 0 < n) : (Nat.toDigits 10 n).head? ≠ some '0' := by
  induction n using Nat.strongRecOn with
  | ind n ih =>
      by_cases hlt : n < 10
      · rw [Nat.toDigits_of_lt_base hlt]
        simp
        omega
      · rw [Nat.toDigits_of_base_le (by omega) (by omega), List.head?_append_of_ne_nil _
          Nat.toDigits_ne_nil]
        exact ih (n / 10) (by omega) (by omega)

/-- An index is read back from its key. -/
theorem Snapshot.intKey_toString (i : Nat) : intKey (toString i) = some i := by
  have hdigits : (toString i).toList = Nat.toDigits 10 i := Nat.toList_repr
  have hall : (Nat.toDigits 10 i).all Char.isDigit = true :=
    List.all_eq_true.mpr fun c hc => Nat.isDigit_of_mem_toDigits (by omega) (by omega) hc
  -- only `0` itself begins with a zero
  have hzero : ¬ ((Nat.toDigits 10 i).head? = some '0' ∧ 1 < (Nat.toDigits 10 i).length) := by
    rintro ⟨hhead, hlength⟩
    rcases Nat.eq_zero_or_pos i with rfl | hpos
    · simp at hlength
    · exact toDigits_head? hpos hhead
  have hvalue := Nat.ofDigitChars_ten_toDigits (n := i)
  rw [Nat.ofDigitChars_eq_foldl] at hvalue
  unfold intKey
  rw [hdigits, if_neg (by simp [Nat.toDigits_ne_nil, hall, hzero])]
  exact congrArg some hvalue

theorem toString_inj {i j : Nat} : toString i = toString j ↔ i = j := by
  refine ⟨fun h => ?_, fun h => by rw [h]⟩
  have hkey := congrArg Snapshot.intKey h
  rw [Snapshot.intKey_toString, Snapshot.intKey_toString] at hkey
  exact Option.some.inj hkey

/-- A list of strings as stored. -/
def storedList (elements : List String) : Snapshot := User.arrayValue (elements.map some)

section storedList

@[simp] theorem storedList_nil : storedList [] = ∅ := rfl

theorem storedList_concat (elements : List String) (s : String) :
    storedList (elements ++ [s]) =
      (storedList elements).graft [toString elements.length] (.leaf (.string s)) := by
  simp [storedList, User.arrayValue, PathTree.ofFields, List.zipIdx_append]

variable {elements : List String}

/-- The elements are values at the keys of their indices. -/
theorem get_storedList (i : Nat) :
    (storedList elements).get [toString i] = elements[i]?.map Scalar.string := by
  induction elements using List.reverseRecOn with
  | nil => rfl
  | append_singleton elements s ih =>
      -- the last element is at the next index, and the others stay where they are
      rw [storedList_concat, PathTree.get_graft_leaf]
      split
      · next h =>
        obtain rfl := toString_inj.mp h
        simp
      · next h =>
        have hne : i ≠ elements.length := fun hi => h (by rw [hi])
        rw [ih, List.getElem?_append]
        split
        · rfl
        · rw [List.getElem?_eq_none (by omega), List.getElem?_eq_none (by simp; omega)]

/-- The keys are the indices. -/
theorem mem_children_storedList {key : String} :
    key ∈ (storedList elements).children ↔ ∃ i < elements.length, key = toString i := by
  induction elements using List.reverseRecOn with
  | nil => simp
  | append_singleton elements s ih =>
      rw [PathTree.mem_children, storedList_concat]
      by_cases hkey : key = toString elements.length
      · subst hkey
        rw [PathTree.subtree_graft_self]
        refine iff_of_true ?_ ⟨elements.length, by simp, rfl⟩
        simp [PathTree.eq_empty_iff]
      · have hinc : Incomparable [toString elements.length] [key] := by
          simp only [Incomparable, List.cons_prefix_cons, List.nil_prefix, and_true]
          exact ⟨Ne.symm hkey, hkey⟩
        rw [PathTree.subtree_graft_of_incomparable hinc, ← PathTree.mem_children, ih]
        constructor
        · intro hcase
          obtain ⟨i, hi, rfl⟩ := hcase
          exact ⟨i, by simp; omega, rfl⟩
        · intro hcase
          obtain ⟨i, hi, rfl⟩ := hcase
          have hne : i ≠ elements.length := fun h => hkey (by rw [h])
          exact ⟨i, by simp at hi; omega, rfl⟩

theorem children_storedList_perm :
    (storedList elements).children.Perm ((List.range elements.length).map toString) := by
  refine (List.perm_ext_iff_of_nodup (List.nodup_dedup _) ?_).mpr fun key => ?_
  · exact List.nodup_range.map fun i j h => toString_inj.mp h
  · refine mem_children_storedList.trans ?_
    rw [List.mem_map]
    exact exists_congr fun i => and_congr (List.mem_range).symm eq_comm

theorem foldl_max_range (n : Nat) : (List.range (n + 1)).foldl max 0 = n := by
  induction n with
  | zero => rfl
  | succ n ih =>
      rw [List.range_succ, List.foldl_append, ih]
      simp

/-- The largest index. -/
theorem maxKey_storedList (h : elements ≠ []) :
    ((storedList elements).children.filterMap Snapshot.intKey).foldl max 0 + 1 = elements.length := by
  have hperm : ((storedList elements).children.filterMap Snapshot.intKey).Perm
      (List.range elements.length) := by
    refine (children_storedList_perm.filterMap _).trans (List.Perm.of_eq ?_)
    rw [List.filterMap_map]
    simp only [Function.comp_def, Snapshot.intKey_toString, List.filterMap_some]
  obtain ⟨n, hn⟩ := Nat.exists_eq_succ_of_ne_zero (List.length_pos_iff.mpr h).ne'
  rw [hperm.foldl_eq, hn, foldl_max_range]

theorem exportsArray_storedList (h : elements ≠ []) : (storedList elements).exportsArray := by
  have hlength : (storedList elements).children.length = elements.length := by
    rw [children_storedList_perm.length_eq, List.length_map, List.length_range]
  have hmax := maxKey_storedList h
  have hmap : ((storedList elements).children.map Snapshot.intKey).filterMap id =
      (storedList elements).children.filterMap Snapshot.intKey := by
    rw [List.filterMap_map]
    rfl
  simp only [Snapshot.exportsArray, Bool.and_eq_true, List.all_eq_true, decide_eq_true_eq, hmap]
  constructor
  · intro key? hmem
    obtain ⟨key, hkey, rfl⟩ := List.mem_map.mp hmem
    obtain ⟨i, -, rfl⟩ := mem_children_storedList.mp hkey
    rw [Snapshot.intKey_toString]
    rfl
  · rw [List.length_map, hlength]
    omega

end storedList

theorem mapM_eq_some_map {α β : Type} {f : α → Option β} {g : α → β} {as : List α}
    (h : ∀ a ∈ as, f a = some (g a)) : as.mapM f = some (as.map g) := by
  induction as with
  | nil => rfl
  | cons a as ih =>
      rw [List.mapM_cons, h a List.mem_cons_self, ih fun a ha => h a (List.mem_cons_of_mem _ ha)]
      rfl

/-- **The array round trip.** A list of strings that is not empty is read back. -/
theorem Snapshot.stringArray?_storedList {dict : Snapshot} {key : String} {elements : List String}
    (h : elements ≠ []) (hdict : dict.subtree [key] = storedList elements) :
    dict.stringArray? key = some (elements.map some) := by
  have hne : (storedList elements).children ≠ [] := by
    refine List.ne_nil_of_mem (mem_children_storedList.mpr ⟨0, ?_, rfl⟩)
    exact List.length_pos_iff.mpr h
  unfold stringArray?
  simp only [hdict]
  rw [if_neg (by simp [hne, exportsArray_storedList h]), maxKey_storedList h]
  have hmap : elements.map some = (List.range elements.length).map fun i => elements[i]? := by
    refine List.ext_getElem (by simp) fun i hi hi' => ?_
    simp at hi
    simp [hi]
  rw [hmap]
  -- no index up to the largest one is free, so no element is read as nil
  refine mapM_eq_some_map fun i hi => ?_
  obtain ⟨s, hs⟩ : ∃ s, elements[i]? = some s :=
    ⟨_, List.getElem?_eq_getElem (List.mem_range.mp hi)⟩
  have hget : (storedList elements).get [toString i] = some (.string s) := by
    rw [get_storedList, hs]
    rfl
  have hne : (storedList elements).subtree [toString i] ≠ ∅ :=
    PathTree.mem_children.mp (PathTree.mem_children_of_get hget)
  rw [if_neg hne, PathTree.get_subtree, List.append_nil, hget, hs]
  rfl

/-! ### The four readers -/

/-- `friend` as the closure of `addFriendButtonTapped` decodes it for the typed id. -/
def friendOfSnapshot (id : String) (snapshot : Snapshot) : Except Fault User := do
  let dict ← unwrap "dict" snapshot.dictionary?
  return ⟨some id, dict.string? "name", dict.string? "state", dict.string? "avatarUrl",
    dict.stringArray? "friendList"⟩

/-- `createNewChatBox` is called with this friend. -/
theorem addFriendButtonTappedValue_eq {dev : Device} {i : Nat} {id : String} {snapshot : Snapshot}
    {friend : User} (h : friendOfSnapshot id snapshot = .ok friend) :
    FriendViewController.addFriendButtonTappedValue dev i id snapshot =
      ChatBusiness.createNewChatBox (dev.delivered i (.lookup id) snapshot) friend
        dev.currentUser := by
  obtain ⟨dict, hdict, hfriend⟩ := bind_eq_ok.mp h
  rw [unwrap_eq_ok] at hdict
  rw [← Except.ok.inj hfriend]
  simp only [FriendViewController.addFriendButtonTappedValue, hdict]
  rfl

/-- `user` as the closure of `fetchFacebookDataDidEnd` completes it. -/
def knownUserOfSnapshot (user : User) (snapshot : Snapshot) : Except Fault User := do
  let dict ← unwrap "dict" snapshot.dictionary?
  return { user with friendList := dict.stringArray? "friendList" }

/-- The current user becomes this one. -/
theorem currentUser_of_fetchFacebookDataDidEndValue {dev dev' : Device} {i : Nat} {user known : User}
    {userDictionary snapshot : Snapshot} (h : knownUserOfSnapshot user snapshot = .ok known)
    (hdev : LogInViewController.fetchFacebookDataDidEndValue dev i user userDictionary snapshot =
      .ok dev') : dev'.currentUser = known := by
  obtain ⟨dict, hdict, hknown⟩ := bind_eq_ok.mp h
  rw [unwrap_eq_ok] at hdict
  simp only [LogInViewController.fetchFacebookDataDidEndValue, hdict] at hdev
  rw [← Except.ok.inj hdev, ← Except.ok.inj hknown]
  rfl

/-- Written anywhere into any database, the value is encoded, and decoded as it was. -/
def DecodesBack {α : Type} (encode : α → Except Fault Snapshot) (decode : Snapshot → Except Fault α)
    (a : α) : Prop :=
  ∀ tree path, ∃ d, encode a = .ok d ∧ decode ((Write.apply tree ⟨path, d⟩).subtree path) = .ok a

theorem decodesBack_of_eq {α : Type} {encode : α → Except Fault Snapshot}
    {decode : Snapshot → Except Fault α} {a : α} {d : Snapshot} (h : encode a = .ok d) :
    DecodesBack encode decode a ↔ decode d = .ok a := by
  have hread : ∀ (tree : Snapshot) (path : Path), (Write.apply tree ⟨path, d⟩).subtree path = d :=
    fun tree path => PathTree.subtree_graft_self tree d path
  constructor
  · intro hback
    obtain ⟨d', hd', hdecode⟩ := hback ∅ []
    cases h.symm.trans hd'
    rwa [hread] at hdecode
  · intro hdecode tree path
    exact ⟨d, h, by rw [hread, hdecode]⟩

/-! ### What has all its fields -/

namespace UserRecord

/-- The user with these friends. -/
def withFriends (u : UserRecord) (friends : List String) : User :=
  { u.toUser with friendList := some (friends.map some) }

/-- The dictionary stored for the user with these friends. -/
def dictWith (u : UserRecord) (friends : List String) : Snapshot :=
  (PathTree.ofFields [("id", .string u.id), ("name", .string u.name),
    ("state", .string u.state), ("avatarUrl", .string u.avatarUrl)]).graft ["friendList"]
      (storedList friends)

variable (u : UserRecord) (friends : List String)

theorem getDictionary_withFriends : (u.withFriends friends).getDictionary = .ok (u.dictWith friends) :=
  rfl

theorem get_dictWith {key : String} (hkey : key ≠ "friendList") :
    (u.dictWith friends).get [key] = u.dict.get [key] := by
  have hinc : Incomparable ["friendList"] [key] := by
    simp [Incomparable, hkey, Ne.symm hkey]
  have hget : ∀ t : Snapshot, t.get [key] = (t.subtree [key]).get [] := fun t => by
    rw [PathTree.get_subtree, List.append_nil]
  rw [hget, hget, dictWith, dict, PathTree.subtree_graft_of_incomparable hinc,
    PathTree.subtree_graft_of_incomparable hinc]

theorem string?_dictWith {key : String} (hkey : key ≠ "friendList") :
    (u.dictWith friends).string? key = u.dict.string? key := by
  rw [Snapshot.string?, Snapshot.string?, get_dictWith u friends hkey]

theorem dictionary?_dictWith : (u.dictWith friends).dictionary? = some (u.dictWith friends) :=
  Snapshot.dictionary?_of_get "name" (by decide)
    (by rw [get_dictWith u friends (by decide), get_dict _ _ (by decide)]; simp [List.lookup_cons]; rfl)

/-- The friend list comes back unless it is empty. -/
theorem stringArray?_dictWith :
    (u.dictWith friends).stringArray? "friendList" =
      if friends = [] then none else some (friends.map some) := by
  have hsubtree : (u.dictWith friends).subtree ["friendList"] = storedList friends :=
    PathTree.subtree_graft_self _ _ _
  split
  · next h =>
    subst h
    simp [Snapshot.stringArray?, hsubtree]
  · next h => exact Snapshot.stringArray?_storedList h hsubtree

end UserRecord

/-- A `Chat`, a `Message` or a `User` with all its fields. -/
inductive Entity
  | chat (r : ChatRecord)
  | message (r : MessageRecord)
  | user (u : UserRecord) (friends : List String)

/-- The app's own reader gives the entity back; for a user both readers do. -/
def Entity.DecodesBack : Entity → Prop
  | chat r => MyChat.DecodesBack Chat.toDictionary Chat.ofSnapshot r.toChat
  | message r => MyChat.DecodesBack Message.getDictionary Message.ofSnapshot r.toMessage
  | user u friends =>
      MyChat.DecodesBack User.getDictionary (friendOfSnapshot u.id) (u.withFriends friends) ∧
        MyChat.DecodesBack User.getDictionary (knownUserOfSnapshot u.toUser) (u.withFriends friends)

/-- Both readers take the friend list as they find it. -/
theorem friendOfSnapshot_dictWith (u : UserRecord) (friends : List String) :
    friendOfSnapshot u.id (u.dictWith friends) =
      .ok { u.toUser with friendList := (u.dictWith friends).stringArray? "friendList" } := by
  have hstring : ∀ key, key ≠ "friendList" → (u.dictWith friends).string? key = u.dict.string? key :=
    fun key => u.string?_dictWith friends
  simp [friendOfSnapshot, u.dictionary?_dictWith friends, hstring, bind, Except.bind]
  rfl

theorem knownUserOfSnapshot_dictWith (u : UserRecord) (friends : List String) :
    knownUserOfSnapshot u.toUser (u.dictWith friends) =
      .ok { u.toUser with friendList := (u.dictWith friends).stringArray? "friendList" } := by
  simp [knownUserOfSnapshot, u.dictionary?_dictWith friends, bind, Except.bind]
  rfl

theorem withFriends_iff (u : UserRecord) (friends : List String) :
    (.ok { u.toUser with friendList := (u.dictWith friends).stringArray? "friendList" } :
      Except Fault User) = .ok (u.withFriends friends) ↔ friends ≠ [] := by
  rw [u.stringArray?_dictWith friends]
  by_cases h : friends = [] <;> simp [h, UserRecord.withFriends]

/-- **What decodes back to itself.** Everything but a user with an empty friend list. -/
theorem decodesBack_iff (e : Entity) : e.DecodesBack ↔ ∀ u, e ≠ .user u [] := by
  cases e with
  | chat r =>
      refine iff_of_true ?_ (by simp)
      exact (decodesBack_of_eq r.toDictionary_toChat).mpr r.ofSnapshot_dict
  | message r =>
      refine iff_of_true ?_ (by simp)
      exact (decodesBack_of_eq r.getDictionary_toMessage).mpr r.ofSnapshot_dict
  | user u friends =>
      have hencode := u.getDictionary_withFriends friends
      rw [Entity.DecodesBack, decodesBack_of_eq hencode, decodesBack_of_eq hencode,
        friendOfSnapshot_dictWith, knownUserOfSnapshot_dictWith, withFriends_iff, and_self]
      simp

/-- A user without friends comes back without a list of friends. -/
theorem empty_friendList_is_lost : ¬ ∀ e : Entity, e.DecodesBack := by
  intro h
  have hback := (h (.user ⟨"1", "name 1", "Online", "url 1"⟩ [])).1
  rw [decodesBack_of_eq (UserRecord.getDictionary_withFriends _ _), friendOfSnapshot_dictWith,
    withFriends_iff] at hback
  exact hback rfl

end MyChat
