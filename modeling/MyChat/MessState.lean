import MyChat.ChatTable
import MyChat.CreateIfAbsent

/-!
# MyChat.MessState

The words for the state of a chat. `createNewChatBox` writes `SEEN`, a send writes
`SENT_BY_YOU` and `SENT_BY_FRIEND`; `setUpViewWith` knows `SENT_FROM_YOU`,
`SENT_FROM_FRIEND`, `SEEN_FROM_YOU` and `SEEN_FROM_FRIEND`. No word is in both lists, so
no row that was ever stored takes a branch (`branch_of_stored`), and reader and writers
agree exactly as long as no row is stored (`messStates_agree_iff`).
-/

namespace MyChat

variable {ι : Type} [DecidableEq ι]

/-- The words that are written. -/
def messStates : List Scalar :=
  [.string "SEEN", .string "SENT_BY_YOU", .string "SENT_BY_FRIEND"]

/-- Every field `messState` holds one of them. -/
def StatesOk (t : Snapshot) : Prop :=
  ∀ x ∈ t.leaves, x.1 ≠ [] ∧ (x.1.getLast? = some "messState" → x.2 ∈ messStates)

namespace StatesOk

variable {t d : Snapshot}

theorem empty : StatesOk ∅ := by simp [StatesOk]

theorem graft (ht : StatesOk t) (hd : StatesOk d) (path : Path) : StatesOk (t.graft path d) := by
  intro x hx
  rcases PathTree.mem_graft.mp hx with ⟨hx, -⟩ | ⟨q, hq, hpath⟩
  · exact ht x hx
  · obtain ⟨hne, hstate⟩ := hd (q, x.2) hq
    rw [hpath]
    refine ⟨by simp [hne], fun hlast => hstate ?_⟩
    rw [List.getLast?_append_of_ne_nil _ hne] at hlast
    exact hlast

/-- A dictionary of scalars needs one look at its field. -/
theorem ofFields {fields : List (String × Scalar)}
    (h : ∀ f ∈ fields, f.1 = "messState" → f.2 ∈ messStates) : StatesOk (.ofFields fields) := by
  intro x hx
  obtain ⟨f, hf, rfl⟩ := PathTree.mem_of_mem_leaves_ofFields hx
  exact ⟨by simp, fun hlast => h f hf (Option.some.inj hlast)⟩

theorem message {m : Message} (h : m.getDictionary = .ok d) : StatesOk d := by
  simp only [Message.getDictionary, bind_eq_ok, unwrap_eq_ok] at h
  obtain ⟨_, -, _, -, _, -, _, -, _, -, _, -, hd⟩ := h
  rw [← Except.ok.inj hd]
  exact ofFields (by simp)

theorem chat {c : Chat} (h : c.toDictionary = .ok d)
    (hstate : ∀ s, c.messState = some s → Scalar.string s ∈ messStates) : StatesOk d := by
  simp only [Chat.toDictionary, bind_eq_ok, unwrap_eq_ok] at h
  obtain ⟨_, -, _, -, _, -, messState, hmess, _, -, hd⟩ := h
  rw [← Except.ok.inj hd]
  have hmem := hstate messState hmess
  -- the fourth field is the state, and the optional last one is the url
  refine ofFields fun f hf hkey => ?_
  rcases List.mem_append.mp hf with hf | hf
  · simp only [List.mem_cons, List.not_mem_nil, or_false] at hf
    rcases hf with rfl | rfl | rfl | rfl | rfl | rfl
    · simp at hkey
    · simp at hkey
    · simp at hkey
    · exact hmem
    · simp at hkey
    · simp at hkey
  · obtain ⟨url, -, rfl⟩ := List.mem_map.mp hf
    simp at hkey

theorem user (u : UserRecord) : StatesOk u.dict :=
  graft (ofFields (by simp)) empty _

end StatesOk

/-- The state of a chat that is decoded from such a tree. -/
theorem mem_messStates_of_ofSnapshot {t : Snapshot} {path : Path} {chat : Chat} (ht : StatesOk t)
    (h : Chat.ofSnapshot (t.subtree path) = .ok chat) :
    ∃ s, chat.messState = some s ∧ Scalar.string s ∈ messStates := by
  simp only [Chat.ofSnapshot, bind_eq_ok, unwrap_eq_ok] at h
  obtain ⟨dict, hdict, chatId, -, name, -, lastMessage, -, messState, hstate, ts, -, url, -, hchat⟩ := h
  rw [← Except.ok.inj hchat]
  obtain rfl := Snapshot.eq_of_dictionary? hdict
  refine ⟨messState, rfl, ?_⟩
  obtain ⟨v, hv, hs⟩ := Option.bind_eq_some_iff.mp hstate
  rw [PathTree.get_subtree] at hv
  -- the field is a leaf of the tree whose path ends in its name
  have hmem := (ht _ (PathTree.get_eq_some_iff.mp hv)).2 List.getLast?_concat
  cases v with
  | string s =>
      obtain rfl : s = messState := Option.some.inj hs
      exact hmem
  | bool b => cases hs
  | int n => cases hs

/-! ### Runs -/

section runs

variable {s : System ι} {guard : System ι → Event ι → Prop}

/-- The dictionary that a first login stores is one of a user. -/
theorem loginStates (h : System.Reachable guard s) (δ : ι) :
    ∀ ref user userDictionary last,
      ⟨ref, .login user userDictionary, last⟩ ∈ (s.devices δ).observers → StatesOk userDictionary := by
  refine System.device_invariant (P := fun _ dev => ∀ ref user userDictionary last,
    ⟨ref, .login user userDictionary, last⟩ ∈ dev.observers → StatesOk userDictionary) ?_ ?_ ?_ h δ
  · simp [Device.launch]
  · exact fun _ _ _ hinv => hinv
  · intro s δ action dev' _ hinv _ hact ref user userDictionary last hmem
    rcases (Device.act_inv hact).observes hmem with hmem | hobs
    · exact hinv ref user userDictionary last hmem
    cases hobs with
    | login hrequest htoken hname hurl href => exact .user _
    | fired hfires =>
        obtain ⟨last', hmem⟩ := hfires.mem
        exact hinv ref user userDictionary last' hmem
    | firedLogin friendList hfires =>
        obtain ⟨last', hmem⟩ := hfires.mem
        exact hinv _ _ _ last' hmem

/-- **What is written.** No write of any action brings another word. -/
theorem statesOk_of_writes {dev : Device} {server : Snapshot} {action : Action} {ws : List Write}
    (hlogin : ∀ ref user userDictionary last,
      ⟨ref, .login user userDictionary, last⟩ ∈ dev.observers → StatesOk userDictionary)
    (hws : dev.Writes server action ws) : ∀ w ∈ ws, StatesOk w.value := by
  intro w hw
  cases hws with
  | none => simp at hw
  | register hfires hid href =>
      obtain ⟨last, hmem⟩ := hfires.mem
      rw [List.mem_singleton.mp hw]
      exact hlogin _ _ _ last hmem
  | create hfires hdict hid hfriend href =>
      rw [List.mem_singleton.mp hw]
      exact .chat (ChatRecord.toDictionary_toChat _) (by simp [ChatRecord.toChat, newChat, messStates])
  | send hsend =>
      rcases ChatBoxViewController.mem_sendWrites hsend w hw with ⟨-, m, hm⟩ | ⟨-, c, hc, hstate⟩
      · exact .message hm
      · refine .chat hc fun s hs => ?_
        rcases hstate with hstate | hstate
        all_goals
          cases hstate.symm.trans hs
          simp [messStates]

/-- **Invariant.** Of every run, whatever happens in it: no other word is stored or queued. -/
theorem statesOk (h : System.Reachable guard s) :
    StatesOk s.server.tree ∧ ∀ δ, ∀ w ∈ (s.devices δ).pending, StatesOk w.value := by
  refine h.invariant (I := fun s => StatesOk s.server.tree ∧
    ∀ δ, ∀ w ∈ (s.devices δ).pending, StatesOk w.value) ?_ ?_
  · intro s hs
    refine ⟨by rw [hs.1]; exact .empty, fun δ => ?_⟩
    obtain ⟨randomId, -, hδ⟩ := hs.2 δ
    simp [hδ, Device.launch]
  · intro s e s' hr hinv _ hstep
    cases e with
    | act δ action =>
        obtain ⟨dev', hact, rfl⟩ := System.step_act_eq_ok.mp hstep
        refine ⟨hinv.1, (Function.forall_update_iff s.devices
          (fun _ dev => ∀ w ∈ dev.pending, StatesOk w.value)).mpr ⟨?_, fun δ' _ => hinv.2 δ'⟩⟩
        rcases (Device.act_inv hact).writes with ⟨-, -, hnil⟩ | ⟨ws, hws, hpending⟩
        · simp [hnil]
        · rw [hpending]
          exact List.forall_mem_append.mpr
            ⟨hinv.2 δ, statesOk_of_writes (loginStates hr δ) hws⟩
    | flush δ =>
        obtain ⟨w, ws, hpending, rfl⟩ := System.step_flush_eq_ok.mp hstep
        have hδ := hinv.2 δ
        rw [hpending] at hδ
        obtain ⟨hw, hws⟩ := List.forall_mem_cons.mp hδ
        exact ⟨hinv.1.graft hw w.path, (Function.forall_update_iff s.devices
          (fun _ dev => ∀ w ∈ dev.pending, StatesOk w.value)).mpr ⟨hws, fun δ' _ => hinv.2 δ'⟩⟩

/-- **No branch.** Whatever is stored anywhere as a chat, `setUpViewWith` does not know
its state. -/
theorem branch_of_stored (h : System.Reachable guard s) {path : Path} {chat : Chat}
    (hchat : Chat.ofSnapshot (s.server.tree.subtree path) = .ok chat) :
    ChatTableRow.branch chat.messState = none := by
  obtain ⟨word, hword, hmem⟩ := mem_messStates_of_ofSnapshot (statesOk h).1 hchat
  rw [hword]
  simp only [messStates, List.mem_cons, Scalar.string.injEq, List.not_mem_nil, or_false] at hmem
  rcases hmem with rfl | rfl | rfl <;> decide

/-- A row says that its last message is from its owner. -/
def ChatTableRow.FromYou (messState : Option String) : Prop :=
  branch messState = some .sentFromYou ∨ branch messState = some .seenFromYou

/-- A row says that its last message is from the friend. -/
def ChatTableRow.FromFriend (messState : Option String) : Prop :=
  branch messState = some .sentFromFriend ∨ branch messState = some .seenFromFriend

omit [DecidableEq ι] in
/-- The messages that the sends of a run wrote, oldest first. -/
def sentMessages (tr : List (System ι × Event ι × System ι)) : List Message :=
  tr.filterMap fun x =>
    match x.2.1 with
    | .act δ (.sendTapped ..) =>
        ((x.2.2.devices δ).pending.drop (x.1.devices δ).pending.length).head?.bind fun w =>
          (Message.ofSnapshot w.value).toOption
    | _ => none

/-- The message is one of the chat of `a` and `b`. -/
def Message.IsBetween (a b : UserId) (m : Message) : Prop :=
  m.fromId = some a ∧ m.toId = some b ∨ m.fromId = some b ∧ m.toId = some a

instance (a b : UserId) (m : Message) : Decidable (m.IsBetween a b) :=
  inferInstanceAs (Decidable
    (m.fromId = some a ∧ m.toId = some b ∨ m.fromId = some b ∧ m.toId = some a))

/-- Every stored row takes a branch, and when nothing is queued, the one of the direction
in which the last message of the chat went. -/
structure MessStatesAgree (tr : List (System ι × Event ι × System ι)) (s : System ι) : Prop where
  recognised : ∀ owner key chat,
    Chat.ofSnapshot (s.server.tree.subtree ["chatbox", owner, key]) = .ok chat →
      (ChatTableRow.branch chat.messState).isSome
  direction : (∀ δ, (s.devices δ).pending = []) → ∀ a b chat m, a ≠ b →
    Chat.ofSnapshot (s.server.tree.subtree (rowPath a b)) = .ok chat →
    ((sentMessages tr).filter fun m => m.IsBetween a b).getLast? = some m →
      (ChatTableRow.FromYou chat.messState ↔ m.fromId = some a) ∧
        (ChatTableRow.FromFriend chat.messState ↔ m.fromId = some b)

/-- **When writers and reader agree.** In every state of every run: exactly if no row is
stored. -/
theorem messStates_agree_iff {tr : List (System ι × Event ι × System ι)}
    (hrun : System.Run guard tr s) :
    MessStatesAgree tr s ↔ ∀ owner key chat,
      Chat.ofSnapshot (s.server.tree.subtree ["chatbox", owner, key]) ≠ .ok chat := by
  constructor
  · intro h owner key chat hchat
    have hsome := h.recognised owner key chat hchat
    rw [branch_of_stored hrun.reachable hchat] at hsome
    cases hsome
  · intro h
    exact ⟨fun owner key chat hchat => absurd hchat (h owner key chat),
      fun _ a b chat _ _ hchat => absurd hchat (h a (chatKey a b) chat)⟩

end runs

/-- Two users are registered. -/
theorem messStates_agree_sample :
    ∃ tr, ∃ s : System Bool, System.Run (fun _ _ => True) tr s ∧ s.server.log ≠ [] ∧
      (MessStatesAgree tr s ↔ ∀ owner key chat,
        Chat.ofSnapshot (s.server.tree.subtree ["chatbox", owner, key]) ≠ .ok chat) := by
  have hrun : (Transition.run System.step (fun _ _ => true) sampleStart
      (sampleLogIn true "2" ++ sampleLogIn false "1")).map
        (fun s => decide (s.server.log = [])) = some false := by
    decide +kernel
  obtain ⟨s, hs, hlog⟩ := Option.map_eq_some_iff.mp hrun
  have hstart : System.Run (fun _ _ => True) [] sampleStart := .start initial_sampleStart
  obtain ⟨tr, htr, -⟩ := hstart.of_run (fun _ _ _ => trivial) hs
  exact ⟨_, s, htr, of_decide_eq_false hlog, messStates_agree_iff htr⟩

/-- User 1 adds user 2: the new row takes no branch. -/
theorem messStates_disagree :
    ¬ ∀ tr (s : System Bool), System.Run (fun _ _ => True) tr s → MessStatesAgree tr s := by
  intro h
  have hrun : (Transition.run System.step (fun _ _ => true) sampleStart
      (sampleLogIn true "2" ++ sampleLogIn false "1" ++
        [.act false (.addFriend "2"), .act false (.fire 1 0), .act false (.fire 2 100),
          .flush false])).bind
      (fun s => (Chat.ofSnapshot (s.server.tree.subtree ["chatbox", "1", "1_2"])).toOption.map
        Chat.messState) = some (some "SEEN") := by
    decide +kernel
  obtain ⟨s, hs, hstate⟩ := Option.bind_eq_some_iff.mp hrun
  obtain ⟨chat, hchat, hstate⟩ := Option.map_eq_some_iff.mp hstate
  have hstart : System.Run (fun _ _ => True) [] sampleStart := .start initial_sampleStart
  obtain ⟨tr, htr, -⟩ := hstart.of_run (fun _ _ _ => trivial) hs
  have hsome := (h _ s htr).recognised "1" "1_2" chat (eq_ok_of_toOption hchat)
  rw [hstate] at hsome
  exact absurd hsome (by decide)

end MyChat
