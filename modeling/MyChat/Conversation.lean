import MyChat.Issued

/-!
# MyChat.Conversation

The contract behind the two invariants about conversations. A record that is issued
relies on earlier writes of the same client: the second copy of a message on the
first, and a row on the message it shows. Since a client's writes are applied in the
order it issued them, what a record relies on is there whenever the record is.

Two more invariants look at everything issued so far, applied or not: a message id
belongs to one message (`uniqueIds`), and a message has both its copies and both its
rows (`complete`).
-/

namespace MyChat

variable {ι : Type} [DecidableEq ι]

/-- The runs the invariants of conversations are about: clean ids, the given accounts
on each device, fresh message ids, and no queued write is lost. -/
def ConversationRun (account : ι → UserId → Prop) (s : System ι) (e : Event ι) : Prop :=
  CleanIds e ∧ LogsIn account e ∧ FreshIds s e ∧ NoLoss s e

/-- What a record relies on. -/
def RelyOn (account : ι → UserId → Prop) (δ : ι) (H : Set Write) : Record → Prop
  | .user _ => True
  | .chat owner peer c =>
      c.lastMessenger = ChatBusiness.greeting ∨
        ∃ m, (Record.message owner peer m).Sound ∧ (Record.message owner peer m).write ∈ H ∧
          m.message = c.lastMessenger ∧ m.ts = c.ts
  | .message owner peer m =>
      account δ m.fromId ∧ (owner = m.fromId ∧ peer = m.toId ∨
        owner = m.toId ∧ peer = m.fromId ∧ (Record.message peer owner m).write ∈ H)

/-- The contract: records rely on earlier writes. -/
def conversation (account : ι → UserId → Prop) : Contract ι := { plain account with
  guard := ConversationRun account
  issue := RelyOn account
  issue_mono := by
    intro δ H H' r hH h
    cases r with
    | user => trivial
    | chat owner peer c =>
        rcases h with h | ⟨m, hsound, hm, h⟩
        · exact Or.inl h
        · exact Or.inr ⟨m, hsound, hH hm, h⟩
    | message owner peer m =>
        obtain ⟨haccount, h | ⟨ho, hp, hm⟩⟩ := h
        · exact ⟨haccount, Or.inl h⟩
        · exact ⟨haccount, Or.inr ⟨ho, hp, hH hm⟩⟩
  logIn := fun h => ⟨h.1, h.2.1⟩
  reply := fun _ _ _ h _ _ => h
  addFriend := fun h => h.1
  register := fun _ => trivial
  decode := fun _ _ _ _ => trivial
  create := fun _ _ _ _ => Or.inl rfl
  send := by
    intro s δ screen text randomStr timestamp u friendId o c H _ _ hu hfriend _ _ m
    refine ⟨⟨hu.2, Or.inl ⟨rfl, rfl⟩⟩, fun hm => ⟨hu.2, Or.inr ⟨rfl, rfl, hm⟩⟩, fun hm => ?_,
      fun hm => ?_, trivial⟩
    · exact Or.inr ⟨m, ⟨hu.1, hfriend, Or.inl ⟨rfl, rfl⟩⟩, hm, rfl, rfl⟩
    · exact Or.inr ⟨m, ⟨hfriend, hu.1, Or.inr ⟨rfl, rfl⟩⟩, hm, rfl, rfl⟩ }

namespace Contract

variable {C : Contract ι} {s : System ι} {δ : ι}

/-- What the records appended by an action say about messages: there are none, or they
are the four records of a send. -/
theorem Appended.message_inv {action : Action} {rs : List Record} (h : C.Appended s δ action rs) :
    (∀ owner peer m, (Record.message owner peer m).write ∉ rs.map Record.write) ∨
      ∃ screen text randomStr timestamp u friendId c,
        action = .sendTapped screen text randomStr timestamp ∧ CleanId u.id ∧ CleanId friendId ∧
        rs = sendRecords u friendId c text randomStr timestamp := by
  cases h with
  | nothing => exact Or.inl fun _ _ _ hmem => by simp at hmem
  | register => exact Or.inl fun _ _ _ hmem => by simp [Record.write, Record.path] at hmem
  | create => exact Or.inl fun _ _ _ hmem => by simp [Record.write, Record.path] at hmem
  | send hrandom hu hclean hsending ho =>
      exact Or.inr ⟨_, _, _, _, _, _, _, rfl, C.session_clean hu, hclean, rfl⟩

end Contract

/-- The messages among the records of a send are the two copies of the message. -/
theorem message_mem_sendRecords {u : UserRecord} {friendId : UserId} {c : ChatRecord}
    {text randomStr : String} {timestamp : Int64} {owner peer : UserId} {m : MessageRecord}
    (hid : CleanId u.id) (hfriend : CleanId friendId) (hsound : (Record.message owner peer m).Sound)
    (hmem : (Record.message owner peer m).write ∈
      (sendRecords u friendId c text randomStr timestamp).map Record.write) :
    m = sentMessage u friendId text randomStr timestamp ∧
      (owner = u.id ∧ peer = friendId ∨ owner = friendId ∧ peer = u.id) := by
  obtain ⟨r, hr, hw⟩ := List.mem_map.mp hmem
  simp only [sendRecords, List.mem_cons, List.not_mem_nil, or_false] at hr
  rcases hr with rfl | rfl | rfl | rfl
  · have hsound' : (Record.message u.id friendId
        (sentMessage u friendId text randomStr timestamp)).Sound :=
      ⟨hid, hfriend, Or.inl ⟨rfl, rfl⟩⟩
    cases Record.write_inj hsound' hsound hw
    exact ⟨rfl, Or.inl ⟨rfl, rfl⟩⟩
  · have hsound' : (Record.message friendId u.id
        (sentMessage u friendId text randomStr timestamp)).Sound :=
      ⟨hfriend, hid, Or.inr ⟨rfl, rfl⟩⟩
    cases Record.write_inj hsound' hsound hw
    exact ⟨rfl, Or.inr ⟨rfl, rfl⟩⟩
  · simp [Record.write, Record.path] at hw
  · simp [Record.write, Record.path] at hw

/-- A message stored under `messages/a_b`. -/
theorem message_at {account : ι → UserId → Prop} {s : System ι} {a b : UserId}
    (h : (conversation account).Inv s) (ha : CleanId a) {id : String}
    (hne : s.server.tree.subtree ["messages", chatKey a b, id] ≠ ∅) :
    ∃ m, (conversation account).Known (applied s.server) (.message a b m) ∧ m.id = id ∧
      s.server.tree.subtree ["messages", chatKey a b, id] = m.dict := by
  obtain ⟨owner, peer, m, hknown, hkey, hid, hd⟩ := h.stored.message hne
  obtain ⟨rfl, rfl⟩ := chatKey_inj ha.1 hknown.sound.1.1 hkey
  exact ⟨m, hknown, hid, hd⟩

/-! ### What is issued -/

/-- One id, one message. -/
def UniqueIds (s : System ι) : Prop :=
  ∀ owner peer m owner' peer' m', (Record.message owner peer m).Sound →
    (Record.message owner' peer' m').Sound → Issued s (Record.message owner peer m).write →
    Issued s (Record.message owner' peer' m').write → m.id = m'.id → m = m'

/-- A message has both copies and both rows. -/
def Complete (s : System ι) : Prop :=
  ∀ owner peer m, (Record.message owner peer m).Sound → Issued s (Record.message owner peer m).write →
    Issued s (Record.message peer owner m).write ∧
      (∃ c, Issued s (Record.chat owner peer c).write) ∧
      ∃ c, Issued s (Record.chat peer owner c).write

/-! ### Runs -/

section runs

variable {account : ι → UserId → Prop} {s : System ι}

/-- **Step.** A send draws a fresh id. -/
theorem uniqueIds_step {e : Event ι} {s' : System ι} (hinv : (conversation account).Inv s)
    (h : UniqueIds s) (hfresh : FreshIds s e) (hstep : s.step e = .ok s') : UniqueIds s' := by
  intro owner peer m owner' peer' m' hsound hsound' hm hm' hid
  obtain ⟨rs, hrs, -, hback⟩ := hinv.issued_inv hstep
  have hold : (∀ owner peer m, (Record.message owner peer m).write ∉ rs.map Record.write) → m = m' :=
    fun hnone => h owner peer m owner' peer' m' hsound hsound'
      ((hback _ hm).resolve_right (hnone _ _ _)) ((hback _ hm').resolve_right (hnone _ _ _)) hid
  rcases hrs with rfl | ⟨δ, action, rfl, happ⟩
  · exact hold (by simp)
  rcases happ.message_inv with hnone | ⟨_, text, randomStr, _, u, f, c, rfl, hu, hf, rfl⟩
  · exact hold hnone
  rcases hback _ hm with hm | hm <;> rcases hback _ hm' with hm' | hm'
  · exact h owner peer m owner' peer' m' hsound hsound' hm hm' hid
  · obtain ⟨rfl, -⟩ := message_mem_sendRecords hu hf hsound' hm'
    exact absurd hid (hfresh owner peer m hm)
  · obtain ⟨rfl, -⟩ := message_mem_sendRecords hu hf hsound hm
    exact absurd hid.symm (hfresh owner' peer' m' hm')
  · obtain ⟨rfl, -⟩ := message_mem_sendRecords hu hf hsound hm
    obtain ⟨rfl, -⟩ := message_mem_sendRecords hu hf hsound' hm'
    rfl

/-- **Step.** A send issues both copies and both rows. -/
theorem complete_step {e : Event ι} {s' : System ι} (hinv : (conversation account).Inv s)
    (h : Complete s) (hloss : NoLoss s e) (hstep : s.step e = .ok s') : Complete s' := by
  intro owner peer m hsound hm
  obtain ⟨rs, hrs, hnew, hback⟩ := hinv.issued_inv hstep
  have hold : Issued s (Record.message owner peer m).write →
      Issued s' (Record.message peer owner m).write ∧
        (∃ c, Issued s' (Record.chat owner peer c).write) ∧
        ∃ c, Issued s' (Record.chat peer owner c).write := fun hm => by
    obtain ⟨hcopy, ⟨c, hc⟩, c', hc'⟩ := h owner peer m hsound hm
    have hmono := fun {w} => hinv.issued_mono hloss hstep (w := w)
    exact ⟨hmono hcopy, ⟨c, hmono hc⟩, c', hmono hc'⟩
  rcases hback _ hm with hm | hm
  · exact hold hm
  rcases hrs with rfl | ⟨δ, action, rfl, happ⟩
  · simp at hm
  rcases happ.message_inv with hnone | ⟨_, text, randomStr, _, u, f, c, rfl, hu, hf, rfl⟩
  · exact absurd hm (hnone _ _ _)
  simp only [sendRecords, List.forall_mem_cons] at hnew
  obtain ⟨h₁, h₂, h₃, h₄, -⟩ := hnew
  obtain ⟨rfl, ⟨rfl, rfl⟩ | ⟨rfl, rfl⟩⟩ := message_mem_sendRecords hu hf hsound hm
  · exact ⟨h₂, ⟨_, h₃⟩, _, h₄⟩
  · exact ⟨h₁, ⟨_, h₄⟩, _, h₃⟩

omit [DecidableEq ι] in
theorem not_issued_initial (h : System.Initial s) (w : Write) : ¬ Issued s w := by
  intro hcase
  rcases hcase with hw | ⟨δ, hw⟩
  · simp [h.1, Server.empty] at hw
  · obtain ⟨randomId, -, hδ⟩ := h.2 δ
    simp [hδ, Device.launch] at hw

/-- **Invariant.** One id, one message. -/
theorem uniqueIds (h : System.Reachable (ConversationRun account) s) : UniqueIds s := by
  refine h.invariant ?_ ?_
  · intro s hs _ _ _ _ _ _ _ _ hm
    exact absurd hm (not_issued_initial hs _)
  · intro s e s' hr hunique hguard hstep
    exact uniqueIds_step (Contract.inv hr) hunique hguard.2.2.1 hstep

/-- **Invariant.** A message has both copies and both rows. -/
theorem complete (h : System.Reachable (ConversationRun account) s) : Complete s := by
  refine h.invariant ?_ ?_
  · intro s hs _ _ _ _ hm
    exact absurd hm (not_issued_initial hs _)
  · intro s e s' hr hcomplete hguard hstep
    exact complete_step (Contract.inv hr) hcomplete hguard.2.2.2 hstep

end runs

/-- The executable form of the assumptions, with one account on each of two devices. -/
def conversationRun (s : System Bool) (e : Event Bool) : Bool :=
  decide (CleanIds e) && decide (LogsIn (fun δ a => a = accountOf δ) e) && freshIds s e && noLoss s e

theorem conversationRun_sound (s : System Bool) (e : Event Bool) (h : conversationRun s e = true) :
    ConversationRun (fun δ a => a = accountOf δ) s e := by
  simp only [conversationRun, Bool.and_eq_true, decide_eq_true_eq] at h
  exact ⟨h.1.1.1, h.1.1.2, freshIds_sound h.1.2, noLoss_sound h.2⟩

end MyChat
