import MyChat.Contract

/-!
# MyChat.Issued

Which records an action appends to the queue of its device (`Contract.Inv.appended`),
and how the set of all writes ever issued (`Issued`) develops along a run: nothing
that was issued disappears as long as no process ends with writes queued
(`Issued.mono`), and what appears is a user record, the row of a new chat or the four
records of one send (`issued_inv`).

The assumptions that the claims make about runs are stated here too.
-/

namespace MyChat

variable {ι : Type} [DecidableEq ι]

/-! ### Assumptions about runs -/

/-- The ids that enter the system, at login and in the add-friend dialog, contain
neither `_` nor `/`. -/
def CleanIds (e : Event ι) : Prop :=
  match e with
  | .act _ (.logIn account) => CleanId account
  | .act _ (.addFriend id) => CleanId id
  | _ => True

instance (e : Event ι) : Decidable (CleanIds e) := by
  unfold CleanIds
  split <;> infer_instance

/-- Only the given accounts log in on a device. -/
def LogsIn (account : ι → UserId → Prop) (e : Event ι) : Prop :=
  match e with
  | .act δ (.logIn a) => account δ a
  | _ => True

instance (account : ι → UserId → Prop) [∀ δ a, Decidable (account δ a)] (e : Event ι) :
    Decidable (LogsIn account e) := by
  unfold LogsIn
  split <;> infer_instance

/-- A reply that is no error carries the data of the account whose token was current
when the request was issued. -/
def Honest (me : UserId → Json) (s : System ι) (e : Event ι) : Prop :=
  match e with
  | .act δ (.reply i (some result)) =>
      ∃ a, (s.devices δ).requests[i]? = some (some a) ∧
        facebookName result = facebookName (me a) ∧ facebookUrl result = facebookUrl (me a)
  | _ => True

/-- Name and picture of the record are those of its account. -/
def Genuine (me : UserId → Json) (u : UserRecord) : Prop :=
  facebookName (me u.id) = some u.name ∧ facebookUrl (me u.id) = some u.avatarUrl

/-- The write was applied by the server or is queued on some device. -/
def Issued (s : System ι) (w : Write) : Prop :=
  w ∈ s.server.log ∨ ∃ δ, w ∈ (s.devices δ).pending

/-- The id drawn for a message was not drawn before. -/
def FreshIds (s : System ι) (e : Event ι) : Prop :=
  match e with
  | .act _ (.sendTapped _ _ randomStr _) =>
      ∀ owner peer m, Issued s (Record.message owner peer m).write → m.id ≠ randomStr
  | _ => True

/-- A process only ends with nothing queued, so every write is applied in the end. -/
def NoLoss (s : System ι) (e : Event ι) : Prop :=
  match e with
  | .act δ (.relaunch _) => (s.devices δ).pending = []
  | _ => True

/-- The contract that promises nothing but clean ids and the accounts of each device. -/
def plain (account : ι → UserId → Prop) : Contract ι where
  guard _ e := CleanIds e ∧ LogsIn account e
  account δ a := CleanId a ∧ account δ a
  session δ u := CleanId u.id ∧ account δ u.id
  issue _ _ _ := True
  object _ _ _ := True
  peer _ _ := True
  issue_mono _ h := h
  object_mono _ h := h
  peer_mono _ h := h
  session_clean h := h.1
  logIn h := h
  reply _ _ _ h _ _ := h
  addFriend h := h.1
  register _ := trivial
  decode _ _ _ _ := trivial
  create _ _ _ _ := trivial
  tap _ _ _ _ := trivial
  send _ _ _ _ _ _ := ⟨trivial, fun _ => trivial, fun _ => trivial, fun _ => trivial, trivial⟩

/-- What clean ids alone give. -/
theorem plain_inv {s : System ι} (h : System.Reachable (fun _ e => CleanIds e) s) :
    (plain fun (_ : ι) _ => True).Inv s := by
  refine Contract.inv (h.mono fun s e hg => ⟨hg, ?_⟩)
  unfold LogsIn
  split <;> trivial

/-! ### Executable runs of two devices

The assumptions as checks, and the runs that the examples share. -/

/-- Executable form of `Honest`. -/
def honest (me : UserId → Json) (s : System Bool) (e : Event Bool) : Bool :=
  match e with
  | .act δ (.reply i (some result)) =>
      match (s.devices δ).requests[i]? with
      | some (some a) => facebookName result = facebookName (me a) ∧
          facebookUrl result = facebookUrl (me a)
      | _ => false
  | _ => true

/-- Executable form of `FreshIds`. -/
def freshIds (s : System Bool) (e : Event Bool) : Bool :=
  match e with
  | .act _ (.sendTapped _ _ randomStr _) =>
      (s.server.log ++ (s.devices false).pending ++ (s.devices true).pending).all
        fun w => w.path.getLast? ≠ some randomStr
  | _ => true

/-- Executable form of `NoLoss`. -/
def noLoss (s : System Bool) (e : Event Bool) : Bool :=
  match e with
  | .act δ (.relaunch _) => (s.devices δ).pending = []
  | _ => true

theorem honest_sound {me : UserId → Json} {s : System Bool} {e : Event Bool}
    (h : honest me s e = true) : Honest me s e := by
  unfold honest at h
  unfold Honest
  split at h
  · next δ i result =>
    split at h
    · next a ha =>
      have hdata := of_decide_eq_true h
      exact ⟨a, ha, hdata⟩
    · cases h
  · next hother =>
    split
    · next δ i result => exact absurd rfl (hother δ i result)
    · trivial

theorem freshIds_sound {s : System Bool} {e : Event Bool} (h : freshIds s e = true) :
    FreshIds s e := by
  unfold freshIds at h
  unfold FreshIds
  split at h
  · next δ screen text randomStr timestamp =>
    intro owner peer m hissued hid
    have hmem : (Record.message owner peer m).write ∈
        s.server.log ++ (s.devices false).pending ++ (s.devices true).pending := by
      rcases hissued with hmem | ⟨_ | _, hmem⟩ <;> simp [hmem]
    have hpath := List.all_eq_true.mp h _ hmem
    simp [Record.write, Record.path, hid] at hpath
  · next hother =>
    split
    · next δ screen text randomStr timestamp =>
      exact absurd rfl (hother δ screen text randomStr timestamp)
    · trivial

theorem noLoss_sound {s : System Bool} {e : Event Bool} (h : noLoss s e = true) : NoLoss s e := by
  unfold noLoss at h
  unfold NoLoss
  split at h
  · next δ randomId => exact of_decide_eq_true h
  · next hother =>
    split
    · next δ randomId => exact absurd rfl (hother δ randomId)
    · trivial

/-- One account on each of two devices. -/
def accountOf (δ : Bool) : UserId := if δ then "2" else "1"

/-- An account's data, as the Graph API returns it. -/
def sampleMe (account : UserId) : Json :=
  .dictionary [("name", .string ("name " ++ account)), ("picture",
    .dictionary [("data", .dictionary [("url", .string ("url " ++ account))])])]

/-- An id as `genRandomString` draws it. -/
def sampleId (c : Char) : String := String.ofList (List.replicate 20 c)

/-- Nothing stored, two devices just started. -/
def sampleStart : System Bool := ⟨Server.empty, fun _ => Device.launch none (sampleId 'x')⟩

theorem initial_sampleStart : System.Initial sampleStart :=
  ⟨rfl, fun _ => ⟨sampleId 'x', by decide, rfl⟩⟩

/-- Device `δ` logs in `account` for the first time and registers it. -/
def sampleLogIn (δ : Bool) (account : UserId) : List (Event Bool) :=
  [.act δ (.logIn account), .act δ .fetchFacebookData, .act δ (.reply 0 (some (sampleMe account))),
    .act δ (.fire 0 0), .flush δ]

/-- Both users are registered; user 1 adds user 2 and opens the chat. -/
def sampleOpen : List (Event Bool) :=
  sampleLogIn true "2" ++ sampleLogIn false "1" ++
    [.act false (.addFriend "2"), .act false (.fire 1 0), .act false (.fire 2 100), .flush false,
      .act false (.homeWillAppear 0), .act false (.fire 3 0), .act false (.rowTapped 0 0)]

/-- What one send of user 1 is, with its four writes applied. -/
def sampleSend (text : String) (c : Char) (timestamp : Int64) : List (Event Bool) :=
  [.act false (.sendTapped 0 text (sampleId c) timestamp), .flush false, .flush false,
    .flush false, .flush false]

/-! ### What an action appends -/

namespace Contract

variable {C : Contract ι} {s : System ι} {δ : ι}

/-- The records that an action appends to the queue. -/
inductive Appended (C : Contract ι) (s : System ι) (δ : ι) : Action → List Record → Prop
  | nothing (action : Action) : Appended C s δ action []
  | register {i : Nat} {timestamp : Int64} {u : UserRecord} (hu : C.session δ u) :
      Appended C s δ (.fire i timestamp) [.user u]
  | create {i : Nat} {timestamp : Int64} {u f : UserRecord} (hu : C.session δ u)
      (hclean : CleanId f.id) (hf : C.Known (facts s.server (s.devices δ)) (.user f))
      (hnone : ((s.devices δ).view s.server.tree).subtree ["chatbox", u.id, chatKey u.id f.id] = ∅) :
      Appended C s δ (.fire i timestamp)
        [.chat u.id f.id (newChat u.id f.id f.name f.avatarUrl timestamp)]
  | send {screen : Nat} {text randomStr : String} {timestamp : Int64} {u : UserRecord}
      {friendId : UserId} {o : ChatObject} {c : ChatRecord} (hrandom : isRandomString 20 randomStr)
      (hu : C.session δ u) (hclean : CleanId friendId)
      (hsending : Sending (s.devices δ) screen u friendId o c)
      (ho : C.ObjectOk δ (facts s.server (s.devices δ)) o) :
      Appended C s δ (.sendTapped screen text randomStr timestamp)
        (sendRecords u friendId c text randomStr timestamp)

/-- **What an action writes.** It ends the process, or appends to the queue. -/
theorem Inv.appended (h : C.Inv s) {action : Action} {dev' : Device}
    (hout : (s.devices δ).Outcome s.server.tree action dev') :
    (∃ randomId, action = .relaunch randomId ∧ dev'.pending = []) ∨
      ∃ rs, C.Appended s δ action rs ∧
        dev'.pending = (s.devices δ).pending ++ rs.map Record.write := by
  have hdev := h.devices δ
  cases hout with
  | @sendTapped screen text randomStr timestamp vc user friendId entry object writes chatBox hrandom
      hvc huser hfriend hentry hobject hsend =>
      obtain ⟨u, c, hu, hclean, hsending, ho, rfl, -⟩ :=
        h.sendTapped hrandom hvc huser hfriend hentry hobject hsend
      exact Or.inr ⟨_, .send hrandom hu hclean hsending ho, rfl⟩
  | @loginNew i timestamp ref userRef user id userDictionary snapshot hfires hdict hid href =>
      obtain ⟨u, hu, hmatch, rfl, -⟩ := hdev.fires hfires none
      obtain rfl := hmatch.id_eq hid
      obtain ⟨-, rfl⟩ := (child_eq_ok (C.session_clean hu).2).mp href
      exact Or.inr ⟨_, .register hu, rfl⟩
  | @create i timestamp ref createRef friend user id friendId name avatarUrl snapshot hfires hdict hid
      hfriend hname hurl href =>
      obtain ⟨u, f, hu, hmatch, hmatch', hclean, hf, hloc⟩ := hdev.fires hfires none
      rw [create_inv timestamp (C.session_clean hu) hclean hmatch hmatch' hid hfriend hname hurl href]
      have hnone : ((s.devices δ).view s.server.tree).subtree ["chatbox", u.id, chatKey u.id f.id] =
          ∅ := by
        by_contra hne
        obtain ⟨peer, c, -, -, hd⟩ := (hdev.stored_view h.log).chat hne
        have hsnapshot := hfires.snapshot_eq
        rw [show ref = _ from hloc, hd] at hsnapshot
        rw [hsnapshot, c.dictionary?_dict] at hdict
        cases hdict
      exact Or.inr ⟨_, .create hu hclean hf hnone, rfl⟩
  | relaunch hrandom => exact Or.inl ⟨_, rfl, rfl⟩
  | _ => exact Or.inr ⟨[], .nothing _, by simp⟩

/-! ### What is issued along a run -/

/-- The queues after an action. -/
theorem Inv.appended_step (h : C.Inv s) {action : Action} {s' : System ι}
    (hstep : s.step (.act δ action) = .ok s') :
    s'.server = s.server ∧ (∀ δ', δ' ≠ δ → s'.devices δ' = s.devices δ') ∧
      ((∃ randomId, action = .relaunch randomId ∧ (s'.devices δ).pending = []) ∨
        ∃ rs, C.Appended s δ action rs ∧
          (s'.devices δ).pending = (s.devices δ).pending ++ rs.map Record.write) := by
  obtain ⟨dev', hact, rfl⟩ := System.step_act_eq_ok.mp hstep
  refine ⟨rfl, fun δ' hδ => Function.update_of_ne hδ _ _, ?_⟩
  simp only [Function.update_self]
  exact h.appended (Device.act_inv hact)

/-- A flush moves a write from a queue to the log. -/
theorem issued_flush {s' : System ι} {w : Write} (hstep : s.step (.flush δ) = .ok s') :
    Issued s' w ↔ Issued s w := by
  obtain ⟨v, ws, hpending, rfl⟩ := System.step_flush_eq_ok.mp hstep
  constructor
  · intro hcase
    rcases hcase with hw | ⟨δ', hw⟩
    · rcases List.mem_append.mp hw with hw | hw
      · exact Or.inl hw
      · exact Or.inr ⟨δ, by rw [hpending, List.mem_singleton.mp hw]; exact List.mem_cons_self⟩
    · by_cases hδ : δ' = δ
      · subst hδ
        refine Or.inr ⟨δ', ?_⟩
        rw [hpending]
        simp only [Function.update_self] at hw
        exact List.mem_cons_of_mem v hw
      · simp only [Function.update_of_ne hδ] at hw
        exact Or.inr ⟨δ', hw⟩
  · intro hcase
    rcases hcase with hw | ⟨δ', hw⟩
    · exact Or.inl (List.mem_append_left _ hw)
    · by_cases hδ : δ' = δ
      · subst hδ
        rw [hpending] at hw
        rcases List.mem_cons.mp hw with rfl | hw
        · exact Or.inl (List.mem_append_right _ List.mem_cons_self)
        · refine Or.inr ⟨δ', ?_⟩
          simp only [Function.update_self]
          exact hw
      · refine Or.inr ⟨δ', ?_⟩
        simp only [Function.update_of_ne hδ]
        exact hw

/-- What was issued stays issued. -/
theorem Inv.issued_mono (h : C.Inv s) {e : Event ι} {s' : System ι} (hloss : NoLoss s e)
    (hstep : s.step e = .ok s') {w : Write} (hw : Issued s w) : Issued s' w := by
  cases e with
  | flush δ => exact (issued_flush hstep).mpr hw
  | act δ action =>
      obtain ⟨hserver, hother, hδ⟩ := h.appended_step hstep
      rcases hw with hw | ⟨δ', hw⟩
      · exact Or.inl (by rwa [hserver])
      · by_cases hδ' : δ' = δ
        · subst hδ'
          rcases hδ with ⟨randomId, rfl, -⟩ | ⟨rs, -, hpending⟩
          · have hnil : (s.devices δ').pending = [] := hloss
            simp [hnil] at hw
          · exact Or.inr ⟨δ', by rw [hpending]; exact List.mem_append_left _ hw⟩
        · exact Or.inr ⟨δ', by rwa [hother δ' hδ']⟩

/-- What is issued after a step was issued before it or is one of the records `rs` that
the step appended. -/
theorem Inv.issued_inv (h : C.Inv s) {e : Event ι} {s' : System ι} (hstep : s.step e = .ok s') :
    ∃ rs, (rs = [] ∨ ∃ δ action, e = .act δ action ∧ C.Appended s δ action rs) ∧
      (∀ r ∈ rs, Issued s' r.write) ∧
      ∀ w, Issued s' w → Issued s w ∨ w ∈ rs.map Record.write := by
  cases e with
  | flush δ => exact ⟨[], Or.inl rfl, by simp, fun w hw => Or.inl ((issued_flush hstep).mp hw)⟩
  | act δ action =>
      obtain ⟨hserver, hother, hδ⟩ := h.appended_step hstep
      rcases hδ with ⟨randomId, -, hnil⟩ | ⟨rs, happended, hpending⟩
      · refine ⟨[], Or.inl rfl, by simp, fun w hw => Or.inl ?_⟩
        rcases hw with hw | ⟨δ', hw⟩
        · exact Or.inl (by rwa [hserver] at hw)
        · by_cases hδ' : δ' = δ
          · rw [hδ', hnil] at hw
            simp at hw
          · exact Or.inr ⟨δ', by rwa [hother δ' hδ'] at hw⟩
      · refine ⟨rs, Or.inr ⟨δ, action, rfl, happended⟩, fun r hr => Or.inr ⟨δ, ?_⟩, fun w hw => ?_⟩
        · rw [hpending]
          exact List.mem_append_right _ (List.mem_map_of_mem hr)
        · rcases hw with hw | ⟨δ', hw⟩
          · exact Or.inl (Or.inl (by rwa [hserver] at hw))
          · by_cases hδ' : δ' = δ
            · subst hδ'
              rw [hpending] at hw
              rcases List.mem_append.mp hw with hw | hw
              · exact Or.inl (Or.inr ⟨δ', hw⟩)
              · exact Or.inr hw
            · exact Or.inl (Or.inr ⟨δ', by rwa [hother δ' hδ'] at hw⟩)

end Contract

end MyChat
