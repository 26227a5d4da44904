import MyChat.Client

/-!
# MyChat.CreateOnce

How often one `createNewChatBox` call reports. Its closure calls
`createNewChatBoxDidEnd` whenever it runs, and it stays registered at the row it
creates: `removeAllObservers` is called on the root. So its own `setValue` makes it run
again, and so does every later message of the chat. If Firebase misses nothing, the call
completes once exactly when the row was there and never changes
(`creation_completes_once`).
-/

namespace MyChat

/-- Observer `i` raises `createNewChatBoxDidEnd` in this step. -/
def RaisesDidEnd (i : Nat) (x : Client × Happening × Client) : Prop :=
  (∃ timestamp, x.2.1 = .act (.fire i timestamp)) ∧
    ∃ state, x.2.2.dev.dialogs = x.1.dev.dialogs ++ [(state, "")]

/-- The result is "created". -/
def ReportsCreated (x : Client × Happening × Client) : Prop :=
  x.2.2.dev.dialogs = x.1.dev.dialogs ++ [("Tạo cuộc hội thoại thành công", "")]

/-- The call whose closure is observer `i`, at `ref`, completes at most once and rightly,
and has no effect after that. -/
structure CompletesOnce (i : Nat) (ref : Path) (tr : List (Client × Happening × Client)) : Prop where
  once : tr.Pairwise fun x y => RaisesDidEnd i x → ¬ RaisesDidEnd i y
  quiet : tr.Pairwise fun x y => RaisesDidEnd i x → ∀ timestamp, y.2.1 = .act (.fire i timestamp) →
    y.2.2.dev.pending = y.1.dev.pending ∧ y.2.2.dev.dialogs = y.1.dev.dialogs
  result : ∀ x ∈ tr, RaisesDidEnd i x → (ReportsCreated x ↔
    (x.1.value ref).dictionary? = none ∧
      ∃ r : ChatRecord, x.2.2.dev.pending = x.1.dev.pending ++ [⟨ref, r.dict⟩])

/-! ### One run of the closure -/

section step

variable {c c' : Client} {i : Nat} {timestamp : Int64} {ref : Path} {friend user : User}

/-- What the closure of `createNewChatBox` does. -/
theorem createNewChatBoxValue_inv {dev dev' : Device} {snapshot : Snapshot}
    (h : ChatBusiness.createNewChatBoxValue dev i friend user snapshot timestamp = .ok dev') :
    (snapshot.dictionary? ≠ none ∧ dev'.pending = dev.pending ∧
        dev'.dialogs = dev.dialogs ++ [("Cuộc hội thoại đã tồn tại", "")]) ∨
      (snapshot.dictionary? = none ∧ ∃ id friendId name avatarUrl createRef,
        user.id = some id ∧ friend.id = some friendId ∧
        (child ["chatbox"] id).bind (child · (chatKey id friendId)) = .ok createRef ∧
        dev'.pending = dev.pending ++
          [⟨createRef, (newChat id friendId name avatarUrl timestamp).dict⟩] ∧
        dev'.dialogs = dev.dialogs ++ [("Tạo cuộc hội thoại thành công", "")]) := by
  unfold ChatBusiness.createNewChatBoxValue at h
  split at h
  · next dict hdict =>
    cases h
    exact Or.inl ⟨by simp [hdict], rfl, rfl⟩
  · next hdict =>
    simp only [bind_eq_ok, unwrap_eq_ok] at h
    obtain ⟨id, hid, friendId, hfriend, name, -, url, -, d, hd, chatbox, hchatbox, createRef, hcreate,
      hdev⟩ := h
    obtain rfl : (newChat id friendId name url timestamp).dict = d := Except.ok.inj hd
    cases hdev
    exact Or.inr ⟨hdict, id, friendId, name, url, createRef, hid, hfriend,
      bind_eq_ok.mpr ⟨chatbox, hchatbox, hcreate⟩, rfl, rfl⟩

/-- `createNewChatBox` observes where its closure writes. -/
theorem createNewChatBox_inv {dev : Device}
    (h : ChatBusiness.createNewChatBox dev friend user = .ok (dev.observe ref (.create friend user))) :
    ref ≠ rootRef ∧ ∀ id friendId createRef, user.id = some id → friend.id = some friendId →
      (child ["chatbox"] id).bind (child · (chatKey id friendId)) = .ok createRef → createRef = ref := by
  simp only [ChatBusiness.createNewChatBox, bind_eq_ok, unwrap_eq_ok] at h
  obtain ⟨id, hid, friendId, hfriend, chatbox, hchatbox, ref', href', hdev⟩ := h
  have hobservers := congrArg Device.observers (Except.ok.inj hdev)
  obtain rfl : ref' = ref := by
    simpa [Device.observe] using hobservers
  refine ⟨child_ne_rootRef (child_ne_rootRef (by simp) hchatbox) href', ?_⟩
  intro id' friendId' createRef hid' hfriend' hcreate
  cases hid.symm.trans hid'
  cases hfriend.symm.trans hfriend'
  have hsame := hcreate.symm.trans (bind_eq_ok.mpr ⟨chatbox, hchatbox, href'⟩)
  exact Except.ok.inj hsame

/-- One firing of the closure, in the environment. -/
theorem create_fire_inv
    (hplace : ∀ id friendId createRef, user.id = some id → friend.id = some friendId →
      (child ["chatbox"] id).bind (child · (chatKey id friendId)) = .ok createRef → createRef = ref)
    (hobs : c.Observes i ref (.create friend user))
    (hstep : c.step (.act (.fire i timestamp)) = .ok c') :
    ((c.value ref).dictionary? ≠ none ∧ c'.dev.pending = c.dev.pending ∧
        c'.dev.dialogs = c.dev.dialogs ++ [("Cuộc hội thoại đã tồn tại", "")]) ∨
      ((c.value ref).dictionary? = none ∧ (c'.value ref).dictionary? ≠ none ∧
        (∃ r : ChatRecord, c'.dev.pending = c.dev.pending ++ [⟨ref, r.dict⟩]) ∧
        c'.dev.dialogs = c.dev.dialogs ++ [("Tạo cuộc hội thoại thành công", "")]) := by
  obtain ⟨last, ho⟩ := hobs.create
  obtain ⟨hserver, hfire⟩ := Client.step_fire_inv hstep ho
  rcases createNewChatBoxValue_inv hfire with h | ⟨hnone, id, friendId, name, url, createRef, hid,
    hfriend, href, hpending, hdialogs⟩
  · exact Or.inl h
  · obtain rfl := hplace id friendId createRef hid hfriend href
    refine Or.inr ⟨hnone, ?_, ⟨_, hpending⟩, hdialogs⟩
    rw [Client.value, Device.view, hserver, hpending, applyAll_append, applyAll_cons, applyAll_nil,
      Write.apply, PathTree.subtree_graft_self, ChatRecord.dictionary?_dict]
    simp

end step

/-! ### Runs -/

section runs

variable {c₀ c : Client} {ref : Path} {friend user : User} {tr : List (Client × Happening × Client)}

/-- Every firing of the closure raises `createNewChatBoxDidEnd`, with the right result. -/
theorem raises_of_fire {i : Nat} (hplace : ∀ id friendId createRef, user.id = some id →
      friend.id = some friendId →
      (child ["chatbox"] id).bind (child · (chatKey id friendId)) = .ok createRef → createRef = ref)
    {x : Client × Happening × Client} (hobs : x.1.Observes i ref (.create friend user))
    (hstep : x.1.step x.2.1 = .ok x.2.2) :
    (RaisesDidEnd i x ↔ ∃ timestamp, x.2.1 = .act (.fire i timestamp)) ∧
      (RaisesDidEnd i x → (ReportsCreated x ↔ (x.1.value ref).dictionary? = none ∧
        ∃ r : ChatRecord, x.2.2.dev.pending = x.1.dev.pending ++ [⟨ref, r.dict⟩])) := by
  obtain ⟨c, e, c'⟩ := x
  refine ⟨⟨fun h => h.1, fun ⟨timestamp, he⟩ => ⟨⟨timestamp, he⟩, ?_⟩⟩, fun ⟨⟨timestamp, he⟩, _⟩ => ?_⟩
  all_goals
    dsimp only at he hstep ⊢
    subst he
    rcases create_fire_inv hplace hobs hstep with ⟨hdict, hpending, hdialogs⟩ |
      ⟨hnone, -, hwrite, hdialogs⟩
  · exact ⟨_, hdialogs⟩
  · exact ⟨_, hdialogs⟩
  · refine iff_of_false (fun hcreated => ?_) fun h => hdict h.1
    rw [ReportsCreated, hdialogs] at hcreated
    simp at hcreated
  · exact iff_of_true hdialogs ⟨hnone, hwrite⟩

/-- A call that is answered once, with the row as it is and stays, finds a record: the
first firing would else create the row and thereby change it. -/
theorem record_of_unchanged {i : Nat} {v : Snapshot}
    (hplace : ∀ id friendId createRef, user.id = some id → friend.id = some friendId →
      (child ["chatbox"] id).bind (child · (chatKey id friendId)) = .ok createRef → createRef = ref)
    (hsteps : ∀ x ∈ tr, x.1.Observes i ref (.create friend user) ∧ x.1.step x.2.1 = .ok x.2.2)
    (htold : v ∈ (Client.watch i ref).told tr) (hsame : ∀ x ∈ tr, x.2.2.value ref = x.1.value ref) :
    v.dictionary? ≠ none := by
  intro hnone
  obtain ⟨⟨c, e, c'⟩, hx, htells, hvalue⟩ := Transition.Watch.mem_told.mp htold
  obtain ⟨timestamp, rfl⟩ := Client.tells_iff.mp htells
  have hvalue : c.value ref = v := hvalue
  have hvalue' : c'.value ref = v := (hsame _ hx).trans hvalue
  rcases create_fire_inv hplace (hsteps _ hx).1 (hsteps _ hx).2 with ⟨hdict, -⟩ | ⟨-, hdict, -⟩
  · exact hdict (by rw [hvalue, hnone])
  · exact hdict (by rw [hvalue', hnone])

/-- **One completion, exactly when.** If Firebase misses no change, a call of
`createNewChatBox` completes once if and only if there is a record at the row when the
call is made and the row does not change any more, as the device sees it. -/
theorem creation_completes_once (hreach : Client.Reachable c₀)
    (hcall : ChatBusiness.createNewChatBox c₀.dev friend user =
      .ok (c₀.dev.observe ref (.create friend user)))
    (hrun : Client.RunFrom (c₀.observing ref (.create friend user)) tr c)
    (hprompt : ∀ x ∈ tr, (Client.watch c₀.dev.observers.length ref).Prompt x)
    (hsettled : (Client.watch c₀.dev.observers.length ref).last c = some (c.value ref)) :
    CompletesOnce c₀.dev.observers.length ref tr ↔
      (c₀.value ref).dictionary? ≠ none ∧ ∀ x ∈ tr, x.2.2.value ref = x.1.value ref := by
  obtain ⟨href, hplace⟩ := createNewChatBox_inv hcall
  have hroot := Client.belowRoot hreach
  have htold := Client.told_of_observing hroot href hrun hprompt hsettled
  have hsteps : ∀ x ∈ tr, x.1.Observes c₀.dev.observers.length ref (.create friend user) ∧
      x.1.step x.2.1 = .ok x.2.2 :=
    Client.RunFrom.observes_of_mem (Client.belowRoot_observing hroot href)
      (c₀.observes_observing ref _) hrun
  have hraises : ∀ x ∈ tr, RaisesDidEnd c₀.dev.observers.length x ↔
      ∃ timestamp, x.2.1 = .act (.fire c₀.dev.observers.length timestamp) :=
    fun x hx => (raises_of_fire hplace (hsteps x hx).1 (hsteps x hx).2).1
  have honce : (tr.Pairwise fun x y => RaisesDidEnd c₀.dev.observers.length x →
        ¬ RaisesDidEnd c₀.dev.observers.length y) ↔
      ∀ x ∈ tr, x.2.2.value ref = x.1.value ref := by
    refine Iff.trans ?_ ((Transition.Watch.told_once_iff htold).trans
      (Transition.Watch.changes_eq_nil_iff _))
    refine List.Pairwise.iff_of_mem fun {x y} hx hy => ?_
    rw [hraises x hx, hraises y hy, Client.tells_iff, Client.tells_iff]
  constructor
  · intro h
    have hsame := honce.mp h.once
    exact ⟨record_of_unchanged hplace hsteps (by rw [htold]; exact List.mem_cons_self) hsame, hsame⟩
  · intro h
    have honce := honce.mpr h.2
    refine ⟨honce, honce.imp_of_mem fun {x y} _ hy hxy hraise timestamp hfire => ?_,
      fun x hx => (raises_of_fire hplace (hsteps x hx).1 (hsteps x hx).2).2⟩
    exact absurd ((hraises y hy).mpr ⟨timestamp, hfire⟩) (hxy hraise)

end runs

/-- User 1 asks for a chat with user 2, on a device that user 1 is logged in on. -/
theorem createNewChatBox_sample (dev : Device) :
    ChatBusiness.createNewChatBox dev (sampleUser "2").toUser (sampleUser "1").toUser =
      .ok (dev.observe (rowPath "1" "2") (.create (sampleUser "2").toUser (sampleUser "1").toUser)) := by
  have hchatbox : child ["chatbox"] "1" = .ok ["chatbox", "1"] := by decide
  have href : child ["chatbox", "1"] (chatKey "1" "2") = .ok (rowPath "1" "2") := by decide
  simp [ChatBusiness.createNewChatBox, sampleUser, UserRecord.toUser, hchatbox, href, bind, Except.bind]
  rfl

theorem creation_completes_once_sample :
    ∃ c₀ tr c, Client.Reachable c₀ ∧ tr ≠ [] ∧
      Client.RunFrom (c₀.observing (rowPath "1" "2")
        (.create (sampleUser "2").toUser (sampleUser "1").toUser)) tr c ∧
      (CompletesOnce c₀.dev.observers.length (rowPath "1" "2") tr ↔
        (c₀.value (rowPath "1" "2")).dictionary? ≠ none ∧
          ∀ x ∈ tr, x.2.2.value (rowPath "1" "2") = x.1.value (rowPath "1" "2")) := by
  have hrun : ((Transition.run Client.step (fun _ _ => true)
      (sampleClient [.chat "1" "2" (sampleRow "hi" 10)]) sampleLife).bind fun c₀ =>
        let c₁ := c₀.observing (rowPath "1" "2")
          (.create (sampleUser "2").toUser (sampleUser "1").toUser)
        let W := Client.watch c₀.dev.observers.length (rowPath "1" "2")
        (c₁.step (.act (.fire 1 0))).toOption.map fun c =>
          decide (W.Prompt (c₁, .act (.fire 1 0), c)) &&
            decide (W.last c = some (c.value (rowPath "1" "2")))) = some true := by
    decide +kernel
  obtain ⟨c₀, hc₀, hrun⟩ := Option.bind_eq_some_iff.mp hrun
  obtain ⟨c, hstep, hstate⟩ := Option.map_eq_some_iff.mp hrun
  simp only [Bool.and_eq_true, decide_eq_true_eq] at hstate
  have htr := Client.RunFrom.single (eq_ok_of_toOption hstep)
  exact ⟨c₀, _, c, Client.reachable_of_run hc₀, by simp, htr,
    creation_completes_once (Client.reachable_of_run hc₀) (createNewChatBox_sample c₀.dev) htr
      (List.forall_mem_singleton.mpr hstate.1) hstate.2⟩

/-- There is no row yet. The call creates it, hears of its own write and reports that the
chat exists already. -/
theorem creation_repeats :
    ¬ ∀ c₀ friend user ref tr c, Client.Reachable c₀ →
      ChatBusiness.createNewChatBox c₀.dev friend user =
        .ok (c₀.dev.observe ref (.create friend user)) →
      Client.RunFrom (c₀.observing ref (.create friend user)) tr c →
      (∀ x ∈ tr, (Client.watch c₀.dev.observers.length ref).Prompt x) →
      (Client.watch c₀.dev.observers.length ref).last c = some (c.value ref) →
      CompletesOnce c₀.dev.observers.length ref tr := by
  intro h
  have hrun : ((Transition.run Client.step (fun _ _ => true) (sampleClient []) sampleLife).bind
      fun c₀ =>
        let c₁ := c₀.observing (rowPath "1" "2")
          (.create (sampleUser "2").toUser (sampleUser "1").toUser)
        let W := Client.watch c₀.dev.observers.length (rowPath "1" "2")
        (c₁.step (.act (.fire 1 0))).toOption.bind fun c₂ =>
          (c₂.step (.act (.fire 1 0))).toOption.map fun c =>
            (decide (W.Prompt (c₁, .act (.fire 1 0), c₂)) &&
              decide (W.Prompt (c₂, .act (.fire 1 0), c)) &&
              decide (W.last c = some (c.value (rowPath "1" "2")))) &&
            (decide (c₀.dev.observers.length = 1) &&
              decide (c₂.dev.dialogs = c₁.dev.dialogs ++ [("Tạo cuộc hội thoại thành công", "")]) &&
              decide (c.dev.dialogs = c₂.dev.dialogs ++ [("Cuộc hội thoại đã tồn tại", "")]))) =
      some true := by
    decide +kernel
  obtain ⟨c₀, hc₀, hrun⟩ := Option.bind_eq_some_iff.mp hrun
  obtain ⟨c₂, hstep, hrun⟩ := Option.bind_eq_some_iff.mp hrun
  obtain ⟨c, hstep', hstate⟩ := Option.map_eq_some_iff.mp hrun
  simp only [Bool.and_eq_true, decide_eq_true_eq] at hstate
  obtain ⟨⟨⟨hprompt, hprompt'⟩, hsettled⟩, ⟨hlength, hcreated⟩, hexists⟩ := hstate
  have htr := Transition.Trace.next (Client.RunFrom.single (eq_ok_of_toOption hstep)) trivial
    (eq_ok_of_toOption hstep')
  obtain ⟨honce, -, -⟩ := h c₀ _ _ _ _ c (Client.reachable_of_run hc₀)
    (createNewChatBox_sample c₀.dev) htr (by simp [hprompt, hprompt']) hsettled
  rw [hlength] at honce
  simp only [List.nil_append, List.cons_append, List.pairwise_cons, List.mem_singleton,
    forall_eq] at honce
  exact honce.1 ⟨⟨_, rfl⟩, _, hcreated⟩ ⟨⟨_, rfl⟩, _, hexists⟩

end MyChat
