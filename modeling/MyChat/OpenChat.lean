import MyChat.Client

/-!
# MyChat.OpenChat

The messages of an open chat. `viewDidLoad` registers one observer of `.childAdded`,
which appends to `messages`: first what is stored when the chat is opened, in key
order, then each message as it arrives. What arrives is not older than what is there,
so it never breaks the order. But the keys are random strings, so whether the first
load is in order is up to them (`open_chat_in_order_iff`).
-/

namespace MyChat

open Client (watch)

/-! ### One message observer per screen -/

namespace Device

variable {dev dev' : Device} {server : Snapshot} {action : Action}

/-- Observer `i` appends to the messages of the screen. -/
def MessageAt (dev : Device) (i screen : Nat) : Prop :=
  ∃ o, dev.observers[i]? = some o ∧ o.callback.fixed = .message screen []

/-- A screen has one message observer, and messages are observed for screens only. -/
structure OneEach (dev : Device) : Prop where
  bound : ∀ {i screen}, dev.MessageAt i screen → screen < dev.screens.length
  unique : ∀ {i j screen}, dev.MessageAt i screen → dev.MessageAt j screen → i = j

/-- A message observer was there before, or is the one of a screen just presented. -/
theorem Outcome.messageAt (h : dev.BelowRoot) (hout : dev.Outcome server action dev')
    (hlive : ∀ randomId, action ≠ .relaunch randomId) {i screen : Nat}
    (hmessage : dev'.MessageAt i screen) :
    dev.MessageAt i screen ∨ i = dev.observers.length + 1 ∧ screen = dev.screens.length ∧
      screen < dev'.screens.length := by
  obtain ⟨o, ho, hfixed⟩ := hmessage
  -- an observer beyond the old ones is one that the action registers
  have hnew : ∀ {base os : List Observer}, dev.Registers dev' os →
      base.length = dev.observers.length → dev'.observers = base ++ os →
      (base[i]? = some o → dev.MessageAt i screen) →
      dev.MessageAt i screen ∨ i = dev.observers.length + 1 ∧ screen = dev.screens.length ∧
        screen < dev'.screens.length := by
    intro base os hos hlength hobs hold
    rw [hobs, List.getElem?_append] at ho
    split at ho
    · exact Or.inl (hold ho)
    · obtain ⟨hk, hscreen⟩ := hos.message _ o screen ho hfixed
      exact Or.inr ⟨by omega, hscreen⟩
  obtain ⟨os, hos, ⟨hobs, -⟩ | ⟨j, _, ref, callback, callback', snapshot, -, hfires, hsame, hobs⟩⟩ :=
    hout.observers_eq h hlive
  · exact hnew hos rfl hobs fun hold => ⟨o, hold, hfixed⟩
  · refine hnew hos (by simp [observersDelivered]) hobs fun hold => ?_
    by_cases hj : j = i
    · subst hj
      obtain ⟨last, hfired, -⟩ := hfires
      rw [observersDelivered_self hfired] at hold
      cases hold
      exact ⟨_, hfired, hsame ▸ hfixed⟩
    · rw [observersDelivered_of_ne hj] at hold
      exact ⟨o, hold, hfixed⟩

/-- Screens stay. -/
theorem Outcome.screens_length_le (hout : dev.Outcome server action dev')
    (hlive : ∀ randomId, action ≠ .relaunch randomId) :
    dev.screens.length ≤ dev'.screens.length := by
  cases hout with
  | relaunch => exact absurd rfl (hlive _)
  | rowTapped | friend | message => simp
  | _ => exact le_rfl

theorem Outcome.oneEach (hroot : dev.BelowRoot) (h : dev.OneEach)
    (hout : dev.Outcome server action dev') (hlive : ∀ randomId, action ≠ .relaunch randomId) :
    dev'.OneEach := by
  refine ⟨fun hi => ?_, fun hi hj => ?_⟩
  · rcases hout.messageAt hroot hlive hi with hi | ⟨-, -, hlt⟩
    · exact (h.bound hi).trans_le (hout.screens_length_le hlive)
    · exact hlt
  · rcases hout.messageAt hroot hlive hi with hi | ⟨rfl, rfl, -⟩ <;>
      rcases hout.messageAt hroot hlive hj with hj | ⟨rfl, hscreen, -⟩
    · exact h.unique hi hj
    -- no old observer is for a screen just presented
    · exact absurd (h.bound hi) (by omega)
    · exact absurd (h.bound hj) (lt_irrefl _)
    · rfl

/-- **Frame.** Only its own observer appends to the messages of a screen. -/
theorem Outcome.messages_of_ne (h : dev.OneEach) (hout : dev.Outcome server action dev')
    (hlive : ∀ randomId, action ≠ .relaunch randomId) {i screen : Nat}
    (hmessage : dev.MessageAt i screen) (hne : ∀ timestamp, action ≠ .fire i timestamp)
    {vc : ChatBoxViewController} (hvc : dev.screens[screen]? = some vc) :
    ∃ vc', dev'.screens[screen]? = some vc' ∧ vc'.messages = vc.messages := by
  cases hout with
  | relaunch => exact absurd rfl (hlive _)
  | rowTapped =>
      have hlt := (List.getElem?_eq_some_iff.mp hvc).1
      exact ⟨vc, by rw [List.getElem?_append_left hlt, hvc], rfl⟩
  | friend =>
      rw [List.getElem?_modify, hvc]
      refine ⟨_, rfl, ?_⟩
      split <;> rfl
  | message hfires =>
      -- the observer that fired is another one, so its screen is another one
      refine ⟨vc, ?_, rfl⟩
      obtain ⟨last, hfired, -⟩ := hfires
      rw [List.getElem?_modify_ne, hvc]
      rintro rfl
      exact hne _ (by rw [h.unique hmessage ⟨_, hfired, rfl⟩])
  | _ => exact ⟨vc, hvc, rfl⟩

end Device

theorem Client.oneEach {c : Client} (h : Client.Reachable c) : c.dev.OneEach := by
  have hboth : c.dev.BelowRoot ∧ c.dev.OneEach := by
    refine Client.device_invariant (P := fun dev => dev.BelowRoot ∧ dev.OneEach) ?_ ?_ ?_ h
    · intro accessToken randomId
      refine ⟨by simp [Device.BelowRoot, Device.launch], ⟨fun hi => ?_, fun hi => ?_⟩⟩
      all_goals
        obtain ⟨o, ho, -⟩ := hi
        simp [Device.launch] at ho
    · exact fun dev ws hdev => ⟨hdev.1, ⟨hdev.2.bound, hdev.2.unique⟩⟩
    · exact fun hdev hout hlive => ⟨hout.belowRoot hdev.1 hlive, hout.oneEach hdev.1 hdev.2 hlive⟩
  exact hboth.2

/-! ### What the observer appends -/

/-- One snapshot, as `messageAdded` takes it: the keys delivered so far and the
messages appended so far grow by the new children. -/
def collect (state : List String × List Message) (snapshot : Snapshot) :
    Except Fault (List String × List Message) := do
  let added := snapshot.children.filter (· ∉ state.1)
  let messages ← added.mapM fun key => Message.ofSnapshot (snapshot.subtree [key])
  return (state.1 ++ added, state.2 ++ messages)

/-- Observer `i` has delivered `delivered`, and the messages of its screen are `messages`. -/
def Collected (c : Client) (i : Nat) (ref : Path) (screen : Nat)
    (state : List String × List Message) : Prop :=
  (∃ last, c.dev.observers[i]? = some ⟨ref, .message screen state.1, last⟩) ∧
    ∃ vc, c.dev.screens[screen]? = some vc ∧ vc.messages = state.2

theorem collect_eq_ok {state state' : List String × List Message} {snapshot : Snapshot} :
    collect state snapshot = .ok state' ↔ ∃ messages,
      (snapshot.children.filter (· ∉ state.1)).mapM
        (fun key => Message.ofSnapshot (snapshot.subtree [key])) = .ok messages ∧
      (state.1 ++ snapshot.children.filter (· ∉ state.1), state.2 ++ messages) = state' := by
  simp only [collect, bind_eq_ok, pure, Except.pure, Except.ok.injEq]

section

variable {c₀ c c' : Client} {i screen : Nat} {ref : Path} {state : List String × List Message}

theorem collected_of_fire {timestamp : Int64} (h : Collected c i ref screen state)
    (hstep : c.step (.act (.fire i timestamp)) = .ok c') :
    ∃ state', Collected c' i ref screen state' ∧ collect state (c.value ref) = .ok state' := by
  obtain ⟨⟨last, ho⟩, vc, hvc, hmessages⟩ := h
  have hfire := (Client.step_fire_inv hstep ho).2
  simp only [Device.fire, ChatBoxViewController.messageAdded, bind_eq_ok] at hfire
  obtain ⟨messages, hnew, hdev⟩ := hfire
  refine ⟨_, ⟨⟨some (c.value ref), ?_⟩, { vc with messages := vc.messages ++ messages }, ?_, ?_⟩,
    collect_eq_ok.mpr ⟨messages, hnew, rfl⟩⟩
  · rw [← Except.ok.inj hdev]
    exact Device.observersDelivered_self ho
  · rw [← Except.ok.inj hdev]
    simp [Device.delivered, hvc]
  · rw [← hmessages]

theorem collected_of_ne {e : Happening} (hreach : Client.Reachable c)
    (h : Collected c i ref screen state) (hne : ∀ timestamp, e ≠ .act (.fire i timestamp))
    (hstep : c.step e = .ok c') : Collected c' i ref screen state := by
  obtain ⟨⟨last, ho⟩, vc, hvc, hmessages⟩ := h
  cases e with
  | sync server flushed =>
      cases hstep
      exact ⟨⟨last, ho⟩, vc, hvc, hmessages⟩
  | act action =>
      obtain ⟨hlive, -, hout⟩ := Client.step_act_inv hstep
      have hne : ∀ timestamp, action ≠ .fire i timestamp := fun t ht => hne t (by rw [ht])
      obtain ⟨vc', hvc', hsame⟩ :=
        hout.messages_of_ne (Client.oneEach hreach) hlive ⟨_, ho, rfl⟩ hne hvc
      exact ⟨⟨last, hout.observer_of_ne (Client.belowRoot hreach) hlive ho hne⟩, vc', hvc',
        hsame.trans hmessages⟩

/-- The observer takes each snapshot it is told, and nothing else touches what it wrote. -/
theorem collected_run {tr : List (Client × Happening × Client)} (hreach : Client.Reachable c₀)
    (h₀ : Collected c₀ i ref screen ([], [])) (h : Client.RunFrom c₀ tr c) :
    ∃ state, Collected c i ref screen state ∧
      ((watch i ref).told tr).foldlM collect ([], []) = .ok state := by
  induction h with
  | start h =>
      subst h
      exact ⟨_, h₀, rfl⟩
  | @next tr c c' e h _ hstep ih =>
      obtain ⟨state, hstate, htold⟩ := ih
      cases htells : (watch i ref).tells e with
      | true =>
          obtain ⟨timestamp, rfl⟩ := Client.tells_iff.mp htells
          obtain ⟨state', hstate', hcollect⟩ := collected_of_fire hstate hstep
          refine ⟨state', hstate', ?_⟩
          rw [Transition.Watch.told_of_tells htells, List.foldlM_append, htold]
          show [c.value ref].foldlM collect state = _
          exact bind_eq_ok.mpr ⟨state', hcollect, rfl⟩
      | false =>
          refine ⟨state, collected_of_ne (Client.RunFrom.reachable hreach h) hstate ?_ hstep,
            by rw [Transition.Watch.told_of_quiet htells, htold]⟩
          rintro timestamp rfl
          simp [watch] at htells

end

/-! ### Messages that are only added -/

/-- Just the messages of `messages` are stored, under their ids. -/
def Holds (v : Snapshot) (messages : List MessageRecord) : Prop :=
  v.children.Perm (messages.map MessageRecord.id) ∧
    ∀ m ∈ messages, isRandomString 20 m.id ∧ v.subtree [m.id] = m.dict

instance (v : Snapshot) (messages : List MessageRecord) : Decidable (Holds v messages) :=
  inferInstanceAs (Decidable (v.children.Perm (messages.map MessageRecord.id) ∧
    ∀ m ∈ messages, isRandomString 20 m.id ∧ v.subtree [m.id] = m.dict))

/-- A message arrives under a new id, and is not older than what is there. -/
def Adds (m : MessageRecord) (v v' : Snapshot) : Prop :=
  isRandomString 20 m.id ∧ v.subtree [m.id] = ∅ ∧ v' = v.graft [m.id] m.dict ∧
    ∀ id ∈ v.children, (Snapshot.int? (v.subtree [id]) "ts").all (· ≤ m.ts)

instance (m : MessageRecord) (v v' : Snapshot) : Decidable (Adds m v v') :=
  inferInstanceAs (Decidable (isRandomString 20 m.id ∧ v.subtree [m.id] = ∅ ∧
    v' = v.graft [m.id] m.dict ∧
    ∀ id ∈ v.children, (Snapshot.int? (v.subtree [id]) "ts").all (· ≤ m.ts)))

/-- Two messages that are in order. -/
abbrev InOrder (m m' : MessageRecord) : Prop := m.ts ≤ m'.ts

section

variable {v v' : Snapshot} {messages : List MessageRecord} {m : MessageRecord}

theorem Holds.added (h : Holds v messages) (hadds : Adds m v v') : Holds v' (messages ++ [m]) := by
  obtain ⟨hrandom, hnew, rfl, -⟩ := hadds
  have hfresh : m.id ∉ v.children := fun hmem => PathTree.mem_children.mp hmem hnew
  have hother : ∀ {id}, id ≠ m.id → (v.graft [m.id] m.dict).subtree [id] = v.subtree [id] :=
    fun hid => PathTree.subtree_graft_of_incomparable ⟨by simpa using Ne.symm hid, by simpa using hid⟩
  refine ⟨?_, fun m' hm' => ?_⟩
  · rw [List.map_append, List.map_singleton]
    refine List.Perm.trans ?_ (h.1.append_right [m.id])
    -- both lists are free of duplicates, so it is enough that they have the same keys
    refine (List.perm_ext_iff_of_nodup (PathTree.nodup_children _) ?_).mpr fun id => ?_
    · have hne : ∀ id ∈ v.children, id ≠ m.id := fun id hid h => hfresh (h ▸ hid)
      simpa [List.nodup_append, PathTree.nodup_children] using hne
    · rw [PathTree.mem_children, List.mem_append, List.mem_singleton, PathTree.mem_children]
      by_cases hid : id = m.id
      · simp [hid, m.dict_ne_empty]
      · simp [hid, hother hid]
  · rcases List.mem_append.mp hm' with hm' | hm'
    · obtain ⟨hr, hd⟩ := h.2 m' hm'
      refine ⟨hr, (hother ?_).trans hd⟩
      intro heq
      exact m'.dict_ne_empty (hd.symm.trans (heq ▸ hnew))
    · obtain rfl := List.mem_singleton.mp hm'
      exact ⟨hrandom, PathTree.subtree_graft_self _ _ _⟩

theorem Holds.ts_le (h : Holds v messages) (hadds : Adds m v v') :
    ∀ m' ∈ messages, InOrder m' m := by
  intro m' hm'
  obtain ⟨-, hd⟩ := h.2 m' hm'
  have hle := hadds.2.2.2 m'.id (h.1.mem_iff.mpr (List.mem_map_of_mem hm'))
  simpa [hd, Snapshot.int?, List.lookup_cons, Scalar.int?] using hle

/-- The messages of a snapshot, read back. -/
theorem mapM_ofSnapshot (h : ∀ m ∈ messages, v.subtree [m.id] = m.dict) :
    (messages.map MessageRecord.id).mapM (fun key => Message.ofSnapshot (v.subtree [key])) =
      .ok (messages.map MessageRecord.toMessage) := by
  induction messages with
  | nil => rfl
  | cons m messages ih =>
      have hm := h m List.mem_cons_self
      have ih := ih fun m' hm' => h m' (List.mem_cons_of_mem m hm')
      rw [List.map_cons, List.mapM_cons]
      exact bind_eq_ok.mpr ⟨m.toMessage, by rw [hm, MessageRecord.ofSnapshot_dict],
        bind_eq_ok.mpr ⟨_, ih, rfl⟩⟩

end

/-- Of what is in `v`, first `stored` and then the rest was appended, each with its key.
Whether it is in order is up to `stored`. -/
def Appended (stored : List MessageRecord) (v : Snapshot) (state : List String × List Message) :
    Prop :=
  ∃ added, state = ((stored ++ added).map MessageRecord.id, (stored ++ added).map MessageRecord.toMessage) ∧
    Holds v (stored ++ added) ∧ ((stored ++ added).Pairwise InOrder ↔ stored.Pairwise InOrder)

section

variable {v v' : Snapshot} {vs : List Snapshot} {stored : List MessageRecord} {m : MessageRecord}
  {state state' : List String × List Message}

/-- The initial load. -/
theorem appended_first (h : Holds v stored) (hkeys : v.children = stored.map MessageRecord.id)
    (hcollect : collect ([], []) v = .ok state) : Appended stored v state := by
  obtain ⟨messages, hmessages, rfl⟩ := collect_eq_ok.mp hcollect
  have hall : v.children.filter (· ∉ ([] : List String)) = stored.map MessageRecord.id := by
    simp [hkeys]
  rw [hall, mapM_ofSnapshot fun m hm => (h.2 m hm).2] at hmessages
  refine ⟨[], ?_, by simpa using h, by simp⟩
  simp [hkeys, ← Except.ok.inj hmessages]

/-- A message arrives. -/
theorem Appended.next (h : Appended stored v state) (hadds : Adds m v v')
    (hcollect : collect state v' = .ok state') : Appended stored v' state' := by
  obtain ⟨added, rfl, hholds, horder⟩ := h
  obtain ⟨messages, hmessages, rfl⟩ := collect_eq_ok.mp hcollect
  have hholds' := hholds.added hadds
  have hnew : v'.children.filter (· ∉ (stored ++ added).map MessageRecord.id) =
      [m].map MessageRecord.id := by
    have hfresh : m.id ∉ (stored ++ added).map MessageRecord.id := fun hmem =>
      PathTree.mem_children.mp (hholds.1.mem_iff.mpr hmem) hadds.2.1
    have hkeys := hholds'.1
    rw [List.map_append] at hkeys
    refine List.perm_singleton.mp ((hkeys.filter _).trans (List.Perm.of_eq ?_))
    rw [List.filter_append, List.filter_eq_nil_iff.mpr fun id hid h => absurd hid (of_decide_eq_true h),
      List.nil_append]
    simpa using hfresh
  rw [hnew, mapM_ofSnapshot fun m' hm' => (hholds'.2 m' (List.mem_append_right _ hm')).2] at hmessages
  refine ⟨added ++ [m], ?_, by simpa using hholds', ?_⟩
  · rw [← Except.ok.inj hmessages, hnew]
    simp
  · rw [← List.append_assoc, List.pairwise_append, horder]
    exact and_iff_left ⟨List.pairwise_singleton _ _,
      fun m' hm' m'' hm'' => List.mem_singleton.mp hm'' ▸ hholds.ts_le hadds m' hm'⟩

/-- Messages arrive, one after the other. -/
theorem Appended.run (h : Appended stored v state)
    (hchain : (v :: vs).IsChain fun v v' => ∃ m, Adds m v v')
    (hfold : vs.foldlM collect state = .ok state') (hlast : (v :: vs).getLast? = some v') :
    Appended stored v' state' := by
  induction vs generalizing v state with
  | nil =>
      obtain rfl : v = v' := Option.some.inj hlast
      cases hfold
      exact h
  | cons v₁ vs ih =>
      rw [List.foldlM_cons] at hfold
      obtain ⟨state₁, hcollect, hfold⟩ := bind_eq_ok.mp hfold
      rw [List.isChain_cons_cons] at hchain
      obtain ⟨⟨m, hadds⟩, hchain⟩ := hchain
      exact ih (h.next hadds hcollect) hchain hfold (by simpa using hlast)

end

/-! ### The initial load -/

section

variable {v : Snapshot} {stored : List MessageRecord}

/-- The messages in the order in which the first load lists them. -/
theorem Holds.exists_listed (h : Holds v stored) :
    ∃ listed : List MessageRecord, listed.Perm stored ∧ v.children = listed.map MessageRecord.id := by
  refine ⟨stored.insertionSort fun m m' => m.id ≤ m'.id, List.perm_insertionSort _ _, ?_⟩
  rw [List.map_insertionSort _ (· ≤ ·) MessageRecord.id stored fun _ _ _ _ => Iff.rfl]
  exact List.Perm.eq_of_pairwise' (v.children_sorted.imp le_of_lt)
    (List.pairwise_insertionSort _ _) (h.1.trans (List.perm_insertionSort _ _).symm)

/-- Listed by id, the messages are in order if no message has a smaller id than an older one. -/
theorem pairwise_inOrder_iff {listed : List MessageRecord} (hperm : listed.Perm stored)
    (hkeys : v.children = listed.map MessageRecord.id) :
    listed.Pairwise InOrder ↔ ∀ m ∈ stored, ∀ m' ∈ stored, m.id < m'.id → m.ts ≤ m'.ts := by
  have hids : listed.Pairwise fun m m' => m.id < m'.id := by
    have hsorted := v.children_sorted
    rwa [hkeys, List.pairwise_map] at hsorted
  constructor
  · intro horder m hm m' hm'
    -- said for both orders of two messages, it holds of any two that are listed
    have hboth : listed.Pairwise fun m m' =>
        (m.id < m'.id → m.ts ≤ m'.ts) ∧ (m'.id < m.id → m'.ts ≤ m.ts) := by
      refine (hids.and horder).imp fun h => ⟨fun _ => h.2, fun hlt => absurd hlt h.1.asymm⟩
    have hsymm : Std.Symm fun m m' : MessageRecord =>
        (m.id < m'.id → m.ts ≤ m'.ts) ∧ (m'.id < m.id → m'.ts ≤ m.ts) := ⟨fun _ _ => And.symm⟩
    exact (hboth.forall_of_forall (fun m _ => by simp) (hperm.mem_iff.mpr hm)
      (hperm.mem_iff.mpr hm')).1
  · intro h
    refine hids.imp_of_mem fun hm hm' hlt => ?_
    exact h _ (hperm.mem_iff.mp hm) _ (hperm.mem_iff.mp hm') hlt

/-- All that was told so far is appended: the initial load by id, then what arrived. -/
theorem Holds.appended_of_told {v₀ : Snapshot} {told changes : List Snapshot}
    {state : List String × List Message} (h : Holds v₀ stored)
    (hchain : (v₀ :: changes).IsChain fun v v' => ∃ m, Adds m v v') (htold : told <+: v₀ :: changes)
    (hlast : told.getLast? = some v) (hfold : told.foldlM collect ([], []) = .ok state) :
    ∃ listed : List MessageRecord, listed.Perm stored ∧
      v₀.children = listed.map MessageRecord.id ∧ Appended listed v state := by
  obtain ⟨rest, hrest⟩ := htold
  cases told with
  | nil => simp at hlast
  | cons v₁ vs =>
      rw [← hrest] at hchain
      obtain ⟨rfl, -⟩ := List.cons.inj hrest
      obtain ⟨listed, hperm, hkeys⟩ := h.exists_listed
      have hlisted : Holds v₁ listed :=
        ⟨h.1.trans (hperm.symm.map _), fun m hm => h.2 m (hperm.mem_iff.mp hm)⟩
      rw [List.foldlM_cons] at hfold
      obtain ⟨state₁, hfirst, hfold⟩ := bind_eq_ok.mp hfold
      exact ⟨listed, hperm, hkeys,
        (appended_first hlisted hkeys hfirst).run hchain.left_of_append hfold hlast⟩

end

/-! ### Runs -/

/-- Exactly the messages of `v` are shown, each once and by time. Those that were stored
when the chat was opened are among them. -/
def ShowsInOrder (c : Client) (screen : Nat) (stored : List MessageRecord) (v : Snapshot) : Prop :=
  ∃ vc shown, c.dev.screens[screen]? = some vc ∧ vc.messages = shown.map MessageRecord.toMessage ∧
    stored ⊆ shown ∧ Holds v shown ∧ shown.Pairwise InOrder

theorem toMessage_injective : Function.Injective MessageRecord.toMessage := by
  intro m m' h
  cases m
  cases m'
  simp_all [MessageRecord.toMessage]

section

variable {c₀ c₁ c : Client} {home row i screen : Nat} {ref : Path}
  {tr : List (Client × Happening × Client)} {stored : List MessageRecord} {v : Snapshot}

/-- The screen that a tap presents, and its observer. -/
theorem collected_of_rowTapped (hopen : c₀.step (.act (.rowTapped home row)) = .ok c₁) :
    ∃ ref, c₁.dev.observers[c₀.dev.observers.length + 1]? =
        some ⟨ref, .message c₀.dev.screens.length [], none⟩ ∧
      Collected c₁ (c₀.dev.observers.length + 1) ref c₀.dev.screens.length ([], []) := by
  obtain ⟨-, -, hout⟩ := Client.step_act_inv hopen
  cases c₁
  cases hout
  have hobserver : ∀ o o' : Observer,
      (c₀.dev.observers ++ [o, o'])[c₀.dev.observers.length + 1]? = some o' := by simp
  exact ⟨_, hobserver _ _, ⟨none, hobserver _ _⟩, _, List.getElem?_concat_length, rfl⟩

/-- **An open chat, exactly.** Whatever is stored when a chat is opened and whatever
arrives afterwards, at any time after the initial load the messages are shown in order
if and only if, of any two messages stored when the chat was opened, the one with the
smaller id is not newer. -/
theorem open_chat_in_order_iff (hreach : Client.Reachable c₀)
    (hopen : c₀.step (.act (.rowTapped home row)) = .ok c₁)
    (href : c₁.dev.observers[c₀.dev.observers.length + 1]?.map Observer.ref = some ref)
    (hstored : Holds (c₁.value ref) stored) (hrun : Client.RunFrom c₁ tr c)
    (hadds : ∀ x ∈ tr, x.2.2.value ref = x.1.value ref ∨
      ∃ m, Adds m (x.1.value ref) (x.2.2.value ref))
    (hprompt : ∀ x ∈ tr, (watch (c₀.dev.observers.length + 1) ref).Prompt x)
    (hloaded : (watch (c₀.dev.observers.length + 1) ref).last c = some v) :
    ShowsInOrder c c₀.dev.screens.length stored v ↔
      ∀ m ∈ stored, ∀ m' ∈ stored, m.id < m'.id → m.ts ≤ m'.ts := by
  obtain ⟨ref', hobserver, hcollected⟩ := collected_of_rowTapped hopen
  obtain rfl : ref' = ref := by simpa [hobserver] using href
  have hreach₁ : Client.Reachable c₁ := .next hreach trivial hopen
  have hstart : (watch (c₀.dev.observers.length + 1) ref').last c₁ = none := by
    simp [watch, hobserver]
  obtain ⟨-, hlaw⟩ :=
    Client.RunFrom.observes (Client.belowRoot hreach₁) ⟨_, hobserver, rfl, rfl⟩ hrun
  obtain ⟨state, ⟨-, vc, hvc, hmessages⟩, hfold⟩ := collected_run hreach₁ hcollected hrun
  have hlast := (Transition.Watch.last_eq hrun hlaw hstart).symm.trans hloaded
  have hchain := (Transition.Watch.isChain_changes (W := watch (c₀.dev.observers.length + 1) ref')
    (R := fun v v' => ∃ m, Adds m v v') hrun hadds).1
  obtain ⟨listed, hperm, hkeys, added, rfl, hholds, horder⟩ := hstored.appended_of_told hchain
    (Transition.Watch.told_isPrefix hrun hlaw hprompt hstart) hlast hfold
  rw [← pairwise_inOrder_iff hperm hkeys, ← horder]
  constructor
  · intro hcase
    obtain ⟨vc', shown, hvc', hshown, -, -, hsorted⟩ := hcase
    obtain rfl := Option.some.inj (hvc.symm.trans hvc')
    rwa [toMessage_injective.list_map (hmessages.symm.trans hshown)]
  · intro hsorted
    refine ⟨vc, _, hvc, hmessages, fun m hm => ?_, hholds, hsorted⟩
    exact List.mem_append_left _ (hperm.mem_iff.mpr hm)

end

/-! ### A sample chat -/

/-- A message of user 2 to user 1. -/
def sampleReceived (c : Char) (ts : Int64) : MessageRecord := ⟨sampleId c, "2", "1", ts, false, "hi"⟩

/-- User 1 has a chat with user 2 in the list, with these messages. -/
def sampleChat (stored : List MessageRecord) : Client :=
  sampleClient (.chat "1" "2" (sampleRow "hi" 20) :: stored.map (.message "1" "2"))

def sampleListed : List Happening := sampleLife ++ [.act (.homeWillAppear 0), .act (.fire 1 0)]

/-- The messages are loaded, and user 1 answers. -/
def sampleStay : List Happening :=
  [.act (.fire 3 0), .act (.sendTapped 0 "ho" (sampleId 'c') 30), .act (.fire 3 0)]

theorem open_chat_in_order_sample :
    ∃ c₀ c₁ ref tr c v, Client.Reachable c₀ ∧ c₀.step (.act (.rowTapped 0 0)) = .ok c₁ ∧
      c₁.dev.observers[c₀.dev.observers.length + 1]?.map Observer.ref = some ref ∧
      Holds (c₁.value ref) [sampleReceived 'b' 20, sampleReceived 'a' 10] ∧ Client.RunFrom c₁ tr c ∧
      (watch (c₀.dev.observers.length + 1) ref).last c = some v ∧
      (ShowsInOrder c c₀.dev.screens.length [sampleReceived 'b' 20, sampleReceived 'a' 10] v ↔
        ∀ m ∈ [sampleReceived 'b' 20, sampleReceived 'a' 10],
          ∀ m' ∈ [sampleReceived 'b' 20, sampleReceived 'a' 10], m.id < m'.id → m.ts ≤ m'.ts) := by
  have hrun : ((Transition.run Client.step (fun _ _ => true)
      (sampleChat [sampleReceived 'b' 20, sampleReceived 'a' 10]) sampleListed).bind fun c₀ =>
      (c₀.step (.act (.rowTapped 0 0))).toOption.bind fun c₁ =>
        (Transition.run Client.step (fun _ _ => true) c₁ sampleStay).bind fun c =>
          ((watch (c₀.dev.observers.length + 1) ["messages", "1_2"]).last c).map fun _ =>
            decide (c₁.dev.observers[c₀.dev.observers.length + 1]?.map Observer.ref =
              some ["messages", "1_2"]) &&
            decide (Holds (c₁.value ["messages", "1_2"]) [sampleReceived 'b' 20, sampleReceived 'a' 10]) &&
            decide (∀ x ∈ Transition.steps Client.step c₁ sampleStay,
              (x.2.2.value ["messages", "1_2"] = x.1.value ["messages", "1_2"] ∨
                Adds ⟨sampleId 'c', "1", "2", 30, false, "ho"⟩ (x.1.value ["messages", "1_2"])
                  (x.2.2.value ["messages", "1_2"])) ∧
              (watch (c₀.dev.observers.length + 1) ["messages", "1_2"]).Prompt x)) = some true := by
    decide +kernel
  obtain ⟨c₀, hc₀, hrun⟩ := Option.bind_eq_some_iff.mp hrun
  obtain ⟨c₁, hopen, hrun⟩ := Option.bind_eq_some_iff.mp hrun
  obtain ⟨c, hc, hrun⟩ := Option.bind_eq_some_iff.mp hrun
  obtain ⟨v, hloaded, hstate⟩ := Option.map_eq_some_iff.mp hrun
  simp only [Bool.and_eq_true, decide_eq_true_eq] at hstate
  obtain ⟨⟨href, hstored⟩, htr⟩ := hstate
  have hreach := Client.reachable_of_run hc₀
  have hopen : c₀.step (.act (.rowTapped 0 0)) = .ok c₁ := eq_ok_of_toOption hopen
  have hstay := Client.runFrom_of_run hc
  exact ⟨c₀, c₁, _, _, c, v, hreach, hopen, href, hstored, hstay, hloaded,
    open_chat_in_order_iff hreach hopen href hstored hstay
      (fun x hx => (htr x hx).1.imp_right fun h => ⟨_, h⟩) (fun x hx => (htr x hx).2) hloaded⟩

/-- Of two messages stored, the newer one has the smaller id: it is shown first. -/
theorem open_chat_out_of_order :
    ¬ ∀ c₀ home row c₁ ref stored tr c v, Client.Reachable c₀ →
      c₀.step (.act (.rowTapped home row)) = .ok c₁ →
      c₁.dev.observers[c₀.dev.observers.length + 1]?.map Observer.ref = some ref →
      Holds (c₁.value ref) stored → Client.RunFrom c₁ tr c →
      (∀ x ∈ tr, x.2.2.value ref = x.1.value ref ∨
        ∃ m, Adds m (x.1.value ref) (x.2.2.value ref)) →
      (∀ x ∈ tr, (watch (c₀.dev.observers.length + 1) ref).Prompt x) →
      (watch (c₀.dev.observers.length + 1) ref).last c = some v →
      ShowsInOrder c c₀.dev.screens.length stored v := by
  intro h
  have hrun : ((Transition.run Client.step (fun _ _ => true)
      (sampleChat [sampleReceived 'a' 20, sampleReceived 'b' 10]) sampleListed).bind fun c₀ =>
      (c₀.step (.act (.rowTapped 0 0))).toOption.bind fun c₁ =>
        (c₁.step (.act (.fire 3 0))).toOption.bind fun c =>
          ((watch (c₀.dev.observers.length + 1) ["messages", "1_2"]).last c).map fun _ =>
            decide (c₁.dev.observers[c₀.dev.observers.length + 1]?.map Observer.ref =
              some ["messages", "1_2"]) &&
            decide (Holds (c₁.value ["messages", "1_2"]) [sampleReceived 'a' 20, sampleReceived 'b' 10]) &&
            decide (c.value ["messages", "1_2"] = c₁.value ["messages", "1_2"]) &&
            decide (c.dev.screens[c₀.dev.screens.length]?.map ChatBoxViewController.messages =
              some ([sampleReceived 'a' 20, sampleReceived 'b' 10].map MessageRecord.toMessage))) =
      some true := by
    decide +kernel
  obtain ⟨c₀, hc₀, hrun⟩ := Option.bind_eq_some_iff.mp hrun
  obtain ⟨c₁, hopen, hrun⟩ := Option.bind_eq_some_iff.mp hrun
  obtain ⟨c, hload, hrun⟩ := Option.bind_eq_some_iff.mp hrun
  obtain ⟨v, hloaded, hstate⟩ := Option.map_eq_some_iff.mp hrun
  simp only [Bool.and_eq_true, decide_eq_true_eq, Option.map_eq_some_iff] at hstate
  obtain ⟨⟨⟨href, hstored⟩, hsame⟩, vc, hvc, hmessages⟩ := hstate
  obtain ⟨vc', shown, hvc', hshown, -, -, hsorted⟩ :=
    h c₀ 0 0 c₁ _ _ _ c v (Client.reachable_of_run hc₀) (eq_ok_of_toOption hopen)
      (Option.map_eq_some_iff.mpr href) hstored (Client.RunFrom.single (eq_ok_of_toOption hload))
      (List.forall_mem_singleton.mpr (Or.inl hsame))
      (List.forall_mem_singleton.mpr fun hne => absurd hsame hne) hloaded
  obtain rfl := Option.some.inj (hvc.symm.trans hvc')
  obtain rfl := toMessage_injective.list_map (hmessages.symm.trans hshown)
  exact absurd hsorted (by decide)

end MyChat
