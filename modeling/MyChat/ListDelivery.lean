import MyChat.Client
import MyChat.AccountIsolation

/-!
# MyChat.ListDelivery

What one `fetchListOfChatBox` call hands to the home screen, snapshot after snapshot.
`chatList` is declared outside the closure and never emptied, and the observer stays
registered, so the entries of all snapshots so far pile up in it. A delivery is the
snapshot that triggered it exactly when nothing was decoded before
(`handsSnapshot_iff`), hence all deliveries of a call are right exactly when every
snapshot before the last one is empty (`lists_delivered`).
-/

namespace MyChat

open Client (snapshots)

/-- If observer `i` of a chat list fires, the home screen gets one `Chat` for each child
of the snapshot, in snapshot order, and nothing else. -/
def HandsSnapshot (i : Nat) (x : Client × Happening × Client) : Prop :=
  ∀ timestamp o owner captured home vc, x.2.1 = .act (.fire i timestamp) →
    x.1.dev.observers[i]? = some o → o.callback = .chatList owner captured →
    x.1.dev.fetchListOfChatBoxListener = some home → x.2.2.dev.homes[home]? = some vc →
    vc.chatList.length = (x.1.value o.ref).children.length ∧
      ∀ (k : Nat) key, (x.1.value o.ref).children[k]? = some key →
        ∃ r chat, vc.chatList[k]? = some r ∧
          Chat.ofSnapshot ((x.1.value o.ref).subtree [key]) = .ok chat ∧
          x.2.2.dev.chats[r]? = some ⟨chat, owner, key⟩

/-! ### One delivery -/

theorem getElem?_of_mapM_eq_ok {α β : Type} {f : α → Except Fault β} {as : List α} {bs : List β}
    (h : as.mapM f = .ok bs) {k : Nat} {a : α} (ha : as[k]? = some a) :
    ∃ b, bs[k]? = some b ∧ f a = .ok b := by
  induction as generalizing bs k with
  | nil => simp at ha
  | cons a' as ih =>
      rw [List.mapM_cons] at h
      simp only [bind_eq_ok] at h
      obtain ⟨b, hb, bs', hbs', h⟩ := h
      cases h
      cases k with
      | zero =>
          obtain rfl : a' = a := by simpa using ha
          exact ⟨b, by simp, hb⟩
      | succ k => exact ih hbs' (by simpa using ha)

/-- What the closure of `fetchListOfChatBox` leaves. -/
theorem fetchListOfChatBoxValue_inv {dev dev' : Device} {i : Nat} {ref : Path} {owner : UserId}
    {captured : List ChatRef} {last : Option Snapshot} {snapshot : Snapshot} (hroot : dev.BelowRoot)
    (ho : dev.observers[i]? = some ⟨ref, .chatList owner captured, last⟩)
    (h : ChatBusiness.fetchListOfChatBoxValue dev i owner captured snapshot = .ok dev') :
    ∃ objects list, ChatBusiness.chatObjects owner snapshot = .ok objects ∧
      list = captured ++ List.range' dev.chats.length objects.length ∧
      dev'.chats = dev.chats ++ objects ∧ dev'.homes = dev.handed list ∧
      dev'.observers[i]? = some ⟨ref, .chatList owner list, some snapshot⟩ := by
  simp only [ChatBusiness.fetchListOfChatBoxValue, bind_eq_ok] at h
  obtain ⟨objects, hobjects, hdev⟩ := h
  cases hdev
  rw [Device.fetchListOfChatBoxDidEnd_eq]
  refine ⟨objects, _, hobjects, rfl, rfl, rfl, ?_⟩
  show (List.filter _ (dev.observersDelivered i _ snapshot))[i]? = _
  rw [hroot.filter_delivered, Device.observersDelivered_self ho]

section step

variable {c c' : Client} {i : Nat} {timestamp : Int64} {ref : Path} {owner : UserId}
  {captured : List ChatRef} {last : Option Snapshot}

/-- What is captured stays captured. -/
theorem captured_of_fire (hroot : c.dev.BelowRoot)
    (hstep : c.step (.act (.fire i timestamp)) = .ok c')
    (ho : c.dev.observers[i]? = some ⟨ref, .chatList owner captured, last⟩) :
    ∃ captured' last', c'.dev.observers[i]? = some ⟨ref, .chatList owner captured', last'⟩ ∧
      (captured' = [] ↔ captured = [] ∧ (c.value ref).children = []) := by
  obtain ⟨objects, list, hobjects, rfl, -, -, ho'⟩ :=
    fetchListOfChatBoxValue_inv hroot ho (Client.step_fire_inv hstep ho).2
  refine ⟨_, _, ho', ?_⟩
  rw [List.append_eq_nil_iff, List.range'_eq_nil_iff, length_of_mapM_eq_ok hobjects,
    List.length_eq_zero_iff]

/-- **Exactly when** a delivery is the snapshot that triggered it: nothing was captured
before. -/
theorem handsSnapshot_iff (hroot : c.dev.BelowRoot) (hlists : ListsInv c.dev)
    (hstep : c.step (.act (.fire i timestamp)) = .ok c')
    (ho : c.dev.observers[i]? = some ⟨ref, .chatList owner captured, last⟩) :
    HandsSnapshot i (c, .act (.fire i timestamp), c') ↔ captured = [] := by
  obtain ⟨objects, list, hobjects, rfl, hchats, hhomes, -⟩ :=
    fetchListOfChatBoxValue_inv hroot ho (Client.step_fire_inv hstep ho).2
  have hlength : objects.length = (c.value ref).children.length := length_of_mapM_eq_ok hobjects
  constructor
  · intro hands
    obtain ⟨hne, -⟩ := hlists.captured ref owner captured last (List.mem_of_getElem? ho)
    obtain ⟨home, hlistener, hlt⟩ := hlists.listener hne
    obtain ⟨hcount, -⟩ := hands timestamp _ owner captured home _ rfl ho rfl hlistener
      (by rw [hhomes, Device.handed, hlistener, List.getElem?_modify_eq,
        List.getElem?_eq_getElem hlt]; rfl)
    -- one entry for each child leaves no room for what was captured before
    have hcount : (captured ++ List.range' c.dev.chats.length objects.length).length =
        (c.value ref).children.length := hcount
    rw [List.length_append, List.length_range', hlength] at hcount
    exact List.eq_nil_of_length_eq_zero (by omega)
  · intro hnil timestamp' o owner' captured' home vc _ ho' hcallback hlistener hvc
    subst hnil
    cases ho.symm.trans ho'
    cases hcallback
    have hlistener : c.dev.fetchListOfChatBoxListener = some home := hlistener
    simp only [hhomes, Device.handed, hlistener, List.getElem?_modify] at hvc
    obtain ⟨vc', -, rfl⟩ := Option.map_eq_some_iff.mp hvc
    refine ⟨by simp [hlength], fun k key hkey => ?_⟩
    obtain ⟨o, hobject, hdecode⟩ := getElem?_of_mapM_eq_ok hobjects hkey
    obtain ⟨chat, hchat, heq⟩ := bind_eq_ok.mp hdecode
    cases heq
    have hk := (List.getElem?_eq_some_iff.mp hobject).1
    refine ⟨c.dev.chats.length + k, chat, ?_, hchat, ?_⟩
    · simp [hk]
    · rw [hchats, List.getElem?_append_right (Nat.le_add_right _ _), Nat.add_sub_cancel_left, hobject]

end step

/-! ### Runs -/

theorem Client.listsInv {c : Client} (h : Client.Reachable c) : ListsInv c.dev :=
  Client.device_invariant (fun _ _ => ⟨by simp [Device.launch], by simp [Device.launch]⟩)
    (fun _ _ h => ⟨h.captured, h.listener⟩) (fun h hout _ => listsInv_outcome h hout) h

section runs

variable {c₀ c₁ c : Client} {home : Nat} {tr : List (Client × Happening × Client)}

/-- `viewWillAppear` registers the observer, with nothing captured. -/
theorem observer_of_homeWillAppear (hcall : c₀.step (.act (.homeWillAppear home)) = .ok c₁) :
    ∃ ref owner,
      c₁.dev.observers[c₀.dev.observers.length]? = some ⟨ref, .chatList owner [], none⟩ := by
  obtain ⟨-, -, hout⟩ := Client.step_act_inv hcall
  cases c₁
  cases hout
  exact ⟨_, _, List.getElem?_concat_length⟩

/-- Nothing is captured as long as all snapshots are empty. -/
theorem captured_eq_nil_iff {i : Nat} {ref : Path} {owner : UserId} (hroot : c₁.dev.BelowRoot)
    (ho : c₁.dev.observers[i]? = some ⟨ref, .chatList owner [], none⟩)
    (hrun : Client.RunFrom c₁ tr c) :
    ∃ captured last, c.dev.observers[i]? = some ⟨ref, .chatList owner captured, last⟩ ∧
      (captured = [] ↔ ∀ v ∈ snapshots i tr, v.children = []) := by
  induction hrun with
  | start h =>
      subst h
      exact ⟨[], none, ho, by simp⟩
  | @next tr c c' e h _ hstep ih =>
      obtain ⟨captured, last, ho', hnil⟩ := ih
      have hroot' := Client.RunFrom.belowRoot hroot h
      by_cases hfire : ∃ timestamp, e = .act (.fire i timestamp)
      · obtain ⟨timestamp, rfl⟩ := hfire
        obtain ⟨captured', last', ho'', hnil'⟩ := captured_of_fire hroot' hstep ho'
        refine ⟨captured', last', ho'', ?_⟩
        rw [Client.snapshots_of_fire ho', List.forall_mem_append, List.forall_mem_singleton, ← hnil]
        exact hnil'
      · have hne : ∀ timestamp, e ≠ .act (.fire i timestamp) := fun t h => hfire ⟨t, h⟩
        rw [Client.snapshots_of_ne hne]
        refine ⟨captured, last, ?_, hnil⟩
        cases e with
        | act action =>
            obtain ⟨hlive, -, hout⟩ := Client.step_act_inv hstep
            exact hout.observer_of_ne hroot' hlive ho' fun t ht => hne t (by rw [ht])
        | sync server flushed =>
            cases hstep
            exact ho'

/-- **The delivered lists, exactly.** Whatever happens to `chatbox/u` after a call of
`fetchListOfChatBox`, all lists that its observer hands over are the snapshots that
triggered them if and only if every snapshot before the last one is empty. -/
theorem lists_delivered (hreach : Client.Reachable c₀)
    (hcall : c₀.step (.act (.homeWillAppear home)) = .ok c₁) (hrun : Client.RunFrom c₁ tr c) :
    (∀ x ∈ tr, HandsSnapshot c₀.dev.observers.length x) ↔
      ∀ v ∈ (snapshots c₀.dev.observers.length tr).dropLast, v.children = [] := by
  obtain ⟨ref, owner, ho⟩ := observer_of_homeWillAppear hcall
  have hreach₁ : Client.Reachable c₁ := .next hreach trivial hcall
  have hroot := Client.belowRoot hreach₁
  induction hrun with
  | start => simp
  | @next tr c c' e h _ hstep ih =>
      rw [List.forall_mem_append, List.forall_mem_singleton]
      refine (and_congr_left' ih).trans ?_
      by_cases hfire : ∃ timestamp, e = .act (.fire c₀.dev.observers.length timestamp)
      · obtain ⟨timestamp, rfl⟩ := hfire
        obtain ⟨captured, last, ho', hnil⟩ := captured_eq_nil_iff hroot ho h
        rw [handsSnapshot_iff (Client.RunFrom.belowRoot hroot h)
          (Client.listsInv (Client.RunFrom.reachable hreach₁ h)) hstep ho',
          Client.snapshots_of_fire ho', List.dropLast_concat, hnil]
        exact and_iff_right_of_imp fun hempty v hv => hempty v (List.mem_of_mem_dropLast hv)
      · have hne : ∀ timestamp, e ≠ .act (.fire c₀.dev.observers.length timestamp) :=
          fun t h => hfire ⟨t, h⟩
        rw [Client.snapshots_of_ne hne]
        refine and_iff_left_of_imp fun _ => ?_
        intro timestamp o owner' captured home' vc heq
        exact absurd heq (hne timestamp)

end runs

/-- A message changes the row of user 1 after the list was fetched. -/
def sampleChange : List Happening :=
  [.act (.fire 1 0), .sync (sampleData [.chat "1" "2" (sampleRow "ho" 11)]) 0, .act (.fire 1 0)]

theorem lists_delivered_sample :
    ∃ c₀ c₁ tr c, Client.Reachable c₀ ∧ c₀.step (.act (.homeWillAppear 0)) = .ok c₁ ∧
      Client.RunFrom c₁ tr c ∧ ((∀ x ∈ tr, HandsSnapshot c₀.dev.observers.length x) ↔
        ∀ v ∈ (snapshots c₀.dev.observers.length tr).dropLast, v.children = []) := by
  have hrun : ((Transition.run Client.step (fun _ _ => true)
      (sampleClient [.chat "1" "2" (sampleRow "hi" 10)]) sampleLife).bind fun c₀ =>
      (c₀.step (.act (.homeWillAppear 0))).toOption.bind fun c₁ =>
        Transition.run Client.step (fun _ _ => true) c₁ sampleChange).isSome := by
    decide +kernel
  obtain ⟨c, hc⟩ := Option.isSome_iff_exists.mp hrun
  obtain ⟨c₀, hc₀, hc⟩ := Option.bind_eq_some_iff.mp hc
  obtain ⟨c₁, hcall, hc⟩ := Option.bind_eq_some_iff.mp hc
  have hcall : c₀.step (.act (.homeWillAppear 0)) = .ok c₁ := eq_ok_of_toOption hcall
  have hreach := Client.reachable_of_run hc₀
  have htr := Client.runFrom_of_run hc
  exact ⟨c₀, c₁, _, c, hreach, hcall, htr, lists_delivered hreach hcall htr⟩

/-- The second list has the row twice, once as it was before the message. -/
theorem lists_accumulate :
    ¬ ∀ c₀ home c₁ tr c, Client.Reachable c₀ → c₀.step (.act (.homeWillAppear home)) = .ok c₁ →
      Client.RunFrom c₁ tr c → ∀ x ∈ tr, HandsSnapshot c₀.dev.observers.length x := by
  intro h
  have hrun : ((Transition.run Client.step (fun _ _ => true)
      (sampleClient [.chat "1" "2" (sampleRow "hi" 10)]) sampleLife).bind fun c₀ =>
      (c₀.step (.act (.homeWillAppear 0))).toOption.bind fun c₁ =>
        (Transition.run Client.step (fun _ _ => true) c₁ (sampleChange.take 2)).bind fun c =>
          (c.step (.act (.fire 1 0))).toOption.map fun _ =>
            decide (c₀.dev.observers.length = 1) &&
              decide (c.dev.observers[1]?.map Observer.callback = some (.chatList "1" [0]))) =
      some true := by
    decide +kernel
  obtain ⟨c₀, hc₀, hrun⟩ := Option.bind_eq_some_iff.mp hrun
  obtain ⟨c₁, hcall, hrun⟩ := Option.bind_eq_some_iff.mp hrun
  obtain ⟨c, hc, hrun⟩ := Option.bind_eq_some_iff.mp hrun
  obtain ⟨c', hstep, hstate⟩ := Option.map_eq_some_iff.mp hrun
  have hcall : c₀.step (.act (.homeWillAppear 0)) = .ok c₁ := eq_ok_of_toOption hcall
  have hstep : c.step (.act (.fire 1 0)) = .ok c' := eq_ok_of_toOption hstep
  simp only [Bool.and_eq_true, decide_eq_true_eq, Option.map_eq_some_iff] at hstate
  obtain ⟨hlength, ⟨ref, callback, last⟩, ho, hcallback⟩ := hstate
  subst hcallback
  have hreach := Client.reachable_of_run hc₀
  have hreach₁ : Client.Reachable c₁ := .next hreach trivial hcall
  have htr := Client.runFrom_of_run hc
  have hreach' := Client.RunFrom.reachable hreach₁ htr
  have hands := h c₀ 0 c₁ _ c' hreach hcall (.next htr trivial hstep)
    (c, .act (.fire 1 0), c') (by simp)
  rw [hlength, handsSnapshot_iff (Client.belowRoot hreach') (Client.listsInv hreach') hstep ho] at hands
  cases hands

end MyChat
