import MyChat.Issued

/-!
# MyChat.AccountIsolation

Which account's rows are handed to the home screen. An observer of `chatbox/<owner>`
is never removed: `removeAllObservers` is called on the root, where it is not
registered. It outlives a logout and reports to whatever home screen is the one shared
listener. So a list handed over while `B` is logged in consists of `B`'s rows exactly
when the observer that fires was registered for `B`, or has nothing to hand over
(`lists_isolated`). `lists_not_isolated` is a run in which it was registered for the
account that logged out.
-/

namespace MyChat

variable {ι : Type} [DecidableEq ι]

/-- If this event hands a list to the home screen while `B` is logged in, all of the
list was stored under `chatbox/B`. -/
def HandsOwn (s : System ι) (e : Event ι) (s' : System ι) : Prop :=
  match e with
  | .act δ (.fire i _) =>
      ∀ ref owner chatList last B home vc,
        (s.devices δ).observers[i]? = some ⟨ref, .chatList owner chatList, last⟩ →
        (s.devices δ).accessToken = some B →
        (s.devices δ).fetchListOfChatBoxListener = some home →
        (s'.devices δ).homes[home]? = some vc →
        ∀ r ∈ vc.chatList, ∃ key, (s'.devices δ).places[r]? = some (B, key)
  | _ => True

/-- If a chat list observer fires while `B` is logged in, it was registered for `B`, or
it has decoded nothing and there is nothing to decode. -/
def OwnObserver (s : System ι) (e : Event ι) : Prop :=
  match e with
  | .act δ (.fire i _) =>
      ∀ ref owner chatList last B,
        (s.devices δ).observers[i]? = some ⟨ref, .chatList owner chatList, last⟩ →
        (s.devices δ).accessToken = some B →
        owner = B ∨ chatList = [] ∧
          (((s.devices δ).view s.server.tree).subtree ref).children = []
  | _ => True

/-! ### What the chat list observers captured -/

/-- Captured lists hold objects of the observer's account, and whoever fetches lists
reports to a home screen. -/
structure ListsInv (dev : Device) : Prop where
  captured : ∀ ref owner chatList last, ⟨ref, .chatList owner chatList, last⟩ ∈ dev.observers →
    dev.homes ≠ [] ∧ ∀ r ∈ chatList, ∃ key, dev.places[r]? = some (owner, key)
  listener : dev.homes ≠ [] →
    ∃ home, dev.fetchListOfChatBoxListener = some home ∧ home < dev.homes.length

section step

variable {dev dev' : Device} {server : Snapshot}

theorem length_of_mapM_eq_ok {α β : Type} {f : α → Except Fault β} {as : List α} {bs : List β}
    (h : as.mapM f = .ok bs) : bs.length = as.length := by
  induction as generalizing bs with
  | nil =>
      cases h
      rfl
  | cons a as ih =>
      rw [List.mapM_cons] at h
      simp only [bind_eq_ok] at h
      obtain ⟨b, -, bs', hbs', h⟩ := h
      cases h
      simp [ih hbs']

/-- Decoded objects are of the account that was fetched. -/
theorem chatObjects_owner {owner : UserId} {snapshot : Snapshot} {objects : List ChatObject}
    (h : ChatBusiness.chatObjects owner snapshot = .ok objects) : ∀ o ∈ objects, o.owner = owner := by
  intro o ho
  obtain ⟨key, -, hchat⟩ := mem_of_mapM_eq_ok h o ho
  obtain ⟨chat, -, heq⟩ := bind_eq_ok.mp hchat
  cases heq
  rfl

/-- The list handed over is of one account: what was captured, then what is decoded. -/
theorem places_of_list {chatList : List ChatRef} {owner : UserId} {snapshot : Snapshot}
    {objects : List ChatObject}
    (hcaptured : ∀ r ∈ chatList, ∃ key, dev.places[r]? = some (owner, key))
    (hobjects : ChatBusiness.chatObjects owner snapshot = .ok objects) :
    ∀ r ∈ chatList ++ List.range' dev.chats.length objects.length,
      ∃ key, ((dev.chats ++ objects).map fun o => (o.owner, o.key))[r]? = some (owner, key) := by
  intro (r : Nat) hr
  rw [List.map_append]
  show ∃ key, (dev.places ++ _)[r]? = some (owner, key)
  rcases List.mem_append.mp hr with hr | hr
  · obtain ⟨key, hkey⟩ := hcaptured r hr
    refine ⟨key, ?_⟩
    rw [List.getElem?_append_left (List.getElem?_eq_some_iff.mp hkey).1]
    exact hkey
  · obtain ⟨hle, hlt⟩ : dev.chats.length ≤ r ∧ r < dev.chats.length + objects.length :=
      List.mem_range'_1.mp hr
    have hi : r - dev.chats.length < objects.length := by omega
    refine ⟨objects[r - dev.chats.length].key, ?_⟩
    rw [List.getElem?_append_right (by simpa [Device.places] using hle)]
    have howner := chatObjects_owner hobjects _ (List.getElem_mem hi)
    simp [Device.places, List.getElem?_eq_getElem hi, howner]

/-- Home screens are only ever added, and a new one becomes the listener. -/
theorem homes_outcome {action : Action} (hout : dev.Outcome server action dev')
    (hlive : ∀ randomId, action ≠ .relaunch randomId) :
    (dev'.fetchListOfChatBoxListener = dev.fetchListOfChatBoxListener ∧
        dev'.homes.length = dev.homes.length) ∨
      (dev'.fetchListOfChatBoxListener = some dev.homes.length ∧
        dev'.homes.length = dev.homes.length + 1) := by
  cases hout with
  | relaunch => exact absurd rfl (hlive _)
  | loginKnown | loginNew => exact Or.inr ⟨rfl, by simp⟩
  | chatList =>
      refine Or.inl ⟨rfl, ?_⟩
      show (dev.handed _).length = _
      unfold Device.handed
      split <;> simp
  | _ => exact Or.inl ⟨rfl, rfl⟩

/-- What the closure of a chat list observer does. -/
theorem chatList_fire_inv {i : Nat} {timestamp : Int64} {ref : Path} {owner : UserId}
    {captured : List ChatRef} {snapshot : Snapshot}
    (hout : dev.Outcome server (.fire i timestamp) dev')
    (hfires : dev.Fires server i ref (.chatList owner captured) snapshot) :
    ∃ objects, ChatBusiness.chatObjects owner snapshot = .ok objects ∧
      dev'.chats = dev.chats ++ objects ∧
      dev'.homes = dev.handed (captured ++ List.range' dev.chats.length objects.length) := by
  -- only the closure of this observer can have run
  have hcallback : ∀ {ref' callback snapshot'}, dev.Fires server i ref' callback snapshot' →
      ref' = ref ∧ callback = .chatList owner captured := by
    rintro ref' callback snapshot' ⟨last', ho', -⟩
    obtain ⟨last, ho, -⟩ := hfires
    obtain ⟨h₁, h₂, -⟩ := Observer.mk.inj (Option.some.inj (ho'.symm.trans ho))
    exact ⟨h₁, h₂⟩
  cases hout with
  | chatList hfires' hobjects hlist =>
      obtain ⟨rfl, hcaptured⟩ := hcallback hfires'
      obtain ⟨rfl, rfl⟩ := Callback.chatList.inj hcaptured
      obtain rfl := hfires'.snapshot_eq.trans hfires.snapshot_eq.symm
      exact ⟨_, hobjects, rfl, by rw [hlist]⟩
  | loginKnown hfires' | loginNew hfires' | createExists hfires' | create hfires'
  | lookupFound hfires' | lookupMissing hfires' | friend hfires' | message hfires' =>
      cases (hcallback hfires').2

/-- **Step.** Nothing that happens mixes accounts in a captured list. -/
theorem listsInv_outcome (h : ListsInv dev) {action : Action}
    (hout : dev.Outcome server action dev') : ListsInv dev' := by
  by_cases hrelaunch : ∃ randomId, action = .relaunch randomId
  · obtain ⟨randomId, rfl⟩ := hrelaunch
    cases hout with
    | relaunch => exact ⟨by simp [Device.launch], by simp [Device.launch]⟩
  have hlive : ∀ randomId, action ≠ .relaunch randomId := fun r h => hrelaunch ⟨r, h⟩
  have hhomes := homes_outcome hout hlive
  have hne : dev.homes ≠ [] → dev'.homes ≠ [] := by
    rw [← List.length_pos_iff, ← List.length_pos_iff]
    omega
  have hold : ∀ {ref owner chatList last}, ⟨ref, .chatList owner chatList, last⟩ ∈ dev.observers →
      dev'.homes ≠ [] ∧ ∀ r ∈ chatList, ∃ key, dev'.places[r]? = some (owner, key) := by
    intro ref owner chatList last hmem
    obtain ⟨hhome, hcaptured⟩ := h.captured ref owner chatList last hmem
    refine ⟨hne hhome, fun r hr => ?_⟩
    obtain ⟨key, hkey⟩ := hcaptured r hr
    obtain ⟨t, ht⟩ := hout.places_prefix hlive
    refine ⟨key, ?_⟩
    rw [← ht, List.getElem?_append_left (List.getElem?_eq_some_iff.mp hkey).1]
    exact hkey
  refine ⟨fun ref owner chatList last hmem => ?_, fun hne' => ?_⟩
  · rcases hout.observes hmem with hmem | hobs
    · exact hold hmem
    cases hobs with
    | chatList hhomes => exact ⟨hne hhomes, by simp⟩
    | fired hfires =>
        obtain ⟨last', hmem⟩ := hfires.mem
        exact hold hmem
    | @firedChatList i timestamp ref owner captured snapshot objects hfires hobjects =>
        obtain ⟨last', hmem⟩ := hfires.mem
        obtain ⟨hhome, hcaptured⟩ := h.captured ref owner captured last' hmem
        refine ⟨hne hhome, ?_⟩
        obtain ⟨objects', hobjects', hchats, -⟩ := chatList_fire_inv hout hfires
        cases hobjects.symm.trans hobjects'
        rw [Device.places, hchats]
        exact places_of_list hcaptured hobjects
  · rcases hhomes with ⟨hlistener, hlength⟩ | ⟨hlistener, hlength⟩
    · rw [hlistener, hlength]
      refine h.listener ?_
      rw [← List.length_pos_iff] at hne' ⊢
      omega
    · exact ⟨dev.homes.length, hlistener, by omega⟩

end step

/-! ### Runs -/

section runs

variable {s : System ι}

/-- **Invariant.** Of every run, whatever happens in it. -/
theorem listsInv {guard : System ι → Event ι → Prop} (h : System.Reachable guard s) (δ : ι) :
    ListsInv (s.devices δ) := by
  refine System.device_invariant (P := fun _ dev => ListsInv dev) ?_ ?_ ?_ h δ
  · intro δ randomId
    exact ⟨by simp [Device.launch], by simp [Device.launch]⟩
  · intro δ dev ws hlists
    exact ⟨hlists.captured, hlists.listener⟩
  · intro s δ action dev' _ hlists _ hact
    exact listsInv_outcome hlists (Device.act_inv hact)

/-- A firing chat list observer hands over exactly what it captured and decoded. -/
theorem handed_of_step {δ : ι} {i home : Nat} {timestamp : Int64} {s' : System ι} {ref : Path}
    {owner : UserId} {chatList : List ChatRef} {last : Option Snapshot} {vc : HomeViewController}
    (hstep : s.step (.act δ (.fire i timestamp)) = .ok s')
    (ho : (s.devices δ).observers[i]? = some ⟨ref, .chatList owner chatList, last⟩)
    (hlistener : (s.devices δ).fetchListOfChatBoxListener = some home)
    (hvc : (s'.devices δ).homes[home]? = some vc) :
    ∃ objects, ChatBusiness.chatObjects owner
        (((s.devices δ).view s.server.tree).subtree ref) = .ok objects ∧
      vc.chatList = chatList ++ List.range' (s.devices δ).chats.length objects.length ∧
      (s'.devices δ).chats = (s.devices δ).chats ++ objects := by
  obtain ⟨dev', hact, rfl⟩ := System.step_act_eq_ok.mp hstep
  have hout := Device.act_inv hact
  simp only [Function.update_self] at hvc ⊢
  have hlast : last ≠ some (((s.devices δ).view s.server.tree).subtree ref) := by
    rintro rfl
    simp [Device.act, ho, enabled, bind, Except.bind] at hact
  obtain ⟨objects, hobjects, hchats, hhomes⟩ := chatList_fire_inv hout ⟨last, ho, rfl, hlast⟩
  refine ⟨objects, hobjects, ?_, hchats⟩
  simp only [hhomes, Device.handed, hlistener, List.getElem?_modify] at hvc
  obtain ⟨vc', -, rfl⟩ := Option.map_eq_some_iff.mp hvc
  simp

theorem home_of_fire {δ : ι} {i home : Nat} {timestamp : Int64} {s' : System ι}
    (hstep : s.step (.act δ (.fire i timestamp)) = .ok s')
    (hhome : home < (s.devices δ).homes.length) : ∃ vc, (s'.devices δ).homes[home]? = some vc := by
  obtain ⟨dev', hact, rfl⟩ := System.step_act_eq_ok.mp hstep
  simp only [Function.update_self]
  have hlength := homes_outcome (Device.act_inv hact) (by simp)
  have hlt : home < dev'.homes.length := by omega
  exact ⟨dev'.homes[home], List.getElem?_eq_getElem hlt⟩

/-- **Exactly when** a list handed over while `B` is logged in is `B`'s. -/
theorem handsOwn_iff {guard : System ι → Event ι → Prop} {e : Event ι} {s' : System ι}
    (h : System.Reachable guard s) (hstep : s.step e = .ok s') :
    HandsOwn s e s' ↔ OwnObserver s e := by
  unfold HandsOwn OwnObserver
  split
  · next δ i timestamp =>
    have hlists := listsInv h δ
    constructor
    · intro hown ref owner chatList last B ho htoken
      obtain ⟨hhomes, hcaptured⟩ := hlists.captured ref owner chatList last (List.mem_of_getElem? ho)
      obtain ⟨home, hlistener, hhome⟩ := hlists.listener hhomes
      obtain ⟨vc, hvc⟩ := home_of_fire hstep hhome
      obtain ⟨objects, hobjects, hlist, hchats⟩ := handed_of_step hstep ho hlistener hvc
      have hB := hown ref owner chatList last B home vc ho htoken hlistener hvc
      have howner := places_of_list hcaptured hobjects
      rw [hlist, Device.places, hchats] at hB
      cases hl : chatList ++ List.range' (s.devices δ).chats.length objects.length with
      | nil =>
          obtain ⟨hnil, hrange⟩ := List.append_eq_nil_iff.mp hl
          have hlength := length_of_mapM_eq_ok hobjects
          rw [List.range'_eq_nil_iff.mp hrange] at hlength
          exact Or.inr ⟨hnil, List.eq_nil_of_length_eq_zero hlength.symm⟩
      | cons r rs =>
          obtain ⟨key, hkey⟩ := hB r (by simp [hl])
          obtain ⟨key', hkey'⟩ := howner r (by simp [hl])
          exact Or.inl (Prod.mk.inj (Option.some.inj (hkey'.symm.trans hkey))).1
    · intro hcond ref owner chatList last B home vc ho htoken hlistener hvc r hr
      obtain ⟨-, hcaptured⟩ := hlists.captured ref owner chatList last (List.mem_of_getElem? ho)
      obtain ⟨objects, hobjects, hlist, hchats⟩ := handed_of_step hstep ho hlistener hvc
      rw [Device.places, hchats]
      rw [hlist] at hr
      rcases hcond ref owner chatList last B ho htoken with rfl | ⟨rfl, hnone⟩
      · exact places_of_list hcaptured hobjects r hr
      · have hlength := length_of_mapM_eq_ok hobjects
        simp [hlength, hnone] at hr
  · rfl

/-- **Account isolation, exactly.** In a run every list handed over while an account is
logged in is that account's if and only if every chat list observer that fires then was
registered for that account, or has nothing to hand over. -/
theorem lists_isolated {guard : System ι → Event ι → Prop}
    {tr : List (System ι × Event ι × System ι)} (h : System.Run guard tr s) :
    (∀ x ∈ tr, HandsOwn x.1 x.2.1 x.2.2) ↔ ∀ x ∈ tr, OwnObserver x.1 x.2.1 := by
  refine forall₂_congr fun x hx => ?_
  obtain ⟨⟨tr', -, hx'⟩, -, hstep⟩ := h.mem hx
  exact handsOwn_iff hx'.reachable hstep

end runs

/-! ### A run with two accounts on one device -/

/-- No assumption about a run. -/
def AnyRun (_ : System ι) (_ : Event ι) : Prop := True

/-- User 1 logs out and user 3 logs in on the same device; then user 2 sends to user 1. -/
def sampleSwitch : List (Event Bool) :=
  sampleOpen ++
    [.act false .logOut, .act false (.logIn "3"), .act false .fetchFacebookData,
      .act false (.reply 0 (some (sampleMe "3"))), .act false (.fire 6 0), .flush false,
      .act true (.addFriend "1"), .act true (.fire 1 0), .act true (.fire 2 200), .flush true,
      .act true (.homeWillAppear 0), .act true (.fire 3 0), .act true (.rowTapped 0 0),
      .act true (.sendTapped 0 "hi" (sampleId 'c') 201), .flush true, .flush true, .flush true,
      .flush true]

/-- The run in which user 1 opens a chat. -/
theorem lists_isolated_sample :
    ∃ tr s, System.Run AnyRun tr s ∧ tr.map (fun x => x.2.1) = sampleOpen ∧
      ((∀ x ∈ tr, HandsOwn x.1 x.2.1 x.2.2) ↔ ∀ x ∈ tr, OwnObserver x.1 x.2.1) := by
  have hrun : (Transition.run System.step (fun _ _ => true) sampleStart sampleOpen).isSome := by
    decide +kernel
  obtain ⟨s, hs⟩ := Option.isSome_iff_exists.mp hrun
  obtain ⟨tr, htr, hevents⟩ :=
    Transition.Trace.of_run (fun _ _ _ => trivial) (.start initial_sampleStart) hs
  exact ⟨tr, s, htr, hevents, lists_isolated htr⟩

/-- The observer of user 1 hands user 1's row to the home screen of user 3. -/
theorem lists_not_isolated :
    ¬ ∀ (s : System Bool) e s', System.Reachable AnyRun s → s.step e = .ok s' → HandsOwn s e s' := by
  intro h
  have hrun : (Transition.run System.step (fun _ _ => true) sampleStart sampleSwitch).bind (fun s =>
      (s.step (.act false (.fire 3 0))).toOption.map fun s' =>
        decide ((s.devices false).accessToken = some "3") &&
          decide ((s.devices false).observers[3]?.map Observer.callback =
            some (.chatList "1" [0])) &&
          decide ((s.devices false).fetchListOfChatBoxListener = some 1) &&
          decide ((s'.devices false).homes[1]?.map HomeViewController.chatList = some [0, 1]) &&
          decide ((s'.devices false).places[1]? = some ("1", "1_2"))) = some true := by
    decide +kernel
  obtain ⟨s, hs, hstep⟩ := Option.bind_eq_some_iff.mp hrun
  obtain ⟨s', hstep, hstate⟩ := Option.map_eq_some_iff.mp hstep
  have hstep' : s.step (.act false (.fire 3 0)) = .ok s' := by
    cases hs' : s.step (.act false (.fire 3 0)) with
    | error => simp [hs', Except.toOption] at hstep
    | ok t => simpa [hs', Except.toOption] using hstep
  simp only [Bool.and_eq_true, decide_eq_true_eq, Option.map_eq_some_iff] at hstate
  obtain ⟨⟨⟨⟨htoken, ⟨ref, callback, last⟩, ho, hcallback⟩, hlistener⟩, vc, hvc, hlist⟩, hplace⟩ :=
    hstate
  subst hcallback
  have hown := h s _ s' (.of_run (fun _ _ _ => trivial)
    (.start initial_sampleStart) hs) hstep'
  obtain ⟨key, hkey⟩ := hown ref "1" [0] last "3" 1 vc ho htoken hlistener hvc 1 (by simp [hlist])
  rw [hplace] at hkey
  simp at hkey

end MyChat
