import MyChat.Issued

/-!
# MyChat.LoginIdentity

Whose data a login stores. The id is read from the token when the reply arrives, name
and picture come from the account whose token was current when the request was
issued. They belong together exactly when those are the same account
(`logins_match`); then also every record `users/x` holds the data of `x`. With a
request under way during an account switch they do not (`logins_mixed`).
-/

namespace MyChat

variable {ι : Type} [DecidableEq ι]

/-- Replies are honest and Facebook's ids contain no `/`. -/
def LoginRun (me : UserId → Json) (s : System ι) (e : Event ι) : Prop :=
  Honest me s e ∧
    match e with
    | .act _ (.logIn account) => '/' ∉ account.toList
    | _ => True

/-- A reply for the account that is logged in makes it the current user, with its own
name and picture; a reply that arrives after logout or for another account changes
neither the current user nor goes on to `users/*`. -/
def LoginOk (me : UserId → Json) (s : System ι) (e : Event ι) (s' : System ι) : Prop :=
  match e with
  | .act δ (.reply i (some _)) =>
      ∀ request, (s.devices δ).requests[i]? = some request →
        (∃ account, request = some account ∧ (s.devices δ).accessToken = some account ∧
          (s'.devices δ).currentUser.id = some account ∧
          (s'.devices δ).currentUser.name = facebookName (me account) ∧
          (s'.devices δ).currentUser.avatarUrl = facebookUrl (me account)) ∨
        (request ≠ (s.devices δ).accessToken ∧
          (s'.devices δ).currentUser = (s.devices δ).currentUser ∧
          (s'.devices δ).observers = (s.devices δ).observers)
  | _ => True

/-- A reply arrives while the account of its request is logged in. -/
def OwnReply (s : System ι) (e : Event ι) : Prop :=
  match e with
  | .act δ (.reply i (some _)) =>
      ∀ request, (s.devices δ).requests[i]? = some request → request = (s.devices δ).accessToken
  | _ => True

/-- What is stored under `users/x` is the record of `x`, with its name and picture. -/
def UsersGenuine (me : UserId → Json) (s : System ι) : Prop :=
  ∀ x, s.server.tree.subtree ["users", x] ≠ ∅ →
    ∃ u : UserRecord, s.server.tree.subtree ["users", x] = u.dict ∧ u.id = x ∧ Genuine me u

/-! ### The replies -/

section reply

variable {me : UserId → Json} {s s' : System ι} {e : Event ι}

/-- **Exactly when** a reply does what it should. -/
theorem loginOk_iff (hguard : LoginRun me s e) (hstep : s.step e = .ok s') :
    LoginOk me s e s' ↔ OwnReply s e := by
  unfold LoginOk OwnReply
  split
  · next δ i result =>
    obtain ⟨a, ha, hname, hurl⟩ := hguard.1
    obtain ⟨dev', hact, rfl⟩ := System.step_act_eq_ok.mp hstep
    have hout := Device.act_inv hact
    simp only [Function.update_self]
    cases hout with
    | @reply _ request result u ref hrequest htoken hname' hurl' hstate href =>
        constructor
        · intro hok request' hrequest'
          rcases hok request' hrequest' with ⟨account, rfl, htoken', -⟩ | ⟨-, -, hobservers⟩
          · exact htoken'.symm
          · simp at hobservers
        · intro hown request' hrequest'
          have hsame := hown request' hrequest'
          cases ha.symm.trans hrequest'
          rw [htoken] at hsame
          obtain rfl := Option.some.inj hsame
          exact Or.inl ⟨u.id, rfl, htoken, rfl, hname'.symm.trans hname, hurl'.symm.trans hurl⟩
  · rfl

end reply

/-- A reply that arrives after logout stops the process: there is no id to force. -/
theorem reply_after_logout {dev : Device} {server : Snapshot} {i : Nat} {request : Option UserId}
    {result : Json} (hrequest : dev.requests[i]? = some request) (htoken : dev.accessToken = none) :
    dev.act server (.reply i (some result)) = .error (.foundNil "id") := by
  simp [Device.act, hrequest, htoken, enabled, ProfileBusiness.fetchFacebookDataHandler,
    LogInViewController.fetchFacebookDataDidEnd, User.getDictionary, unwrap, bind, Except.bind]

/-! ### What is stored under `users` -/

/-- What the login observers captured, and the token, are as they should be. -/
structure LoginInv (me : UserId → Json) (dev : Device) : Prop where
  token : ∀ a, dev.accessToken = some a → '/' ∉ a.toList
  login : ∀ ref user userDictionary last,
    ⟨ref, .login user userDictionary, last⟩ ∈ dev.observers →
    ∃ u : UserRecord, Genuine me u ∧ '/' ∉ u.id.toList ∧ u.Matches user ∧ userDictionary = u.dict

/-- A write below `users` stores a genuine record. -/
def UserWrite (me : UserId → Json) (w : Write) : Prop :=
  (∃ u, Genuine me u ∧ w = (Record.user u).write) ∨ ["messages"] <+: w.path ∨ ["chatbox"] <+: w.path

section users

variable {me : UserId → Json} {s : System ι}

omit [DecidableEq ι] in
/-- A reply for the account that is logged in carries its data. -/
theorem genuine_of_reply {δ : ι} {i : Nat} {result : Json} {request : Option UserId} {u : UserRecord}
    (hguard : LoginRun me s (.act δ (.reply i (some result))))
    (hown : OwnReply s (.act δ (.reply i (some result))))
    (hrequest : (s.devices δ).requests[i]? = some request)
    (htoken : (s.devices δ).accessToken = some u.id) (hname : facebookName result = some u.name)
    (hurl : facebookUrl result = some u.avatarUrl) : Genuine me u := by
  obtain ⟨a, ha, hname', hurl'⟩ := hguard.1
  cases ha.symm.trans hrequest
  have hsame := hown (some a) hrequest
  rw [htoken] at hsame
  obtain rfl := Option.some.inj hsame
  exact ⟨hname'.symm.trans hname, hurl'.symm.trans hurl⟩

/-- **Invariant.** When every reply is for the account logged in, login observers
captured genuine records. -/
theorem loginInv (h : System.Reachable (fun s e => LoginRun me s e ∧ OwnReply s e) s) (δ : ι) :
    LoginInv me (s.devices δ) := by
  refine System.device_invariant (P := fun _ dev => LoginInv me dev) ?_ ?_ ?_ h δ
  · intro δ randomId
    exact ⟨by simp [Device.launch], by simp [Device.launch]⟩
  · intro δ dev ws hinv
    exact ⟨hinv.token, hinv.login⟩
  · intro s δ action dev' _ hinv hguard hact
    have hout := Device.act_inv hact
    refine ⟨fun a ha => ?_, fun ref user userDictionary last hmem => ?_⟩
    · rcases hout.token with htoken | htoken | ⟨account, rfl, htoken⟩
      · exact hinv.token a (htoken ▸ ha)
      · simp [htoken] at ha
      · obtain rfl := Option.some.inj (htoken.symm.trans ha)
        exact hguard.1.2
    · rcases hout.observes hmem with hmem | hobs
      · exact hinv.login ref user userDictionary last hmem
      cases hobs with
      | @login i request result u ref hrequest htoken hname hurl href =>
          exact ⟨u, genuine_of_reply hguard.1 hguard.2 hrequest htoken hname hurl,
            hinv.token _ htoken, u.matches_toUser, rfl⟩
      | fired hfires =>
          obtain ⟨last', hmem⟩ := hfires.mem
          exact hinv.login ref user userDictionary last' hmem
      | firedLogin friendList hfires =>
          obtain ⟨last', hmem⟩ := hfires.mem
          obtain ⟨u, hu, hid, hmatch, hd⟩ := hinv.login _ _ _ last' hmem
          exact ⟨u, hu, hid, ⟨hmatch.id, hmatch.name, hmatch.state, hmatch.avatarUrl⟩, hd⟩

/-- Whatever an action writes is a genuine user, or not under `users`. -/
theorem userWrite_of_writes {dev : Device} {server : Snapshot} {action : Action} {ws : List Write}
    (h : LoginInv me dev) (hws : dev.Writes server action ws) : ∀ w ∈ ws, UserWrite me w := by
  intro w hw
  cases hws with
  | none => simp at hw
  | register hfires hid href =>
      obtain ⟨last, hmem⟩ := hfires.mem
      obtain ⟨u, hu, hslash, hmatch, rfl⟩ := h.login _ _ _ last hmem
      obtain rfl := hmatch.id_eq hid
      obtain ⟨-, rfl⟩ := (child_eq_ok hslash).mp href
      exact Or.inl ⟨u, hu, List.mem_singleton.mp hw⟩
  | create hfires hdict hid hfriend href =>
      obtain ⟨chatbox, hchatbox, hcreate⟩ := bind_eq_ok.mp href
      rw [List.mem_singleton.mp hw]
      exact Or.inr (Or.inr ((prefix_of_child hchatbox).trans (prefix_of_child hcreate)))
  | send hsend =>
      rcases ChatBoxViewController.mem_sendWrites hsend w hw with ⟨hpath, -⟩ | ⟨hpath, -⟩
      · exact Or.inr (Or.inl hpath)
      · exact Or.inr (Or.inr hpath)

/-- **Invariant.** Everything applied or queued under `users` is genuine. -/
theorem userWrites (h : System.Reachable (fun s e => LoginRun me s e ∧ OwnReply s e) s) :
    (∀ w ∈ s.server.log, UserWrite me w) ∧ ∀ δ, ∀ w ∈ (s.devices δ).pending, UserWrite me w := by
  refine h.invariant (I := fun s => (∀ w ∈ s.server.log, UserWrite me w) ∧
    ∀ δ, ∀ w ∈ (s.devices δ).pending, UserWrite me w) ?_ ?_
  · rintro s ⟨hserver, hdevices⟩
    refine ⟨by simp [hserver, Server.empty], fun δ => ?_⟩
    obtain ⟨randomId, -, hδ⟩ := hdevices δ
    simp [hδ, Device.launch]
  · intro s e s' hr hinv hguard hstep
    cases e with
    | act δ action =>
        obtain ⟨dev', hact, rfl⟩ := System.step_act_eq_ok.mp hstep
        have hδ : ∀ w ∈ dev'.pending, UserWrite me w := by
          rcases (Device.act_inv hact).writes with ⟨-, -, hnil⟩ | ⟨ws, hws, hpending⟩
          · simp [hnil]
          · intro w hw
            rw [hpending] at hw
            rcases List.mem_append.mp hw with hw | hw
            · exact hinv.2 δ w hw
            · exact userWrite_of_writes (loginInv hr δ) hws w hw
        exact ⟨hinv.1, (Function.forall_update_iff s.devices
          fun _ dev => ∀ w ∈ dev.pending, UserWrite me w).mpr ⟨hδ, fun δ' _ => hinv.2 δ'⟩⟩
    | flush δ =>
        obtain ⟨v, ws, hpending, rfl⟩ := System.step_flush_eq_ok.mp hstep
        have hqueue := hinv.2 δ
        rw [hpending, List.forall_mem_cons] at hqueue
        refine ⟨fun w hw => ?_, (Function.forall_update_iff s.devices
          fun _ dev => ∀ w ∈ dev.pending, UserWrite me w).mpr ⟨hqueue.2, fun δ' _ => hinv.2 δ'⟩⟩
        rcases List.mem_append.mp hw with hw | hw
        · exact hinv.1 w hw
        · rw [List.mem_singleton.mp hw]
          exact hqueue.1

/-- A location `users/x` after such writes. -/
theorem users_applyAll {ws : List Write} (hws : ∀ w ∈ ws, UserWrite me w) (tree : Snapshot)
    (x : UserId) : (applyAll tree ws).subtree ["users", x] = tree.subtree ["users", x] ∨
      ∃ u : UserRecord, (applyAll tree ws).subtree ["users", x] = u.dict ∧ u.id = x ∧
        Genuine me u := by
  induction ws generalizing tree with
  | nil => exact Or.inl rfl
  | cons w ws ih =>
      rw [List.forall_mem_cons] at hws
      rcases ih hws.2 (w.apply tree) with hsame | hgenuine
      · rw [applyAll_cons, hsame]
        rcases hws.1 with ⟨u, hu, rfl⟩ | hpath | hpath
        · by_cases hx : u.id = x
          · subst hx
            exact Or.inr ⟨u, subtree_apply_self (.user u) tree, rfl, hu⟩
          · refine Or.inl (PathTree.subtree_graft_of_incomparable ?_)
            simp [Record.write, Record.path, Incomparable, hx, Ne.symm hx]
        · exact Or.inl (PathTree.subtree_graft_of_incomparable (incomparable_of_head hpath (by decide)))
        · exact Or.inl (PathTree.subtree_graft_of_incomparable (incomparable_of_head hpath (by decide)))
      · exact Or.inr hgenuine

/-- **Invariant.** When every reply is for the account logged in, `users/x` is `x`'s. -/
theorem users_genuine (h : System.Reachable (fun s e => LoginRun me s e ∧ OwnReply s e) s) :
    UsersGenuine me s := by
  intro x hne
  rw [s.server.tree_eq] at hne ⊢
  rcases users_applyAll (userWrites h).1 ∅ x with hsame | hgenuine
  · rw [hsame, PathTree.subtree_empty] at hne
    exact absurd rfl hne
  · exact hgenuine

/-- **Login identity.** In a run every reply does what it should if and only if every
reply arrives while the account of its request is logged in; and then every record
under `users` is genuine in the state the run ends in. -/
theorem logins_match {tr : List (System ι × Event ι × System ι)}
    (h : System.Run (LoginRun me) tr s) :
    ((∀ x ∈ tr, LoginOk me x.1 x.2.1 x.2.2) ↔ ∀ x ∈ tr, OwnReply x.1 x.2.1) ∧
      ((∀ x ∈ tr, OwnReply x.1 x.2.1) → UsersGenuine me s) := by
  refine ⟨forall₂_congr fun x hx => ?_, fun hown => users_genuine (h.reach hown)⟩
  obtain ⟨-, hguard, hstep⟩ := h.mem hx
  exact loginOk_iff hguard hstep

end users

/-! ### A run with a request under way during an account switch -/

/-- Executable form of `LoginRun`. -/
def loginRun (s : System Bool) (e : Event Bool) : Bool :=
  honest sampleMe s e &&
    match e with
    | .act _ (.logIn account) => '/' ∉ account.toList
    | _ => true

theorem loginRun_sound (s : System Bool) (e : Event Bool) (h : loginRun s e = true) :
    LoginRun sampleMe s e := by
  simp only [loginRun, Bool.and_eq_true] at h
  refine ⟨honest_sound h.1, ?_⟩
  split
  · exact of_decide_eq_true h.2
  · trivial

/-- User 1 asks for his data and logs out; user 2 logs in before the reply arrives. -/
def sampleMixed : List (Event Bool) :=
  [.act false (.logIn "1"), .act false .fetchFacebookData, .act false .logOut,
    .act false (.logIn "2"), .act false (.reply 0 (some (sampleMe "1"))), .act false (.fire 0 0),
    .flush false]

/-- The run in which user 1 logs in and nobody else. -/
theorem logins_match_sample :
    ∃ tr s, System.Run (LoginRun sampleMe) tr s ∧
      tr.map (fun x => x.2.1) = sampleLogIn false "1" ∧
      ((∀ x ∈ tr, LoginOk sampleMe x.1 x.2.1 x.2.2) ↔ ∀ x ∈ tr, OwnReply x.1 x.2.1) ∧
      ((∀ x ∈ tr, OwnReply x.1 x.2.1) → UsersGenuine sampleMe s) := by
  have hrun : (Transition.run System.step loginRun sampleStart (sampleLogIn false "1")).isSome := by
    decide +kernel
  obtain ⟨s, hs⟩ := Option.isSome_iff_exists.mp hrun
  obtain ⟨tr, htr, hevents⟩ :=
    Transition.Trace.of_run loginRun_sound (.start initial_sampleStart) hs
  exact ⟨tr, s, htr, hevents, logins_match htr⟩

/-- User 2 is registered under the name of user 1. -/
theorem logins_mixed :
    ¬ ∀ (tr : List (System Bool × Event Bool × System Bool)) s,
      System.Run (LoginRun sampleMe) tr s →
        (∀ x ∈ tr, LoginOk sampleMe x.1 x.2.1 x.2.2) ∧ UsersGenuine sampleMe s := by
  intro h
  have hrun : (Transition.run System.step loginRun sampleStart sampleMixed).map (fun s =>
      Snapshot.string? (s.server.tree.subtree ["users", "2"]) "name") = some (some "name 1") := by
    decide +kernel
  obtain ⟨s, hs, hname⟩ := Option.map_eq_some_iff.mp hrun
  obtain ⟨tr, htr, -⟩ := Transition.Trace.of_run loginRun_sound (.start initial_sampleStart) hs
  obtain ⟨u, hd, hid, hgenuine, -⟩ := (h tr s htr).2 "2" (by
    intro hempty
    rw [hempty] at hname
    simp [Snapshot.string?] at hname)
  rw [hd, u.string?_name, Option.some.injEq] at hname
  rw [hid, hname] at hgenuine
  exact absurd hgenuine (by decide)

end MyChat
