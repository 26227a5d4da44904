import MyChat.Issued

/-!
# MyChat.CreateIfAbsent

`createNewChatBox` looks whether the row is there and, if it is not, queues an
unconditional write of the new row. Between the look and the moment the write is
applied another device may store the row. If no such write gets in between, a new row
never replaces a record (`creations_absent`) and a row that shows a message never shows
the greeting of a new chat again (`sent_row_stays`). If one does, the message's row is
lost (`creations_overwrite`).
-/

namespace MyChat

variable {ι : Type} [DecidableEq ι]

/-- The record is the row of a new chat: no other record has this state. -/
def IsNewRow (t : Snapshot) : Prop := t.string? "messState" = some "SEEN"

instance (t : Snapshot) : Decidable (IsNewRow t) :=
  inferInstanceAs (Decidable (t.string? "messState" = some "SEEN"))

/-- The next write of a device, if it creates a row, does not find a record there. -/
def CreationsAbsent (s : System ι) : Prop :=
  ∀ δ w ws, (s.devices δ).pending = w :: ws → IsNewRow w.value →
    Snapshot.dictionary? (s.server.tree.subtree w.path) = none

/-- No device's write to a location is applied while another device has the creation of
a row there queued. -/
def RaceFree (s : System ι) (e : Event ι) : Prop :=
  match e with
  | .flush δ =>
      ∀ w ws, (s.devices δ).pending = w :: ws → ∀ δ', δ' ≠ δ → ∀ v ∈ (s.devices δ').pending,
        IsNewRow v.value → Incomparable w.path v.path
  | _ => True

/-! ### Which writes create a row -/

/-- The observers of `createNewChatBox` look where the row will be written; no user
dictionary is a row. -/
structure CreateInv (dev : Device) : Prop where
  create : ∀ ref friend user last, ⟨ref, .create friend user, last⟩ ∈ dev.observers →
    ∃ id friendId, user.id = some id ∧ friend.id = some friendId ∧
      (child ["chatbox"] id).bind (child · (chatKey id friendId)) = .ok ref
  login : ∀ ref user userDictionary last,
    ⟨ref, .login user userDictionary, last⟩ ∈ dev.observers → ¬ IsNewRow userDictionary

section step

variable {s : System ι}

/-- **Invariant.** Of every run. -/
theorem createInv {guard : System ι → Event ι → Prop} (h : System.Reachable guard s) (δ : ι) :
    CreateInv (s.devices δ) := by
  refine System.device_invariant (P := fun _ dev => CreateInv dev) ?_ ?_ ?_ h δ
  · intro δ randomId
    exact ⟨by simp [Device.launch], by simp [Device.launch]⟩
  · intro δ dev ws hinv
    exact ⟨hinv.create, hinv.login⟩
  · intro s δ action dev' _ hinv _ hact
    have hout := Device.act_inv hact
    refine ⟨fun ref friend user last hmem => ?_, fun ref user userDictionary last hmem => ?_⟩
    · rcases hout.observes hmem with hmem | hobs
      · exact hinv.create ref friend user last hmem
      cases hobs with
      | create hid hfriend href => exact ⟨_, _, hid, hfriend, href⟩
      | fired hfires =>
          obtain ⟨last', hmem⟩ := hfires.mem
          exact hinv.create ref friend user last' hmem
    · rcases hout.observes hmem with hmem | hobs
      · exact hinv.login ref user userDictionary last hmem
      cases hobs with
      | @login i request result u ref hrequest htoken hname hurl href =>
          simp [IsNewRow, u.string?_messState]
      | fired hfires =>
          obtain ⟨last', hmem⟩ := hfires.mem
          exact hinv.login ref user userDictionary last' hmem
      | firedLogin friendList hfires =>
          obtain ⟨last', hmem⟩ := hfires.mem
          exact hinv.login _ _ _ last' hmem

/-- A new row is written by a device that saw no record in its place. -/
theorem absent_of_writes {dev : Device} {server : Snapshot} {action : Action} {ws : List Write}
    (hinv : CreateInv dev) (hws : dev.Writes server action ws) {ws₁ ws₂ : List Write} {w : Write}
    (hsplit : ws = ws₁ ++ w :: ws₂) (hnew : IsNewRow w.value) :
    ws₁ = [] ∧ Snapshot.dictionary? ((dev.view server).subtree w.path) = none := by
  have hw : w ∈ ws := by simp [hsplit]
  cases hws with
  | none => simp at hw
  | register hfires hid href =>
      obtain ⟨last, hmem⟩ := hfires.mem
      rw [List.mem_singleton.mp hw] at hnew
      exact absurd hnew (hinv.login _ _ _ last hmem)
  | create hfires hdict hid hfriend href =>
      obtain ⟨last, hmem⟩ := hfires.mem
      obtain ⟨id', friendId', hid', hfriend', href'⟩ := hinv.create _ _ _ last hmem
      cases hid.symm.trans hid'
      cases hfriend.symm.trans hfriend'
      cases href.symm.trans href'
      rw [hfires.snapshot_eq] at hdict
      have hnil : ws₁ = [] := by
        have hlength := congrArg List.length hsplit
        simp at hlength
        exact List.eq_nil_of_length_eq_zero (by omega)
      rw [List.mem_singleton.mp hw]
      exact ⟨hnil, hdict⟩
  | send hsend =>
      rcases ChatBoxViewController.mem_sendWrites hsend w hw with ⟨-, m, hm⟩ | ⟨-, c, hc, hstate⟩
      · rw [IsNewRow, Message.messState_of_getDictionary hm] at hnew
        cases hnew
      · rw [IsNewRow, Chat.messState_of_toDictionary hc] at hnew
        rcases hstate with hstate | hstate <;> simp [hstate] at hnew

end step

/-! ### Runs -/

/-- Whenever a queue creates a row, no record is in its place once the writes before it
are applied. -/
def QueueInv (s : System ι) : Prop :=
  ∀ δ ws₁ w ws₂, (s.devices δ).pending = ws₁ ++ w :: ws₂ → IsNewRow w.value →
    Snapshot.dictionary? ((applyAll s.server.tree ws₁).subtree w.path) = none

section runs

variable {s : System ι}

theorem queueInv_step {guard : System ι → Event ι → Prop} {e : Event ι} {s' : System ι}
    (hr : System.Reachable guard s) (h : QueueInv s) (hrace : RaceFree s e)
    (hstep : s.step e = .ok s') : QueueInv s' := by
  intro δ' ws₁ w ws₂ hsplit hnew
  cases e with
  | act δ action =>
      obtain ⟨dev', hact, rfl⟩ := System.step_act_eq_ok.mp hstep
      by_cases hδ : δ' = δ
      · subst hδ
        simp only [Function.update_self] at hsplit
        rcases (Device.act_inv hact).writes with ⟨-, -, hnil⟩ | ⟨ws, hws, hpending⟩
        · simp [hnil] at hsplit
        · rw [hpending] at hsplit
          rcases List.append_eq_append_iff.mp hsplit with ⟨t, rfl, ht⟩ | ⟨t, ht, ht'⟩
          · -- the write is one of the new ones
            obtain ⟨rfl, habsent⟩ := absent_of_writes (createInv hr δ') hws ht hnew
            rw [List.append_nil]
            exact habsent
          · cases t with
            | nil =>
                rw [List.nil_append] at ht'
                rw [List.append_nil] at ht
                have hhead : ws = [] ++ w :: ws₂ := ht'.symm
                obtain ⟨-, habsent⟩ := absent_of_writes (createInv hr δ') hws hhead hnew
                rw [← ht]
                exact habsent
            | cons v t =>
                obtain ⟨rfl, -⟩ := List.cons.inj ht'
                exact h δ' ws₁ w t ht hnew
      · simp only [Function.update_of_ne hδ] at hsplit
        exact h δ' ws₁ w ws₂ hsplit hnew
  | flush δ =>
      obtain ⟨v, ws, hpending, rfl⟩ := System.step_flush_eq_ok.mp hstep
      by_cases hδ : δ' = δ
      · subst hδ
        simp only [Function.update_self] at hsplit
        exact h δ' (v :: ws₁) w ws₂ (by rw [hpending, hsplit]; rfl) hnew
      · simp only [Function.update_of_ne hδ] at hsplit
        have hinc := hrace v ws hpending δ' hδ w (by rw [hsplit]; simp) hnew
        have hsame : (s.server.tree).subtree w.path = (v.apply s.server.tree).subtree w.path :=
          (PathTree.subtree_graft_of_incomparable hinc).symm
        show Snapshot.dictionary? ((applyAll (v.apply s.server.tree) ws₁).subtree w.path) = none
        rw [← subtree_applyAll_congr hsame]
        exact h δ' ws₁ w ws₂ hsplit hnew

/-- **Create if absent.** On runs without such a race, a new row never replaces a record. -/
theorem creations_absent (h : System.Reachable RaceFree s) : CreationsAbsent s := by
  have hqueue : QueueInv s := by
    refine h.invariant ?_ ?_
    · intro s hs δ ws₁ w ws₂ hsplit
      obtain ⟨randomId, -, hδ⟩ := hs.2 δ
      simp [hδ, Device.launch] at hsplit
    · intro s e s' hr hqueue hrace hstep
      exact queueInv_step hr hqueue hrace hstep
  intro δ w ws hpending hnew
  exact hqueue δ [] w ws hpending hnew

/-- There is a row `chatbox/a/a_b`, and it is not the row of a new chat. -/
def ShowsMessage (s : System ι) (a b : UserId) : Prop :=
  s.server.tree.subtree ["chatbox", a, chatKey a b] ≠ ∅ ∧
    ¬ IsNewRow (s.server.tree.subtree ["chatbox", a, chatKey a b])

theorem showsMessage_step {e : Event ι} {s' : System ι} {a b : UserId}
    (h : System.Reachable (fun s e => CleanIds e ∧ RaceFree s e) s) (hrow : ShowsMessage s a b)
    (hstep : s.step e = .ok s') : ShowsMessage s' a b := by
  have hinv := plain_inv (h.mono fun _ _ hg => hg.1)
  cases e with
  | act δ action =>
      obtain ⟨dev', -, rfl⟩ := System.step_act_eq_ok.mp hstep
      exact hrow
  | flush δ =>
      obtain ⟨v, ws, hpending, rfl⟩ := System.step_flush_eq_ok.mp hstep
      have hcausal := (hinv.devices δ).pending
      rw [hpending] at hcausal
      obtain ⟨r, rfl, hsound, -⟩ := hcausal.head
      obtain ⟨peer, c, -, hkey, hd⟩ := hinv.stored.chat hrow.1
      obtain rfl := chatKey_right_inj hkey
      unfold ShowsMessage
      simp only [Server.tree_apply]
      by_cases hpath : r.path = (Record.chat a b c).path
      · have hloc : r.path = ["chatbox", a, chatKey a b] := hpath
        rw [← hloc, subtree_apply_self]
        refine ⟨r.dict_ne_empty, fun hnew => ?_⟩
        -- the row would be new, but then there was no record in its place
        have habsent := creations_absent (h.mono fun _ _ hg => hg.2) δ r.write ws hpending hnew
        rw [show r.write.path = _ from hloc, hd, c.dictionary?_dict] at habsent
        cases habsent
      · have hframe := subtree_apply_of_ne hpath s.server.tree
        rw [show (Record.chat a b c).path = ["chatbox", a, chatKey a b] from rfl] at hframe
        rw [hframe]
        exact hrow

/-- Once a row shows a message, no later state shows the greeting of a new chat there. -/
theorem sent_row_stays {s' : System ι} {a b : UserId}
    (h : System.Reachable (fun s e => CleanIds e ∧ RaceFree s e) s) (hrow : ShowsMessage s a b)
    (hlater : Transition.Reach System.step (fun t => t = s) (fun s e => CleanIds e ∧ RaceFree s e) s') :
    ShowsMessage s' a b := by
  have hboth : System.Reachable (fun s e => CleanIds e ∧ RaceFree s e) s' ∧ ShowsMessage s' a b := by
    induction hlater with
    | start heq =>
        subst heq
        exact ⟨h, hrow⟩
    | next _ hguard hstep ih => exact ⟨.next ih.1 hguard hstep, showsMessage_step ih.1 ih.2 hstep⟩
  exact hboth.2

/-- **Create if absent.** Without such a race a new row never replaces a record, and,
where ids are clean, a row that shows a message keeps showing one. -/
theorem create_if_absent (s : System ι) :
    (System.Reachable RaceFree s → CreationsAbsent s) ∧
      (System.Reachable (fun s e => CleanIds e ∧ RaceFree s e) s → ∀ a b s', ShowsMessage s a b →
        Transition.Reach System.step (fun t => t = s) (fun s e => CleanIds e ∧ RaceFree s e) s' →
        ShowsMessage s' a b) :=
  ⟨creations_absent, fun h _ _ _ hrow hlater => sent_row_stays h hrow hlater⟩

end runs

/-! ### A run with a race -/

/-- Executable form of `RaceFree`. -/
def raceFree (s : System Bool) (e : Event Bool) : Bool :=
  match e with
  | .flush δ =>
      match (s.devices δ).pending with
      | [] => true
      | w :: _ => (s.devices !δ).pending.all fun v =>
          decide (IsNewRow v.value → Incomparable w.path v.path)
  | _ => true

theorem raceFree_sound (s : System Bool) (e : Event Bool) (h : raceFree s e = true) :
    RaceFree s e := by
  unfold raceFree at h
  unfold RaceFree
  split at h
  · next δ =>
    intro w ws hpending δ' hδ v hv hnew
    obtain rfl : δ' = !δ := by
      cases δ <;> cases δ' <;> simp_all
    rw [hpending] at h
    exact of_decide_eq_true (List.all_eq_true.mp h v hv) hnew
  · next hother =>
    split
    · next δ => exact absurd rfl (hother δ)
    · trivial

/-- Users 1 and 2 are registered; user 2 adds user 1 and opens the chat; user 1 adds
user 2, and while the new row is queued user 2 sends. -/
def sampleRace : List (Event Bool) :=
  sampleLogIn true "2" ++ sampleLogIn false "1" ++
    [.act true (.addFriend "1"), .act true (.fire 1 0), .act true (.fire 2 100), .flush true,
      .act true (.homeWillAppear 0), .act true (.fire 3 0), .act true (.rowTapped 0 0),
      .act false (.addFriend "2"), .act false (.fire 1 0), .act false (.fire 2 200),
      .act true (.sendTapped 0 "hi" (sampleId 'a') 201), .flush true, .flush true, .flush true,
      .flush true]

/-- User 1 adds user 2 with the row queued, and nothing else happens. -/
theorem create_if_absent_sample :
    ∃ s, Transition.run System.step raceFree sampleStart
        (sampleLogIn true "2" ++ sampleLogIn false "1" ++
          [.act false (.addFriend "2"), .act false (.fire 1 0), .act false (.fire 2 200)]) = some s ∧
      (s.devices false).pending ≠ [] ∧ CreationsAbsent s := by
  have hrun : (Transition.run System.step raceFree sampleStart
      (sampleLogIn true "2" ++ sampleLogIn false "1" ++
        [.act false (.addFriend "2"), .act false (.fire 1 0), .act false (.fire 2 200)])).map
      (fun s => decide ((s.devices false).pending = [])) = some false := by
    decide +kernel
  obtain ⟨s, hs, hpending⟩ := Option.map_eq_some_iff.mp hrun
  exact ⟨s, hs, of_decide_eq_false hpending,
    (create_if_absent s).1 (.of_run raceFree_sound (.start initial_sampleStart) hs)⟩

/-- The new row of user 1 is about to replace the row with the message of user 2. -/
theorem creations_overwrite :
    ¬ ∀ s : System Bool, System.Reachable (fun _ _ => True) s → CreationsAbsent s := by
  intro h
  have hrun : (Transition.run System.step (fun _ _ => true) sampleStart sampleRace).map (fun s =>
      match (s.devices false).pending with
      | [] => false
      | w :: _ => decide (IsNewRow w.value) &&
          (Snapshot.dictionary? (s.server.tree.subtree w.path)).isSome) = some true := by
    decide +kernel
  obtain ⟨s, hs, hstate⟩ := Option.map_eq_some_iff.mp hrun
  have habsent := h s (.of_run (fun _ _ _ => trivial) (.start initial_sampleStart) hs) false
  split at hstate
  · cases hstate
  · next w ws hpending =>
    simp only [Bool.and_eq_true, decide_eq_true_eq] at hstate
    simp [habsent w ws hpending hstate.1] at hstate

end MyChat
