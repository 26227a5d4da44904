import MyChat.CreateOnce

/-!
# MyChat.RequestOnce

What one add-friend request does in the life of its process. The lookup's closure stays
registered at `users/x` and runs again on every change there: it answers the request once
more, with another dialog or another `createNewChatBox` call for whoever is the current
user then. A refused request stays refused exactly when no later snapshot at `users/x` is
a record, and a request that was granted first and refused later does no harm exactly when
the row of its call is there whenever that call hears of it (`refused_stays_refused`).
-/

namespace MyChat

open Client (snapshots)

/-- Request `i` says that there is no such user. -/
def Refuses (i : Nat) (x : Client × Happening × Client) : Prop :=
  (∃ timestamp, x.2.1 = .act (.fire i timestamp)) ∧
    x.2.2.dev.dialogs = x.1.dev.dialogs ++ [("Thất bại", "ID người dùng không tồn tại!")]

/-- Request `i` calls `createNewChatBox`, whose closure is the next observer. -/
def CallsCreate (i : Nat) (x : Client × Happening × Client) : Prop :=
  (∃ timestamp, x.2.1 = .act (.fire i timestamp)) ∧ ∃ ref friend user,
    x.2.2.dev.observers[x.1.dev.observers.length]? = some ⟨ref, .create friend user, none⟩

/-- The closure of observer `i` writes. -/
def Writes (i : Nat) (x : Client × Happening × Client) : Prop :=
  (∃ timestamp, x.2.1 = .act (.fire i timestamp)) ∧ x.2.2.dev.pending ≠ x.1.dev.pending

/-- Request `i` calls `createNewChatBox` once at most and never after a refusal, and no
call of it creates a row after a refusal. -/
structure StaysRefused (i : Nat) (tr : List (Client × Happening × Client)) : Prop where
  once : tr.Pairwise fun x y => Refuses i x ∨ CallsCreate i x → ¬ CallsCreate i y
  unwritten : ∀ w x y, [w, x, y].Sublist tr → CallsCreate i w → Refuses i x →
    ¬ Writes w.1.dev.observers.length y

/-- Observer `i` fires, and there is a dictionary at `ref`. -/
def Finds (i : Nat) (ref : Path) (x : Client × Happening × Client) : Prop :=
  (∃ timestamp, x.2.1 = .act (.fire i timestamp)) ∧ (x.1.value ref).dictionary? ≠ none

/-- Observer `i` fires, and there is none. -/
def Misses (i : Nat) (ref : Path) (x : Client × Happening × Client) : Prop :=
  (∃ timestamp, x.2.1 = .act (.fire i timestamp)) ∧ (x.1.value ref).dictionary? = none

/-! ### One run of a closure -/

section step

variable {x : Client × Happening × Client} {i : Nat} {timestamp : Int64} {ref : Path}

/-- One answer to the request. -/
theorem lookup_fire_inv {c c' : Client} {id : String} (hobs : c.Observes i ref (.lookup id))
    (hstep : c.step (.act (.fire i timestamp)) = .ok c') :
    ((c.value ref).dictionary? = none ∧
        c'.dev.dialogs = c.dev.dialogs ++ [("Thất bại", "ID người dùng không tồn tại!")] ∧
        c'.dev.observers.length = c.dev.observers.length) ∨
      ((c.value ref).dictionary? ≠ none ∧ c'.dev.dialogs = c.dev.dialogs ∧
        ∃ ref' friend user,
          c'.dev.observers[c.dev.observers.length]? = some ⟨ref', .create friend user, none⟩) := by
  obtain ⟨last, ho⟩ := hobs.lookup
  obtain ⟨-, hfire⟩ := Client.step_fire_inv hstep ho
  simp only [Device.fire, FriendViewController.addFriendButtonTappedValue] at hfire
  split at hfire
  · next dict hdict =>
    simp only [ChatBusiness.createNewChatBox, bind_eq_ok, unwrap_eq_ok] at hfire
    obtain ⟨userId, -, friendId, -, chatbox, -, ref', -, hdev⟩ := hfire
    rw [← Except.ok.inj hdev]
    refine Or.inr ⟨by simp [hdict], rfl, ref', ⟨some id, dict.string? "name", dict.string? "state",
      dict.string? "avatarUrl", dict.stringArray? "friendList"⟩, c.dev.currentUser, ?_⟩
    simp [Device.observe, Device.delivered]
  · next hdict =>
    rw [← Except.ok.inj hfire]
    exact Or.inl ⟨hdict, rfl, by simp [Device.showMessageDialog, Device.delivered]⟩

/-- The request is refused when there is no such user, and calls `createNewChatBox` when
there is. -/
theorem answer_iff {id : String} (hobs : x.1.Observes i ref (.lookup id))
    (hstep : x.1.step x.2.1 = .ok x.2.2) :
    (Refuses i x ↔ Misses i ref x) ∧ (CallsCreate i x ↔ Finds i ref x) := by
  obtain ⟨c, e, c'⟩ := x
  have hfire : ∀ timestamp, e = .act (.fire i timestamp) → c.step (.act (.fire i timestamp)) = .ok c' :=
    fun timestamp he => he ▸ hstep
  refine ⟨⟨fun ⟨⟨timestamp, he⟩, hdialogs⟩ => ⟨⟨timestamp, he⟩, ?_⟩,
      fun ⟨⟨timestamp, he⟩, hmiss⟩ => ⟨⟨timestamp, he⟩, ?_⟩⟩,
    ⟨fun ⟨⟨timestamp, he⟩, hcreate⟩ => ⟨⟨timestamp, he⟩, ?_⟩,
      fun ⟨⟨timestamp, he⟩, hfind⟩ => ⟨⟨timestamp, he⟩, ?_⟩⟩⟩
  -- a refusal registers no observer, and a call shows no dialog
  all_goals
    rcases lookup_fire_inv hobs (hfire timestamp he) with ⟨hnone, hrefused, hlength⟩ |
      ⟨hsome, hsame, hcalled⟩
  · exact hnone
  · exact absurd (hsame.symm.trans hdialogs) (by simp)
  · exact hrefused
  · exact absurd hmiss hsome
  · obtain ⟨ref', friend, user, ho⟩ := hcreate
    have hlt := (List.getElem?_eq_some_iff.mp ho).1
    exact absurd hlength (Nat.ne_of_gt hlt)
  · exact hsome
  · exact absurd hnone hfind
  · exact hcalled

/-- A call of `createNewChatBox` writes when there is no row. -/
theorem writes_iff {friend user : User} (hobs : x.1.Observes i ref (.create friend user))
    (hstep : x.1.step x.2.1 = .ok x.2.2) : Writes i x ↔ Misses i ref x := by
  obtain ⟨c, e, c'⟩ := x
  refine and_congr_right fun ⟨timestamp, he⟩ => ?_
  dsimp only at he hstep hobs ⊢
  subst he
  obtain ⟨last, ho⟩ := hobs.create
  rcases createNewChatBoxValue_inv (Client.step_fire_inv hstep ho).2 with ⟨hsome, hpending, -⟩ |
    ⟨hnone, _, _, _, _, _, -, -, -, hpending, -⟩
  · exact iff_of_false (fun h => h hpending) hsome
  · exact iff_of_true (by rw [hpending]; simp) hnone

end step

/-! ### Runs -/

theorem pairwise_iff_tail {α : Type} {P : α → Prop} {l : List α} :
    (l.Pairwise fun _ a => P a) ↔ ∀ a ∈ l.tail, P a := by
  cases l with
  | nil => simp
  | cons a l =>
      rw [List.pairwise_cons, List.tail_cons]
      constructor
      · intro h
        exact h.1
      · intro h
        exact ⟨h, List.pairwise_of_forall_mem_list fun _ _ b hb => h b hb⟩

section runs

variable {c₀ c : Client} {ref : Path} {id : String} {tr : List (Client × Happening × Client)}

theorem addFriendButtonTapped_inv {dev : Device}
    (h : FriendViewController.addFriendButtonTapped dev id = .ok (dev.observe ref (.lookup id))) :
    ref ≠ rootRef := by
  simp only [FriendViewController.addFriendButtonTapped] at h
  split at h
  · cases h
  · obtain ⟨ref', href, hdev⟩ := bind_eq_ok.mp h
    have hobservers := congrArg Device.observers (Except.ok.inj hdev)
    obtain rfl : ref' = ref := by
      simpa [Device.observe] using hobservers
    exact child_ne_rootRef (by simp) href

/-- Once called, `createNewChatBox` has an observer. -/
theorem observes_of_callsCreate {w y : Client × Happening × Client} {i : Nat}
    (hroot : c₀.dev.BelowRoot) (hrun : Client.RunFrom c₀ tr c) (hsub : [w, y].Sublist tr)
    (hw : CallsCreate i w) :
    ∃ ref' friend user, y.1.Observes w.1.dev.observers.length ref' (.create friend user) := by
  obtain ⟨-, ref', friend, user, ho⟩ := hw
  -- the run up to `w`, and on from there up to `y`
  obtain ⟨r₁, r₂, rfl, hw, hy⟩ := List.cons_sublist_iff.mp hsub
  obtain ⟨r₁, r₁', rfl⟩ := List.append_of_mem hw
  obtain ⟨r₂, r₂', rfl⟩ := List.append_of_mem (List.singleton_sublist.mp hy)
  rw [List.append_assoc, List.cons_append] at hrun
  obtain ⟨h₁, -, hstep, h₂⟩ := hrun.split
  have hroot' := Client.RunFrom.belowRoot hroot (h₁.next trivial hstep)
  rw [← List.append_assoc] at h₂
  obtain ⟨h₂, -⟩ := h₂.split
  exact ⟨ref', friend, user, (Client.RunFrom.observes hroot' ⟨_, ho, rfl, rfl⟩ h₂).1⟩

/-- The request is answered once, rightly, when all later snapshots are no records. -/
theorem once_iff {i : Nat} (hanswer : ∀ x ∈ tr, (Refuses i x ↔ Misses i ref x) ∧
      (CallsCreate i x ↔ Finds i ref x)) :
    (tr.Pairwise fun x y => Refuses i x ∨ CallsCreate i x → ¬ CallsCreate i y) ↔
      ∀ v ∈ ((Client.watch i ref).told tr).tail, v.dictionary? = none := by
  rw [← pairwise_iff_tail, Transition.Watch.pairwise_told]
  refine List.Pairwise.iff_of_mem fun {x y} hx hy => ?_
  rw [(hanswer x hx).1, (hanswer x hx).2, (hanswer y hy).2, Client.tells_iff, Client.tells_iff]
  constructor
  · intro h htells htells'
    by_contra hne
    have hcase : Misses i ref x ∨ Finds i ref x := by
      by_cases hx : (x.1.value ref).dictionary? = none
      · exact Or.inl ⟨htells, hx⟩
      · exact Or.inr ⟨htells, hx⟩
    exact h hcase ⟨htells', hne⟩
  · intro h hcase hfinds
    exact hfinds.2 (h (hcase.elim And.left And.left) hfinds.1)

/-- A call of `createNewChatBox` writes later on when it finds no row. -/
theorem writes_iff_of_callsCreate {w x y : Client × Happening × Client} {i : Nat}
    (hroot : c₀.dev.BelowRoot) (hrun : Client.RunFrom c₀ tr c) (hsub : [w, x, y].Sublist tr)
    (hcalls : CallsCreate i w) :
    ∃ o, y.1.dev.observers[w.1.dev.observers.length]? = some o ∧
      (Writes w.1.dev.observers.length y ↔ Misses w.1.dev.observers.length o.ref y) := by
  obtain ⟨-, -, hstep⟩ := hrun.mem (hsub.subset (show y ∈ [w, x, y] by simp))
  have hsub : [w, y].Sublist tr := (((List.Sublist.refl [y]).cons x).cons_cons w).trans hsub
  obtain ⟨ref', friend, user, hobs⟩ := observes_of_callsCreate hroot hrun hsub hcalls
  have hiff := writes_iff hobs hstep
  obtain ⟨o, ho, rfl, -⟩ := hobs
  exact ⟨o, ho, hiff⟩

/-- **Exactly when** a refusal is the end of it. After the first snapshot at `users/x` no
other one may be a record; and if the request was granted first and refused later, the row
must be there when the `createNewChatBox` call hears of it. -/
theorem refused_stays_refused (hreach : Client.Reachable c₀)
    (hcall : FriendViewController.addFriendButtonTapped c₀.dev id =
      .ok (c₀.dev.observe ref (.lookup id)))
    (hrun : Client.RunFrom (c₀.observing ref (.lookup id)) tr c) :
    StaysRefused c₀.dev.observers.length tr ↔
      (∀ v ∈ (snapshots c₀.dev.observers.length tr).tail, v.dictionary? = none) ∧
        ∀ w x y, [w, x, y].Sublist tr → Finds c₀.dev.observers.length ref w →
          Misses c₀.dev.observers.length ref x →
          ∀ o, y.1.dev.observers[w.1.dev.observers.length]? = some o →
            ¬ Misses w.1.dev.observers.length o.ref y := by
  have hroot : (c₀.observing ref (.lookup id)).dev.BelowRoot :=
    Client.belowRoot_observing (Client.belowRoot hreach) (addFriendButtonTapped_inv hcall)
  have hanswer : ∀ x ∈ tr, (Refuses c₀.dev.observers.length x ↔ Misses c₀.dev.observers.length ref x) ∧
      (CallsCreate c₀.dev.observers.length x ↔ Finds c₀.dev.observers.length ref x) := by
    intro x hx
    obtain ⟨hobs, hstep⟩ :=
      Client.RunFrom.observes_of_mem hroot (c₀.observes_observing ref _) hrun x hx
    exact answer_iff hobs hstep
  have honce := once_iff hanswer
  rw [← Client.RunFrom.snapshots_eq hroot (c₀.observes_observing ref _) hrun] at honce
  constructor
  · intro h
    refine ⟨honce.mp h.once, fun w x y hsub hfinds hmisses o ho hmissed => ?_⟩
    have hcalls := (hanswer w (hsub.subset (by simp))).2.mpr hfinds
    obtain ⟨o', ho', hiff⟩ := writes_iff_of_callsCreate hroot hrun hsub hcalls
    cases ho.symm.trans ho'
    exact h.unwritten w x y hsub hcalls ((hanswer x (hsub.subset (by simp))).1.mpr hmisses)
      (hiff.mpr hmissed)
  · intro h
    refine ⟨honce.mpr h.1, fun w x y hsub hcalls hrefuses hwritten => ?_⟩
    obtain ⟨o, ho, hiff⟩ := writes_iff_of_callsCreate hroot hrun hsub hcalls
    exact h.2 w x y hsub ((hanswer w (hsub.subset (by simp))).2.mp hcalls)
      ((hanswer x (hsub.subset (by simp))).1.mp hrefuses) o ho (hiff.mp hwritten)

end runs

/-- The friend screen of a device with a home screen takes any id that is a path. -/
theorem addFriendButtonTapped_sample {dev : Device} (h : dev.homes ≠ []) :
    FriendViewController.addFriendButtonTapped dev "3" =
      .ok (dev.observe ["users", "3"] (.lookup "3")) := by
  have href : child ["users"] "3" = .ok ["users", "3"] := by decide
  simp [FriendViewController.addFriendButtonTapped, h, href, bind, Except.bind]
  rfl

/-- User 3 is asked for, registers after the refusal, and is told of. -/
def sampleRefused : List Happening :=
  [.act (.fire 1 0), .sync (sampleData [.user (sampleUser "3")]) 0, .act (.fire 1 0)]

theorem refused_stays_refused_sample :
    ∃ c₀ tr c, Client.Reachable c₀ ∧
      Client.RunFrom (c₀.observing ["users", "3"] (.lookup "3")) tr c ∧
      (StaysRefused c₀.dev.observers.length tr ↔
        (∀ v ∈ (snapshots c₀.dev.observers.length tr).tail, v.dictionary? = none) ∧
          ∀ w x y, [w, x, y].Sublist tr → Finds c₀.dev.observers.length ["users", "3"] w →
            Misses c₀.dev.observers.length ["users", "3"] x →
            ∀ o, y.1.dev.observers[w.1.dev.observers.length]? = some o →
              ¬ Misses w.1.dev.observers.length o.ref y) := by
  have hrun : ((Transition.run Client.step (fun _ _ => true) (sampleClient []) sampleLife).bind
      fun c₀ => if c₀.dev.homes = [] then none else Transition.run Client.step (fun _ _ => true)
        (c₀.observing ["users", "3"] (.lookup "3")) sampleRefused).isSome := by
    decide +kernel
  obtain ⟨c, hc⟩ := Option.isSome_iff_exists.mp hrun
  obtain ⟨c₀, hc₀, hc⟩ := Option.bind_eq_some_iff.mp hc
  obtain ⟨hhomes, hc⟩ := Option.ite_none_left_eq_some.mp hc
  have hreach := Client.reachable_of_run hc₀
  have htr := Client.runFrom_of_run hc
  exact ⟨c₀, _, c, hreach, htr,
    refused_stays_refused hreach (addFriendButtonTapped_sample hhomes) htr⟩

/-- The refused request calls `createNewChatBox` when user 3 registers. -/
theorem refused_is_granted :
    ¬ ∀ c₀ ref id tr c, Client.Reachable c₀ →
      FriendViewController.addFriendButtonTapped c₀.dev id =
        .ok (c₀.dev.observe ref (.lookup id)) →
      Client.RunFrom (c₀.observing ref (.lookup id)) tr c →
      StaysRefused c₀.dev.observers.length tr := by
  intro h
  have hrun : ((Transition.run Client.step (fun _ _ => true) (sampleClient []) sampleLife).bind
      fun c₀ => if c₀.dev.homes = [] ∨ c₀.dev.observers.length ≠ 1 then none else
        ((c₀.observing ["users", "3"] (.lookup "3")).step (.act (.fire 1 0))).toOption.bind fun c₁ =>
          (c₁.step (.sync (sampleData [.user (sampleUser "3")]) 0)).toOption.bind fun c₂ =>
            (c₂.step (.act (.fire 1 0))).toOption.map fun c =>
              decide (c₁.dev.dialogs =
                c₀.dev.dialogs ++ [("Thất bại", "ID người dùng không tồn tại!")]) &&
              decide (c.dev.observers[c₂.dev.observers.length]? =
                some ⟨rowPath "1" "3", .create { (sampleUser "3").toUser with friendList := none }
                  c₂.dev.currentUser, none⟩)) = some true := by
    decide +kernel
  obtain ⟨c₀, hc₀, hrun⟩ := Option.bind_eq_some_iff.mp hrun
  obtain ⟨hcase, hrun⟩ := Option.ite_none_left_eq_some.mp hrun
  obtain ⟨hhomes, hlength⟩ : c₀.dev.homes ≠ [] ∧ c₀.dev.observers.length = 1 := by
    simpa using hcase
  obtain ⟨c₁, hfire, hrun⟩ := Option.bind_eq_some_iff.mp hrun
  obtain ⟨c₂, hsync, hrun⟩ := Option.bind_eq_some_iff.mp hrun
  obtain ⟨c, hfire', hstate⟩ := Option.map_eq_some_iff.mp hrun
  simp only [Bool.and_eq_true, decide_eq_true_eq] at hstate
  obtain ⟨hrefused, hcreate⟩ := hstate
  have htr := ((Client.RunFrom.single (eq_ok_of_toOption hfire)).next trivial
    (eq_ok_of_toOption hsync)).next trivial (eq_ok_of_toOption hfire')
  obtain ⟨honce, -⟩ := h c₀ _ _ _ c (Client.reachable_of_run hc₀)
    (addFriendButtonTapped_sample hhomes) htr
  rw [hlength] at honce
  simp only [List.nil_append, List.cons_append, List.pairwise_cons, List.mem_cons] at honce
  exact honce.1 _ (Or.inr (Or.inl rfl)) (Or.inl ⟨⟨_, rfl⟩, hrefused⟩) ⟨⟨_, rfl⟩, _, _, _, hcreate⟩

end MyChat
