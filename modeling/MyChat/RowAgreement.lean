import MyChat.Issued
import MyChat.Flushed

/-!
# MyChat.RowAgreement

Do the two rows of a conversation end up with the same last message? A send writes the
sender's row and then the friend's row, unconditionally, and nothing ties the two
writes together. What the rows show once everything is applied is decided by the last
two writes to them (`rows_agree`): if one client made both, the rows show its last
message; if not, each row shows what the other user sent last. The second case happens
when two sends cross (`rows_disagree`).
-/

namespace MyChat

variable {ι : Type} [DecidableEq ι]

/-- The write stores one of the two rows of `a` and `b`. -/
def IsRow (a b : UserId) (w : Write) : Bool := w.path = rowPath a b ∨ w.path = rowPath b a

/-- The row of `owner` for `peer` has this last message. -/
def RowShows (s : System ι) (owner peer text : String) (timestamp : Int64) : Prop :=
  Snapshot.string? (s.server.tree.subtree (rowPath owner peer)) "lastMessenger" = some text ∧
    Snapshot.int? (s.server.tree.subtree (rowPath owner peer)) "ts" = some timestamp

/-- Both rows are stored, and no write to them is queued. -/
structure RowsSettled (a b : UserId) (s : System ι) : Prop where
  row : s.server.tree.subtree (rowPath a b) ≠ ∅
  row' : s.server.tree.subtree (rowPath b a) ≠ ∅
  queue : ∀ δ, ∀ w ∈ (s.devices δ).pending, IsRow a b w = false

/-- The applied writes to the two rows, with the devices they were queued on. -/
def rowWrites (a b : UserId) (tr : List (System ι × Event ι × System ι)) : List (ι × Write) :=
  (System.flushed tr).filter fun x => IsRow a b x.2

/-- In the run, `δ` sent this message to `peer`. -/
def Sent (tr : List (System ι × Event ι × System ι)) (δ : ι) (peer : UserId) (text : String)
    (timestamp : Int64) : Prop :=
  ∃ x ∈ tr, ∃ screen randomStr vc, x.2.1 = .act δ (.sendTapped screen text randomStr timestamp) ∧
    (x.1.devices δ).screens[screen]? = some vc ∧ vc.friendId = some peer

/-- The last two writes to the two rows were queued on one device. -/
def LastBySame (a b : UserId) (tr : List (System ι × Event ι × System ι)) : Prop :=
  ∃ l δ w w', rowWrites a b tr = l ++ [(δ, w), (δ, w')]

/-- One account on each device, clean ids, and no queued write is lost. -/
def SettlingRun (account : ι → UserId) (s : System ι) (e : Event ι) : Prop :=
  CleanIds e ∧ LogsIn (fun δ a => a = account δ) e ∧ NoLoss s e

/-! ### Locations of rows -/

/-- A record written to a row of the pair is a row of the pair. -/
theorem isRow_write {a b : UserId} {r : Record} (h : IsRow a b r.write = true) :
    ∃ owner peer c, r = .chat owner peer c ∧ (owner = a ∧ peer = b ∨ owner = b ∧ peer = a) := by
  have hpath : r.path = rowPath a b ∨ r.path = rowPath b a := of_decide_eq_true h
  cases r with
  | user u => simp [Record.path, rowPath] at hpath
  | message o p m => simp [Record.path, rowPath] at hpath
  | chat o p c => exact ⟨o, p, c, rfl, hpath.imp rowPath_inj.mp rowPath_inj.mp⟩

theorem isRow_chat {a b owner peer : UserId} {c : ChatRecord} :
    IsRow a b (Record.chat owner peer c).write = true ↔
      owner = a ∧ peer = b ∨ owner = b ∧ peer = a := by
  rw [IsRow, decide_eq_true_iff]
  exact or_congr rowPath_inj rowPath_inj

/-- Writes to other locations do not touch a row. -/
theorem subtree_applyAll_filter {a b : UserId} {ws : List Write} {tree : Snapshot}
    (hws : ∀ w ∈ ws, ∃ r : Record, w = r.write) {owner peer : UserId}
    (hrow : owner = a ∧ peer = b ∨ owner = b ∧ peer = a) :
    (applyAll tree ws).subtree (rowPath owner peer) =
      (applyAll tree (ws.filter (IsRow a b))).subtree (rowPath owner peer) := by
  induction ws generalizing tree with
  | nil => rfl
  | cons w ws ih =>
      rw [applyAll_cons, @ih (w.apply tree) fun w hw => hws w (List.mem_cons_of_mem _ hw)]
      obtain ⟨r, rfl⟩ := hws w List.mem_cons_self
      cases hr : IsRow a b r.write with
      | true => rw [List.filter_cons_of_pos hr, applyAll_cons]
      | false =>
          rw [List.filter_cons_of_neg (by simp [hr])]
          -- the location of a row is that of any record filed there
          let row : Record := .chat owner peer (newChat owner peer "" "" 0)
          have hne : r.path ≠ row.path := by
            intro hpath
            have hrow' : r.path = rowPath a b ∨ r.path = rowPath b a := by
              rw [hpath]
              exact hrow.imp rowPath_inj.mpr rowPath_inj.mpr
            exact of_decide_eq_false hr hrow'
          exact subtree_applyAll_congr (subtree_apply_of_ne hne tree) _

omit [DecidableEq ι] in
/-- What is read of a stored row. -/
theorem rowShows_of_dict {s : System ι} {owner peer : UserId} {c : ChatRecord}
    (h : s.server.tree.subtree (rowPath owner peer) = c.dict) :
    RowShows s owner peer c.lastMessenger c.ts := by
  rw [RowShows, h]
  constructor
  · simp [Snapshot.string?, List.lookup_cons, Scalar.string?]
  · simp [Snapshot.int?, List.lookup_cons, Scalar.int?]

/-- What two writes leave, one to each row. -/
theorem two_rows {x y : UserId} (hxy : x ≠ y) (c c' : ChatRecord) (tree : Snapshot) :
    (applyAll tree [(Record.chat x y c).write, (Record.chat y x c').write]).subtree (rowPath x y) =
        c.dict ∧
      (applyAll tree [(Record.chat x y c).write, (Record.chat y x c').write]).subtree (rowPath y x) =
        c'.dict := by
  have hne : (Record.chat y x c').path ≠ (Record.chat x y c).path :=
    fun h => hxy (rowPath_inj.mp h).1.symm
  constructor
  · have hframe := subtree_apply_of_ne hne ((Record.chat x y c).write.apply tree)
    rw [subtree_apply_self] at hframe
    exact hframe
  · exact subtree_apply_self (.chat y x c') _

/-! ### What is issued between the two users -/

/-- The rows of one send of `δ` to `γ`, one of the two devices to the other. -/
def SentPair (account : ι → UserId) (α β : ι) (tr : List (System ι × Event ι × System ι)) (δ : ι)
    (p : Write × Write) : Prop :=
  ∃ γ text timestamp c c', (δ = α ∧ γ = β ∨ δ = β ∧ γ = α) ∧ Sent tr δ (account γ) text timestamp ∧
    (ChatRecord.lastMessenger c = text ∧ c.ts = timestamp) ∧
    (ChatRecord.lastMessenger c' = text ∧ c'.ts = timestamp) ∧
    p = ((Record.chat (account δ) (account γ) c).write, (Record.chat (account γ) (account δ) c').write)

section run

variable {account : ι → UserId} {α β : ι} {s₀ s s' : System ι}
  {tr : List (System ι × Event ι × System ι)}

omit [DecidableEq ι] in
theorem SentPair.snoc {δ : ι} {p : Write × Write} (h : SentPair account α β tr δ p)
    (x : System ι × Event ι × System ι) : SentPair account α β (tr ++ [x]) δ p := by
  obtain ⟨γ, text, timestamp, c, c', hdev, ⟨y, hy, hsent⟩, hc⟩ := h
  exact ⟨γ, text, timestamp, c, c', hdev, ⟨y, List.mem_append_left _ hy, hsent⟩, hc⟩

/-- The rows that an action appends: none, or those of one send. A row is not created,
since both are there. -/
theorem appended_rows (hinj : Function.Injective account)
    {C : Contract ι} (hsession : ∀ δ u, C.session δ u → u.id = account δ) {δ : ι} {action : Action}
    {rs : List Record} (happended : C.Appended s δ action rs)
    (hrow : ∀ owner peer, (owner = account α ∧ peer = account β ∨ owner = account β ∧ peer = account α) →
      ((s.devices δ).view s.server.tree).subtree (rowPath owner peer) ≠ ∅) :
    ∃ ps, ((rs.map Record.write).filter (IsRow (account α) (account β))) = Interleave.halves ps ∧
      ∀ p ∈ ps, SentPair account α β [(s, .act δ action, s')] δ p := by
  -- only chat records are filed as rows
  have hother : ∀ {r : Record}, (∀ o p c, r ≠ .chat o p c) →
      IsRow (account α) (account β) r.write = false := by
    intro r hr
    refine Bool.eq_false_iff.mpr fun hyes => ?_
    obtain ⟨o, p, c, rfl, -⟩ := isRow_write hyes
    exact hr o p c rfl
  cases happended with
  | nothing => exact ⟨[], rfl, by simp⟩
  | @register i timestamp u hu =>
      refine ⟨[], ?_, by simp⟩
      simp [hother (r := .user u) (by simp)]
  | @create i timestamp u f hu hclean hf hnone =>
      refine ⟨[], ?_, by simp⟩
      have hno : IsRow (account α) (account β)
          (Record.chat u.id f.id (newChat u.id f.id f.name f.avatarUrl timestamp)).write = false :=
        Bool.eq_false_iff.mpr fun hyes => hrow u.id f.id (isRow_chat.mp hyes) hnone
      simp [hno]
  | @send screen text randomStr timestamp u friendId o c hrandom hu hclean hsending ho =>
      obtain ⟨vc, user, entry, hvc, -, -, hfriend, -⟩ := hsending.vc
      have hme := hsession δ u hu
      have hmessage := fun owner peer => hother
        (r := .message owner peer (sentMessage u friendId text randomStr timestamp)) (by simp)
      by_cases hpair : u.id = account α ∧ friendId = account β ∨ u.id = account β ∧ friendId = account α
      · -- a send between the two: both rows, in this order
        have hmy : IsRow (account α) (account β)
            (Record.chat u.id friendId (myChat c text timestamp)).write = true :=
          isRow_chat.mpr hpair
        have hyour : IsRow (account α) (account β)
            (Record.chat friendId u.id (yourChat u friendId text timestamp)).write = true :=
          isRow_chat.mpr (hpair.symm.imp And.symm And.symm)
        obtain ⟨γ, hdev, rfl⟩ : ∃ γ, (δ = α ∧ γ = β ∨ δ = β ∧ γ = α) ∧ friendId = account γ := by
          rcases hpair with ⟨hu, hf⟩ | ⟨hu, hf⟩
          · exact ⟨β, Or.inl ⟨hinj (hme.symm.trans hu), rfl⟩, hf⟩
          · exact ⟨α, Or.inr ⟨hinj (hme.symm.trans hu), rfl⟩, hf⟩
        refine ⟨[((Record.chat u.id (account γ) (myChat c text timestamp)).write,
          (Record.chat (account γ) u.id (yourChat u (account γ) text timestamp)).write)], ?_, ?_⟩
        · simp [sendRecords, hmessage, hmy, hyour]
        · intro p hp
          obtain rfl := List.mem_singleton.mp hp
          refine ⟨γ, text, timestamp, myChat c text timestamp, yourChat u (account γ) text timestamp,
            hdev, ?_, ⟨rfl, rfl⟩, ⟨rfl, rfl⟩, by rw [hme]⟩
          exact ⟨_, List.mem_singleton_self _, screen, randomStr, vc, rfl, hvc, hfriend⟩
      · refine ⟨[], ?_, by simp⟩
        have hmy : IsRow (account α) (account β)
            (Record.chat u.id friendId (myChat c text timestamp)).write = false :=
          Bool.eq_false_iff.mpr fun hyes => hpair (isRow_chat.mp hyes)
        have hyour : IsRow (account α) (account β)
            (Record.chat friendId u.id (yourChat u friendId text timestamp)).write = false :=
          Bool.eq_false_iff.mpr fun hyes =>
            hpair ((isRow_chat.mp hyes).symm.imp And.symm And.symm)
        simp [sendRecords, hmessage, hmy, hyour]

/-- What a run from settled rows has issued: both rows are there, and every device has
issued them in pairs. -/
structure RowsInv (account : ι → UserId) (α β : ι) (tr : List (System ι × Event ι × System ι))
    (s : System ι) : Prop where
  rows : ∀ owner peer, (owner = account α ∧ peer = account β ∨ owner = account β ∧ peer = account α) →
    s.server.tree.subtree (rowPath owner peer) ≠ ∅
  streams : ∀ δ, ∃ ps, (System.stream tr s δ).filter (IsRow (account α) (account β)) =
    Interleave.halves ps ∧ ∀ p ∈ ps, SentPair account α β tr δ p

/-- A row that is stored is seen by every device. -/
theorem row_in_view {C : Contract ι} (h : C.Inv s) {owner peer : UserId}
    (hne : s.server.tree.subtree (rowPath owner peer) ≠ ∅) (δ : ι) :
    ((s.devices δ).view s.server.tree).subtree (rowPath owner peer) ≠ ∅ := by
  let row : Record := .chat owner peer (newChat owner peer "" "" 0)
  have hall : ∀ w ∈ (s.devices δ).pending, ∃ r : Record, w = r.write := by
    intro w hw
    obtain ⟨r, hr, -⟩ := (h.devices δ).ok_of_pending hw
    exact ⟨r, hr⟩
  exact subtree_applyAll_ne_empty (r := row) hall (Or.inl hne)

theorem rowsInv_step (hinj : Function.Injective account) {C : Contract ι}
    (hsession : ∀ δ u, C.session δ u → u.id = account δ) (h : C.Inv s) {e : Event ι}
    (hrows : RowsInv account α β tr s) (hloss : NoLoss s e) (hstep : s.step e = .ok s') :
    RowsInv account α β (tr ++ [(s, e, s')]) s' := by
  cases e with
  | flush δ =>
      refine ⟨fun owner peer hpair => ?_, fun δ' => ?_⟩
      · obtain ⟨w, ws, hpending, rfl⟩ := System.step_flush_eq_ok.mp hstep
        obtain ⟨r, rfl, -⟩ := (h.devices δ).ok_of_pending (w := w) (by simp [hpending])
        let row : Record := .chat owner peer (newChat owner peer "" "" 0)
        have hall : ∀ w ∈ [r.write], ∃ r : Record, w = r.write := by simp
        exact subtree_applyAll_ne_empty (r := row) hall (Or.inl (hrows.rows owner peer hpair))
      · obtain ⟨ps, hps, hsent⟩ := hrows.streams δ'
        rw [System.stream_flush hstep]
        exact ⟨ps, hps, fun p hp => (hsent p hp).snoc _⟩
  | act δ action =>
      obtain ⟨hserver, hothers, hact⟩ := h.appended_step hstep
      refine ⟨fun owner peer hpair => by rw [hserver]; exact hrows.rows owner peer hpair, fun δ' => ?_⟩
      obtain ⟨ps, hps, hsent⟩ := hrows.streams δ'
      -- what the action appended to the queue of `δ'`
      obtain ⟨ws, hws, qs, hqs, hsent'⟩ : ∃ ws, (s'.devices δ').pending = (s.devices δ').pending ++ ws ∧
          ∃ qs, ws.filter (IsRow (account α) (account β)) = Interleave.halves qs ∧
            ∀ p ∈ qs, SentPair account α β [(s, .act δ action, s')] δ' p := by
        by_cases hδ : δ' = δ
        · subst hδ
          rcases hact with ⟨randomId, rfl, hnil⟩ | ⟨rs, happended, hpending⟩
          · have hnil' : (s.devices δ').pending = [] := hloss
            exact ⟨[], by simp [hnil, hnil'], [], rfl, by simp⟩
          · exact ⟨_, hpending, appended_rows hinj hsession happended
              fun owner peer hpair => row_in_view h (hrows.rows owner peer hpair) δ'⟩
        · exact ⟨[], by simp [hothers δ' hδ], [], rfl, by simp⟩
      rw [System.stream_act hws, List.filter_append, hps, hqs, ← Interleave.halves_append]
      refine ⟨ps ++ qs, rfl, fun p hp => ?_⟩
      rcases List.mem_append.mp hp with hp | hp
      · exact (hsent p hp).snoc _
      · obtain ⟨γ, text, timestamp, c, c', hdev, ⟨y, hy, hsent⟩, hc⟩ := hsent' p hp
        exact ⟨γ, text, timestamp, c, c', hdev, ⟨y, List.mem_append_right _ hy, hsent⟩, hc⟩

theorem rowsInv (hinj : Function.Injective account)
    (h₀ : System.Reachable (plain fun δ a => a = account δ).guard s₀)
    (hsettled : RowsSettled (account α) (account β) s₀)
    (hrun : System.RunFrom (SettlingRun account) s₀ tr s) : RowsInv account α β tr s := by
  induction hrun with
  | start h =>
      subst h
      refine ⟨?_, fun δ => ⟨[], ?_, by simp⟩⟩
      · rintro owner peer (⟨rfl, rfl⟩ | ⟨rfl, rfl⟩)
        · exact hsettled.row
        · exact hsettled.row'
      · exact List.filter_eq_nil_iff.mpr fun w hw => by simp [hsettled.queue δ w hw]
  | next hrun hguard hstep ih =>
      have hreach := System.RunFrom.reachable (fun _ _ hg => ⟨hg.1, hg.2.1⟩) hrun h₀
      exact rowsInv_step hinj (C := plain fun δ a => a = account δ) (fun _ _ hu => hu.2)
        (Contract.inv hreach) ih hguard.2.2 hstep

/-- What is read at a row is left by the applied writes to the two rows. -/
theorem row_of_rowWrites {C : Contract ι} (h : C.Inv s) {guard : System ι → Event ι → Prop}
    (hrun : System.RunFrom guard s₀ tr s) {a b owner peer : UserId}
    (hpair : owner = a ∧ peer = b ∨ owner = b ∧ peer = a) :
    s.server.tree.subtree (rowPath owner peer) =
      (applyAll s₀.server.tree ((rowWrites a b tr).map Prod.snd)).subtree (rowPath owner peer) := by
  rw [hrun.tree_eq, subtree_applyAll_filter (h.record_of_flushed hrun) hpair, List.filter_map]
  rfl

/-- With nothing queued for the rows, what every device had applied are whole pairs. -/
theorem RowsInv.pairs (h : RowsInv account α β tr s)
    (hsettled : RowsSettled (account α) (account β) s) (δ : ι) :
    ∃ ps, Interleave.proj δ (rowWrites (account α) (account β) tr) = Interleave.halves ps ∧
      ∀ p ∈ ps, SentPair account α β tr δ p := by
  obtain ⟨ps, hps, hsent⟩ := h.streams δ
  have hnone : (s.devices δ).pending.filter (IsRow (account α) (account β)) = [] :=
    List.filter_eq_nil_iff.mpr fun w hw => by simp [hsettled.queue δ w hw]
  refine ⟨ps, ?_, hsent⟩
  rw [← hps, System.stream, List.filter_append, hnone, List.append_nil]
  exact Interleave.proj_filter δ _ _

/-- What the rows of two accounts show after a run: one message that one of the two
devices sent, if the last two writes to the rows were queued on one device; otherwise
each row shows a message that the other user sent. -/
structure RowsDecided (account : ι → UserId) (α β : ι)
    (tr : List (System ι × Event ι × System ι)) (s : System ι) : Prop where
  same : LastBySame (account α) (account β) tr → ∃ text timestamp,
    (Sent tr α (account β) text timestamp ∨ Sent tr β (account α) text timestamp) ∧
      RowShows s (account α) (account β) text timestamp ∧
      RowShows s (account β) (account α) text timestamp
  crossed : ¬ LastBySame (account α) (account β) tr → ∃ text timestamp text' timestamp',
    Sent tr α (account β) text timestamp ∧ Sent tr β (account α) text' timestamp' ∧
      RowShows s (account α) (account β) text' timestamp' ∧
      RowShows s (account β) (account α) text timestamp

end run

/-! ### Runs of two devices -/

/-- Executable form of `SettlingRun`. -/
def settlingRun (s : System Bool) (e : Event Bool) : Bool :=
  decide (CleanIds e) && decide (LogsIn (fun δ a => a = accountOf δ) e) && noLoss s e

theorem settlingRun_sound (s : System Bool) (e : Event Bool) (h : settlingRun s e = true) :
    SettlingRun accountOf s e := by
  simp only [settlingRun, Bool.and_eq_true, decide_eq_true_eq] at h
  exact ⟨h.1.1, h.1.2, noLoss_sound h.2⟩

/-- Executable form of `RowsSettled`. -/
def rowsSettled (a b : UserId) (s : System Bool) : Bool :=
  decide (s.server.tree.subtree (rowPath a b) ≠ ∅) &&
    decide (s.server.tree.subtree (rowPath b a) ≠ ∅) &&
    ((s.devices false).pending ++ (s.devices true).pending).all fun w => !IsRow a b w

theorem rowsSettled_sound {a b : UserId} {s : System Bool} (h : rowsSettled a b s = true) :
    RowsSettled a b s := by
  simp only [rowsSettled, Bool.and_eq_true, decide_eq_true_eq, List.all_eq_true,
    Bool.not_eq_true'] at h
  obtain ⟨⟨hrow, hrow'⟩, hqueue⟩ := h
  refine ⟨hrow, hrow', fun δ w hw => hqueue w ?_⟩
  cases δ <;> simp [hw]

/-- Both users have a row and an open session with the other one. -/
def sampleBothOpen : List (Event Bool) :=
  sampleOpen ++
    [.act true (.addFriend "1"), .act true (.fire 1 0), .act true (.fire 2 100), .flush true,
      .act true (.homeWillAppear 0), .act true (.fire 3 0), .act true (.rowTapped 0 0)]

/-- Both users send once. -/
def sampleSends : List (Event Bool) :=
  [.act false (.sendTapped 0 "hi" (sampleId 'a') 200),
    .act true (.sendTapped 0 "hello" (sampleId 'b') 201)]

/-- From the state where both sessions are open, the events are taken, something is
written to the rows, everything settles, and `q` holds in the end. -/
def settles (as : List (Event Bool)) (q : System Bool → Bool) : Bool :=
  match Transition.run System.step settlingRun sampleStart sampleBothOpen with
  | none => false
  | some s₀ =>
      match Transition.run System.step settlingRun s₀ as with
      | none => false
      | some s => rowsSettled "1" "2" s₀ && rowsSettled "1" "2" s &&
          !(rowWrites "1" "2" (Transition.steps System.step s₀ as)).isEmpty && q s

theorem exists_of_settles (as : List (Event Bool)) (q : System Bool → Bool)
    (h : settles as q = true) :
    ∃ s₀ s tr, System.Reachable (fun _ e => CleanIds e ∧ LogsIn (fun δ a => a = accountOf δ) e) s₀ ∧
      RowsSettled "1" "2" s₀ ∧ System.RunFrom (SettlingRun accountOf) s₀ tr s ∧
      RowsSettled "1" "2" s ∧ rowWrites "1" "2" tr ≠ [] ∧ tr.map (fun x => x.2.1) = as ∧
      q s = true := by
  unfold settles at h
  split at h
  · cases h
  · next s₀ hs₀ =>
    split at h
    · cases h
    · next s hs =>
      simp only [Bool.and_eq_true, Bool.not_eq_true', List.isEmpty_eq_false_iff] at h
      obtain ⟨⟨⟨hsettled₀, hsettled⟩, hsome⟩, hq⟩ := h
      have hreach : System.Reachable (SettlingRun accountOf) s₀ :=
        .of_run settlingRun_sound (.start initial_sampleStart) hs₀
      have hstart : System.RunFrom (SettlingRun accountOf) s₀ [] s₀ := .start rfl
      obtain ⟨htr, hevents⟩ := hstart.steps_of_run settlingRun_sound hs
      rw [List.nil_append] at htr
      exact ⟨s₀, s, _, hreach.mono fun _ _ hg => ⟨hg.1, hg.2.1⟩, rowsSettled_sound hsettled₀, htr,
        rowsSettled_sound hsettled, hsome, hevents, hq⟩

end MyChat
