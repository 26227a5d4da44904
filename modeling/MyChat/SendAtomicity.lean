import MyChat.Issued
import MyChat.Flushed

/-!
# MyChat.SendAtomicity

Is a send all or nothing? It is four `setValue` calls at four locations, with nothing
that would apply them together. Wherever the sender stops, the server has applied the
first `k` of the four writes; under clean ids and a fresh message id the database then
has all of the send for `k = 4`, nothing for `k = 0`, and a part of it otherwise
(`send_cut`). Stopping after the first write leaves the message in the sender's copy of
the conversation only (`send_torn`).
-/

namespace MyChat

variable {ι : Type} [DecidableEq ι]

/-- Tapping send on the screen sends from `a` to `b`. -/
def SendsTo (dev : Device) (screen : Nat) (a b : UserId) : Prop :=
  ∃ vc user, dev.screens[screen]? = some vc ∧ vc.currentUser = some user ∧ user.id = some a ∧
    vc.friendId = some b

/-- The message of a send from `a` to `b`. -/
def messageOf (a b : UserId) (text randomStr : String) (timestamp : Int64) : MessageRecord :=
  ⟨randomStr, a, b, timestamp, false, text⟩

/-- The message id is not drawn. -/
def NotDrawn (randomStr : String) (e : Event ι) : Prop :=
  match e with
  | .act _ (.sendTapped _ _ randomStr' _) => randomStr' ≠ randomStr
  | _ => True

/-- Clean ids, and nobody else draws the message id of the send. -/
structure FreshSend (s : System ι) (δ : ι) (screen : Nat) (text randomStr : String)
    (timestamp : Int64) (tr : List (System ι × Event ι × System ι)) : Prop where
  clean : System.Reachable (fun _ e => CleanIds e) s
  fresh : FreshIds s (.act δ (.sendTapped screen text randomStr timestamp))
  after : ∀ x ∈ tr, CleanIds x.2.1 ∧ NotDrawn randomStr x.2.1

/-- What the run applied of a send of `δ`, whose queue had `q` entries before it. -/
def sendApplied (δ : ι) (q : Nat) (tr : List (System ι × Event ι × System ι)) : List Write :=
  ((Interleave.proj δ (System.flushed tr)).drop q).take 4

/-- `owner`'s copy of the conversation with `peer` has the message. -/
def CopyStored (s : System ι) (owner peer : UserId) (m : MessageRecord) : Prop :=
  s.server.tree.subtree ["messages", chatKey owner peer, m.id] = m.dict

/-- `owner`'s copy of the conversation with `peer` has no message with this id. -/
def CopyAbsent (s : System ι) (owner peer : UserId) (m : MessageRecord) : Prop :=
  s.server.tree.subtree ["messages", chatKey owner peer, m.id] = ∅

/-- Among the writes is one of `owner`'s row for `peer` that shows the message. -/
def RowUpdated (applied : List Write) (owner peer : UserId) (m : MessageRecord) : Prop :=
  ∃ c : ChatRecord, c.lastMessenger = m.message ∧ c.ts = m.ts ∧
    (Record.chat owner peer c).write ∈ applied

/-- All of the send is in the database, or nothing. -/
def AllOrNothing (s : System ι) (applied : List Write) (a b : UserId) (m : MessageRecord) : Prop :=
  (CopyStored s a b m ∧ CopyStored s b a m ∧ RowUpdated applied a b m ∧ RowUpdated applied b a m) ∨
    (CopyAbsent s a b m ∧ CopyAbsent s b a m ∧ ¬ RowUpdated applied a b m ∧
      ¬ RowUpdated applied b a m)

/-- The server applied the first `k` of the four writes that the tap queued. -/
structure CutAt (s s₁ : System ι) (δ : ι) (tr : List (System ι × Event ι × System ι)) (k : Nat) :
    Prop where
  le : k ≤ 4
  writes : ∃ writes, writes.length = 4 ∧
    (s₁.devices δ).pending = (s.devices δ).pending ++ writes ∧
    sendApplied δ (s.devices δ).pending.length tr = writes.take k

/-- What the database has of a send cut at `k`. -/
structure HasCut (s : System ι) (applied : List Write) (a b : UserId) (m : MessageRecord) (k : Nat) :
    Prop where
  ownCopy : if 1 ≤ k then CopyStored s a b m else CopyAbsent s a b m
  friendCopy : if 2 ≤ k then CopyStored s b a m else CopyAbsent s b a m
  ownRow : RowUpdated applied a b m ↔ 3 ≤ k
  friendRow : RowUpdated applied b a m ↔ 4 ≤ k

omit [DecidableEq ι] in
/-- Only the two ends are all or nothing. -/
theorem HasCut.allOrNothing_iff {s : System ι} {applied : List Write} {a b : UserId}
    {m : MessageRecord} {k : Nat} (hk : k ≤ 4) (h : HasCut s applied a b m k) :
    AllOrNothing s applied a b m ↔ k = 0 ∨ k = 4 := by
  have hboth : ∀ {owner peer : UserId}, CopyStored s owner peer m → ¬ CopyAbsent s owner peer m := by
    intro owner peer hstored habsent
    exact m.dict_ne_empty (hstored.symm.trans habsent)
  have hown := h.ownCopy
  have hfriend := h.friendCopy
  constructor
  · intro hcase
    rcases hcase with ⟨-, -, -, hrow⟩ | ⟨hcopy, -⟩
    · have hfour := h.friendRow.mp hrow
      omega
    · left
      by_contra hne
      rw [if_pos (Nat.one_le_iff_ne_zero.mpr hne)] at hown
      exact hboth hown hcopy
  · intro hcase
    rcases hcase with rfl | rfl
    · right
      rw [if_neg (by omega)] at hown hfriend
      refine ⟨hown, hfriend, ?_, ?_⟩
      · rw [h.ownRow]
        omega
      · rw [h.friendRow]
        omega
    · left
      rw [if_pos (by omega)] at hown hfriend
      exact ⟨hown, hfriend, h.ownRow.mpr (by omega), h.friendRow.mpr le_rfl⟩

/-! ### The four records of a send -/

section records

variable {u : UserRecord} {f : UserId} {c : ChatRecord} {text randomStr : String} {timestamp : Int64}

/-- They go to four locations. -/
theorem sendRecords_paths_nodup (hu : CleanId u.id) (hf : CleanId f) (hne : u.id ≠ f) :
    ((sendRecords u f c text randomStr timestamp).map Record.path).Nodup := by
  have hkey : chatKey u.id f ≠ chatKey f u.id := fun h => hne (chatKey_inj hu.1 hf.1 h).1
  simp [sendRecords, Record.path, hkey, hne]

/-- A record at the location of one of the four, written by the send, is that one. -/
theorem write_eq_of_path_eq (hu : CleanId u.id) (hf : CleanId f) (hne : u.id ≠ f) {r r' : Record}
    (hr : r ∈ sendRecords u f c text randomStr timestamp)
    (hr' : r'.write ∈ (sendRecords u f c text randomStr timestamp).map Record.write)
    (hpath : r'.path = r.path) : r'.write = r.write := by
  obtain ⟨r₀, hr₀, hwrite⟩ := List.mem_map.mp hr'
  have hpath₀ : r₀.path = r.path := (congrArg Write.path hwrite).trans hpath
  have hinj := List.inj_on_of_nodup_map (sendRecords_paths_nodup hu hf hne) hr₀ hr hpath₀
  rw [← hwrite, hinj]

/-- The `i`th write is among the first `k` iff `i < k`. -/
theorem write_mem_take_iff (hu : CleanId u.id) (hf : CleanId f) (hne : u.id ≠ f) {i k : Nat}
    {r : Record} (hr : (sendRecords u f c text randomStr timestamp)[i]? = some r) :
    r.write ∈ ((sendRecords u f c text randomStr timestamp).map Record.write).take k ↔ i < k := by
  have hnodup : ((sendRecords u f c text randomStr timestamp).map Record.write).Nodup := by
    refine List.Nodup.of_map Write.path ?_
    rw [List.map_map]
    exact sendRecords_paths_nodup hu hf hne
  refine Interleave.mem_take_iff hnodup ?_
  rw [List.getElem?_map, hr, Option.map_some]

/-- The row with index `i` is among the first `k` writes iff `i < k`. -/
theorem rowUpdated_take_iff (hu : CleanId u.id) (hf : CleanId f) (hne : u.id ≠ f) {i k : Nat}
    {owner peer : UserId} {c' : ChatRecord}
    (hr : (sendRecords u f c text randomStr timestamp)[i]? = some (.chat owner peer c'))
    (htext : c'.lastMessenger = text) (hts : c'.ts = timestamp) :
    RowUpdated (((sendRecords u f c text randomStr timestamp).map Record.write).take k) owner peer
      (messageOf u.id f text randomStr timestamp) ↔ i < k := by
  rw [← write_mem_take_iff hu hf hne hr]
  constructor
  · intro hcase
    obtain ⟨c'', -, -, hin⟩ := hcase
    have heq : (Record.chat owner peer c'').write = (Record.chat owner peer c').write :=
      write_eq_of_path_eq hu hf hne (List.mem_of_getElem? hr) (List.mem_of_mem_take hin) rfl
    rw [← heq]
    exact hin
  · intro hin
    exact ⟨c', htext, hts, hin⟩

end records

/-! ### Writes under one message id -/

/-- The write is filed under this message id. -/
def IsMessage (id : String) (w : Write) : Prop := ∃ key, w.path = ["messages", key, id]

theorem isMessage_write {id : String} {r : Record} (h : IsMessage id r.write) :
    ∃ owner peer m, r = .message owner peer m ∧ m.id = id := by
  obtain ⟨key, hpath⟩ := h
  have hpath : r.path = ["messages", key, id] := hpath
  cases r with
  | user u => simp [Record.path] at hpath
  | chat o p c => simp [Record.path] at hpath
  | message o p m =>
      refine ⟨o, p, m, rfl, ?_⟩
      simp only [Record.path, List.cons.injEq] at hpath
      exact hpath.2.2.1

section run

variable {C : Contract ι} {s s₁ s' : System ι} {δ : ι} {id : String}
  {tr : List (System ι × Event ι × System ι)}

/-- A fresh id is on no write that was issued. -/
theorem not_isMessage_of_fresh (h : C.Inv s) {screen : Nat} {text : String} {timestamp : Int64}
    (hfresh : FreshIds s (.act δ (.sendTapped screen text id timestamp))) {w : Write}
    (hw : Issued s w) : ¬ IsMessage id w := by
  intro hmessage
  have hrecord : ∃ r : Record, w = r.write := by
    rcases hw with hw | ⟨δ', hw⟩
    · obtain ⟨δ', r, hr, -⟩ := h.log w hw
      exact ⟨r, hr⟩
    · obtain ⟨r, hr, -⟩ := (h.devices δ').ok_of_pending hw
      exact ⟨r, hr⟩
  obtain ⟨r, rfl⟩ := hrecord
  obtain ⟨owner, peer, m, rfl, hid⟩ := isMessage_write hmessage
  exact hfresh owner peer m hw hid

/-- Under a fresh id nothing is stored. -/
theorem subtree_of_fresh (h : C.Inv s) {screen : Nat} {text : String} {timestamp : Int64}
    (hfresh : FreshIds s (.act δ (.sendTapped screen text id timestamp))) (key : String) :
    s.server.tree.subtree ["messages", key, id] = ∅ := by
  by_contra hne
  obtain ⟨owner, peer, m, hm, -, rfl, -⟩ := h.stored.message hne
  exact not_isMessage_of_fresh h hfresh (Or.inl hm.mem) ⟨_, rfl⟩

/-- Only a send that draws the id writes under it. -/
theorem appended_not_isMessage {action : Action} {rs : List Record}
    (happended : C.Appended s δ action rs)
    (haction : ∀ screen text timestamp, action ≠ .sendTapped screen text id timestamp) :
    ∀ w ∈ rs.map Record.write, ¬ IsMessage id w := by
  intro w hw hmessage
  obtain ⟨r, hr, rfl⟩ := List.mem_map.mp hw
  obtain ⟨owner, peer, m, rfl, hid⟩ := isMessage_write hmessage
  cases happended with
  | nothing => simp at hr
  | register => simp at hr
  | create => simp at hr
  | @send screen text randomStr timestamp =>
      have hm : m.id = randomStr := by
        simp only [sendRecords, List.mem_cons, Record.message.injEq, reduceCtorEq, List.not_mem_nil,
          or_false] at hr
        rcases hr with ⟨-, -, rfl⟩ | ⟨-, -, rfl⟩ <;> rfl
      exact haction screen text timestamp (by rw [← hid, hm])

/-- Nothing but `base`, which `δ` had queued, is issued under the id. -/
structure Quiet (δ : ι) (id : String) (base : List Write)
    (tr : List (System ι × Event ι × System ι)) (s : System ι) : Prop where
  stream : ∃ later, System.stream tr s δ = base ++ later ∧ ∀ w ∈ later, ¬ IsMessage id w
  others : ∀ δ', δ' ≠ δ → ∀ w ∈ System.stream tr s δ', ¬ IsMessage id w

theorem quiet_step {base : List Write} (h : C.Inv s) {e : Event ι} (hquiet : Quiet δ id base tr s)
    (hrestart : NotRestarted δ e) (hdrawn : NotDrawn id e) (hstep : s.step e = .ok s') :
    Quiet δ id base (tr ++ [(s, e, s')]) s' := by
  obtain ⟨later, hstream, hlater⟩ := hquiet.stream
  cases e with
  | flush δ' =>
      refine ⟨⟨later, ?_, hlater⟩, fun δ'' hδ => ?_⟩
      · rw [System.stream_flush hstep, hstream]
      · rw [System.stream_flush hstep]
        exact hquiet.others δ'' hδ
  | act δ' action =>
      obtain ⟨-, hothers, hact⟩ := h.appended_step hstep
      have hkeep : ∀ δ'', δ'' ≠ δ' →
          System.stream (tr ++ [(s, .act δ' action, s')]) s' δ'' = System.stream tr s δ'' := by
        intro δ'' hδ
        have hpending : (s'.devices δ'').pending = (s.devices δ'').pending ++ [] := by
          rw [hothers δ'' hδ, List.append_nil]
        rw [System.stream_act hpending, List.append_nil]
      rcases hact with ⟨randomId, rfl, hnil⟩ | ⟨rs, happended, hpending⟩
      · -- another process ends, and what it had queued is gone
        have hδ : δ' ≠ δ := hrestart
        refine ⟨⟨later, by rw [hkeep δ hδ.symm, hstream], hlater⟩, fun δ'' hδ'' w hw => ?_⟩
        by_cases hsame : δ'' = δ'
        · subst hsame
          rw [System.stream, System.flushed_act, hnil, List.append_nil] at hw
          exact hquiet.others δ'' hδ'' w (List.mem_append_left _ hw)
        · rw [hkeep δ'' hsame] at hw
          exact hquiet.others δ'' hδ'' w hw
      · have hnew : ∀ w ∈ rs.map Record.write, ¬ IsMessage id w := by
          refine appended_not_isMessage happended fun screen text timestamp haction => ?_
          subst haction
          exact hdrawn rfl
        refine ⟨?_, fun δ'' hδ'' w hw => ?_⟩
        · by_cases hsame : δ = δ'
          · subst hsame
            refine ⟨later ++ rs.map Record.write, ?_, fun w hw => ?_⟩
            · rw [System.stream_act hpending, hstream, List.append_assoc]
            · exact (List.mem_append.mp hw).elim (hlater w) (hnew w)
          · exact ⟨later, by rw [hkeep δ hsame, hstream], hlater⟩
        · by_cases hsame : δ'' = δ'
          · subst hsame
            rw [System.stream_act hpending] at hw
            exact (List.mem_append.mp hw).elim (hquiet.others δ'' hδ'' w) (hnew w)
          · rw [hkeep δ'' hsame] at hw
            exact hquiet.others δ'' hδ'' w hw

/-- Under the id nothing was applied but what was applied of the segment `x` of the queue. -/
theorem Quiet.mem_applied {q x : List Write} (h : Quiet δ id (q ++ x) tr s)
    (hq : ∀ w ∈ q, ¬ IsMessage id w) :
    ∀ w ∈ (System.flushed tr).map Prod.snd, IsMessage id w →
      w ∈ ((Interleave.proj δ (System.flushed tr)).drop q.length).take x.length := by
  intro w hw hmessage
  obtain ⟨later, hstream, hlater⟩ := h.stream
  obtain ⟨k, -, hcut, hmem⟩ := Interleave.segment hstream
  obtain ⟨⟨δ', w⟩, hin, rfl⟩ := List.mem_map.mp hw
  by_cases hδ : δ' = δ
  · subst hδ
    rcases hmem w (Interleave.mem_proj.mpr hin) with hbefore | hsent | hafter
    · exact absurd hmessage (hq w hbefore)
    · rw [hcut]
      exact hsent
    · exact absurd hmessage (hlater w hafter)
  · have hother := List.mem_append_left (s.devices δ').pending (Interleave.mem_proj.mpr hin)
    exact absurd hmessage (h.others δ' hδ w hother)

theorem quiet_run {base : List Write} (h₁ : System.Reachable (fun _ e => CleanIds e) s₁)
    (hquiet : Quiet δ id base [] s₁)
    (hrun : System.RunFrom (fun _ e => NotRestarted δ e ∧ CleanIds e ∧ NotDrawn id e) s₁ tr s') :
    Quiet δ id base tr s' := by
  induction hrun with
  | start h =>
      subst h
      exact hquiet
  | @next tr s s' e hrun hguard hstep ih =>
      have hreach : System.Reachable (fun _ e => CleanIds e) s :=
        System.RunFrom.reachable (fun _ _ hg => hg.2.1) hrun h₁
      exact quiet_step (plain_inv hreach) ih hguard.1 hguard.2.2 hstep

/-- At a location written under the id, the database has what the send wrote there, if
that was applied, and else nothing. -/
theorem copy_of_applied {u : UserRecord} {f : UserId} {c : ChatRecord} {text : String}
    {timestamp : Int64} {applied : List Write} {r : Record} (hu : CleanId u.id) (hf : CleanId f)
    (hne : u.id ≠ f) (hr : r ∈ sendRecords u f c text id timestamp) (hmessage : IsMessage id r.write)
    (hempty : s₁.server.tree.subtree r.path = ∅)
    (hrecords : ∀ w ∈ (System.flushed tr).map Prod.snd, ∃ r : Record, w = r.write)
    (hflushed : ∀ w ∈ applied, w ∈ (System.flushed tr).map Prod.snd)
    (hsent : ∀ w ∈ applied, w ∈ (sendRecords u f c text id timestamp).map Record.write)
    (honly : ∀ w ∈ (System.flushed tr).map Prod.snd, IsMessage id w → w ∈ applied)
    {guard : System ι → Event ι → Prop} (hrun : System.RunFrom guard s₁ tr s') :
    s'.server.tree.subtree r.path = if r.write ∈ applied then r.dict else ∅ := by
  -- a write at this location is the one of the send
  have heq : ∀ r' : Record, r'.path = r.path → r'.write ∈ (System.flushed tr).map Prod.snd →
      r'.write ∈ applied ∧ r'.write = r.write := by
    intro r' hpath hmem
    have happlied : r'.write ∈ applied := by
      refine honly _ hmem ?_
      obtain ⟨key, hkey⟩ := hmessage
      exact ⟨key, (show r'.write.path = r.write.path from hpath).trans hkey⟩
    exact ⟨happlied, write_eq_of_path_eq hu hf hne hr (hsent _ happlied) hpath⟩
  rw [System.RunFrom.tree_eq hrun]
  rcases subtree_applyAll_cases (r := r) hrecords with hsame | ⟨r', hpath, hmem, hd⟩
  · rw [hsame, hempty, if_neg]
    intro hin
    exact subtree_applyAll_ne_empty (r := r) hrecords (Or.inr ⟨r, rfl, hflushed _ hin⟩)
      (hsame.trans hempty)
  · obtain ⟨happlied, hwrite⟩ := heq r' hpath hmem
    rw [hwrite] at happlied
    rw [hd, if_pos happlied]
    exact congrArg Write.value hwrite

/-- What an accepted tap on send appends. -/
theorem sendsTo_records (h : C.Inv s) {screen : Nat} {a b : UserId} {text : String}
    {timestamp : Int64} (hto : SendsTo (s.devices δ) screen a b)
    (hsend : s.step (.act δ (.sendTapped screen text id timestamp)) = .ok s₁) :
    ∃ u c, u.id = a ∧ CleanId a ∧ CleanId b ∧ s₁.server = s.server ∧
      (∀ δ', δ' ≠ δ → s₁.devices δ' = s.devices δ') ∧
      (s₁.devices δ).pending = (s.devices δ).pending ++
        (sendRecords u b c text id timestamp).map Record.write := by
  obtain ⟨dev', hact, rfl⟩ := System.step_act_eq_ok.mp hsend
  obtain ⟨vc, user, hvc, huser, hid, hfriend⟩ := hto
  have hout := Device.act_inv hact
  cases hout with
  | sendTapped hrandom hvc' huser' hfriend' hentry hobject hwrites =>
      cases hvc.symm.trans hvc'
      cases huser.symm.trans huser'
      cases hfriend.symm.trans hfriend'
      obtain ⟨u, c, hu, hclean, hsending, -, rfl, -⟩ :=
        h.sendTapped hrandom hvc huser hfriend hentry hobject hwrites
      obtain ⟨vc', user', entry', hvc', huser', hmatch, -⟩ := hsending.vc
      cases hvc.symm.trans hvc'
      cases huser.symm.trans huser'
      obtain rfl := hmatch.id_eq hid
      refine ⟨u, c, rfl, C.session_clean hu, hclean, rfl, fun δ' hδ => ?_, ?_⟩
      · exact Function.update_of_ne hδ _ _
      · simp only [Function.update_self]

/-- An accepted tap on send queues four writes. -/
theorem sendTapped_pending {screen : Nat} {text : String} {timestamp : Int64}
    (hsend : s.step (.act δ (.sendTapped screen text id timestamp)) = .ok s₁) :
    ∃ writes, writes.length = 4 ∧
      (s₁.devices δ).pending = (s.devices δ).pending ++ writes := by
  obtain ⟨dev', hact, rfl⟩ := System.step_act_eq_ok.mp hsend
  have hout := Device.act_inv hact
  cases hout with
  | sendTapped _ _ _ _ _ _ hwrites =>
      refine ⟨_, ChatBoxViewController.length_sendWrites hwrites, ?_⟩
      simp only [Function.update_self]


/-- What the tap queued is applied from the front. -/
theorem cutAt_of_run {guard : System ι → Event ι → Prop} (hguard : ∀ s e, guard s e → NotRestarted δ e)
    {writes : List Write} (hlength : writes.length = 4)
    (hpending : (s₁.devices δ).pending = (s.devices δ).pending ++ writes)
    (hrun : System.RunFrom guard s₁ tr s') : ∃ k, CutAt s s₁ δ tr k := by
  obtain ⟨later, hstream⟩ := hrun.stream_eq hguard
  rw [hpending] at hstream
  obtain ⟨k, hk, hcut, -⟩ := Interleave.segment hstream
  rw [hlength] at hk hcut
  exact ⟨k, hk, writes, hlength, hpending, hcut⟩

/-- Under clean ids and a fresh message id, what a cut leaves in the database. -/
theorem hasCut_of_cutAt {screen : Nat} {a b : UserId} {text : String} {timestamp : Int64} {k : Nat}
    (hto : SendsTo (s.devices δ) screen a b) (hab : a ≠ b)
    (hsend : s.step (.act δ (.sendTapped screen text id timestamp)) = .ok s₁)
    (hrun : System.RunFrom (fun _ e => NotRestarted δ e) s₁ tr s') (hcut : CutAt s s₁ δ tr k)
    (hfresh : FreshSend s δ screen text id timestamp tr) :
    HasCut s' (sendApplied δ (s.devices δ).pending.length tr) a b
      (messageOf a b text id timestamp) k := by
  have hinv := plain_inv hfresh.clean
  obtain ⟨u, c, rfl, hu, hf, hserver, hothers, hpending⟩ := sendsTo_records hinv hto hsend
  have hrun := hrun.strengthen (P := fun _ e => CleanIds e ∧ NotDrawn id e) hfresh.after
  have hclean : CleanIds (.act δ (.sendTapped screen text id timestamp)) := trivial
  have h₁ : System.Reachable (fun _ e => CleanIds e) s₁ := .next hfresh.clean hclean hsend
  have hquiet₁ : Quiet δ id ((s.devices δ).pending ++
      (sendRecords u b c text id timestamp).map Record.write) [] s₁ := by
    refine ⟨⟨[], ?_, by simp⟩, fun δ' hδ w hw => ?_⟩
    · rw [System.stream, hpending]
      simp
    · rw [System.stream, hothers δ' hδ] at hw
      exact not_isMessage_of_fresh hinv hfresh.fresh (Or.inr ⟨δ', by simpa using hw⟩)
  have honly : ∀ w ∈ (System.flushed tr).map Prod.snd, IsMessage id w →
      w ∈ sendApplied δ (s.devices δ).pending.length tr :=
    (quiet_run h₁ hquiet₁ hrun).mem_applied fun w hw =>
      not_isMessage_of_fresh hinv hfresh.fresh (Or.inr ⟨δ, hw⟩)
  have happlied : sendApplied δ (s.devices δ).pending.length tr =
      ((sendRecords u b c text id timestamp).map Record.write).take k := by
    obtain ⟨writes, -, hwrites, htake⟩ := hcut.writes
    rw [htake, List.append_cancel_left (hwrites.symm.trans hpending)]
  have hflushed : ∀ w ∈ sendApplied δ (s.devices δ).pending.length tr,
      w ∈ (System.flushed tr).map Prod.snd := by
    intro w hw
    have hproj := Interleave.mem_proj.mp (List.mem_of_mem_drop (List.mem_of_mem_take hw))
    exact List.mem_map_of_mem hproj
  have hreach : System.Reachable (fun _ e => CleanIds e) s' :=
    System.RunFrom.reachable (fun _ _ hg => hg.2.1) hrun h₁
  rw [happlied] at honly hflushed ⊢
  -- a copy is stored iff its write is among the first `k`
  have hcopy : ∀ (i : Nat) (r : Record) (key : String),
      (sendRecords u b c text id timestamp)[i]? = some r → r.path = ["messages", key, id] →
      if i < k then s'.server.tree.subtree r.path = r.dict else s'.server.tree.subtree r.path = ∅ := by
    intro i r key hr hpath
    have hempty : s₁.server.tree.subtree r.path = ∅ := by
      rw [hserver, hpath]
      exact subtree_of_fresh hinv hfresh.fresh key
    have hsubtree := copy_of_applied hu hf hab (List.mem_of_getElem? hr) ⟨key, hpath⟩ hempty
      ((plain_inv hreach).record_of_flushed hrun) hflushed (fun w hw => List.mem_of_mem_take hw) honly
      hrun
    simp only [write_mem_take_iff hu hf hab hr] at hsubtree
    split
    · next hlt => rw [hsubtree, if_pos hlt]
    · next hge => rw [hsubtree, if_neg hge]
  exact ⟨hcopy 0 _ _ rfl rfl, hcopy 1 _ _ rfl rfl,
    rowUpdated_take_iff hu hf hab (i := 2) rfl rfl rfl,
    rowUpdated_take_iff hu hf hab (i := 3) rfl rfl rfl⟩

end run

/-- Executable form of `SendsTo`. -/
def sendsTo (dev : Device) (screen : Nat) (a b : UserId) : Bool :=
  match dev.screens[screen]? with
  | none => false
  | some vc => vc.currentUser.bind (·.id) = some a ∧ vc.friendId = some b

theorem sendsTo_sound {dev : Device} {screen : Nat} {a b : UserId}
    (h : sendsTo dev screen a b = true) : SendsTo dev screen a b := by
  unfold sendsTo at h
  split at h
  · cases h
  · next vc hvc =>
    obtain ⟨hid, hfriend⟩ := of_decide_eq_true h
    obtain ⟨user, huser, hid⟩ := Option.bind_eq_some_iff.mp hid
    exact ⟨vc, user, hvc, huser, hid, hfriend⟩

/-- Only writes are applied. -/
def onlyFlushes (_ : System Bool) (e : Event Bool) : Bool :=
  match e with
  | .flush _ => true
  | .act _ _ => false

theorem onlyFlushes_sound {δ : Bool} (s : System Bool) (e : Event Bool)
    (h : onlyFlushes s e = true) : NotRestarted δ e := by
  cases e with
  | flush δ' => trivial
  | act δ' action => cases h

/-- User 1 taps send. -/
def sampleTap : Event Bool := .act false (.sendTapped 0 "hi" (sampleId 'a') 200)

/-- User 1 sends in the open session, `n` writes are applied, and then `q` holds. -/
def stopsAfter (n : Nat) (q : System Bool → Bool) : Bool :=
  match Transition.run System.step (fun _ e => decide (CleanIds e)) sampleStart sampleOpen with
  | none => false
  | some s =>
      match s.step sampleTap with
      | .error _ => false
      | .ok s₁ =>
          match Transition.run System.step onlyFlushes s₁ (List.replicate n (.flush false)) with
          | none => false
          | some s' => sendsTo (s.devices false) 0 "1" "2" && freshIds s sampleTap && q s'

theorem exists_of_stopsAfter (n : Nat) (q : System Bool → Bool) (h : stopsAfter n q = true) :
    ∃ s s₁ s' tr, SendsTo (s.devices false) 0 "1" "2" ∧ s.step sampleTap = .ok s₁ ∧
      System.RunFrom (fun _ e => NotRestarted false e) s₁ tr s' ∧
      FreshSend s false 0 "hi" (sampleId 'a') 200 tr ∧ q s' = true := by
  unfold stopsAfter at h
  split at h
  · cases h
  · next s hs =>
    split at h
    · cases h
    · next s₁ hs₁ =>
      split at h
      · cases h
      · next s' hs' =>
        simp only [Bool.and_eq_true] at h
        obtain ⟨⟨hto, hfresh⟩, hq⟩ := h
        have hstart : System.RunFrom (fun _ e => NotRestarted false e) s₁ [] s₁ := .start rfl
        obtain ⟨htr, hevents⟩ := hstart.steps_of_run onlyFlushes_sound hs'
        refine ⟨s, s₁, s', _, sendsTo_sound hto, hs₁, htr, ⟨?_, freshIds_sound hfresh, ?_⟩, hq⟩
        · exact .of_run (fun _ _ => of_decide_eq_true) (.start initial_sampleStart) hs
        · intro x hx
          rw [List.nil_append] at hx
          have hflush := List.mem_map_of_mem (f := fun x => x.2.1) hx
          rw [hevents] at hflush
          rw [List.eq_of_mem_replicate hflush]
          exact ⟨trivial, trivial⟩

end MyChat
