import MyChat.Conversation

/-!
# MyChat.MessageMirror

The two copies of a conversation. While sends are under way the friend's copy may lag
behind the sender's, by messages whose second write is still queued; when nothing is
queued, `messages/a_b` and `messages/b_a` are equal.
-/

namespace MyChat

variable {ι : Type} [DecidableEq ι]

/-- `messages/a_b`, seen next to `messages/b_a`. -/
structure Mirrored (account : ι → UserId → Prop) (s : System ι) (a b : UserId) : Prop where
  /-- What is stored under an id is a message with that id between the two users. -/
  message : ∀ id, s.server.tree.subtree ["messages", chatKey a b, id] ≠ ∅ →
    ∃ m : MessageRecord, s.server.tree.subtree ["messages", chatKey a b, id] = m.dict ∧ m.id = id ∧
      (m.fromId = a ∧ m.toId = b ∨ m.fromId = b ∧ m.toId = a)
  /-- The copies agree on every id present in both. -/
  agree : ∀ id, s.server.tree.subtree ["messages", chatKey a b, id] ≠ ∅ →
    s.server.tree.subtree ["messages", chatKey b a, id] ≠ ∅ →
    s.server.tree.subtree ["messages", chatKey a b, id] =
      s.server.tree.subtree ["messages", chatKey b a, id]
  /-- An id present here alone belongs to a message sent by `a`, whose second copy is
  queued on a device of `a`. -/
  missing : ∀ id, s.server.tree.subtree ["messages", chatKey a b, id] ≠ ∅ →
    s.server.tree.subtree ["messages", chatKey b a, id] = ∅ →
    ∃ m : MessageRecord, s.server.tree.subtree ["messages", chatKey a b, id] = m.dict ∧
      m.fromId = a ∧ m.toId = b ∧
      ∃ δ, account δ a ∧ ⟨["messages", chatKey b a, id], m.dict⟩ ∈ (s.devices δ).pending
  /-- Once everything queued is applied the copies are the same. -/
  settled : (∀ δ, (s.devices δ).pending = []) →
    s.server.tree.subtree ["messages", chatKey a b] = s.server.tree.subtree ["messages", chatKey b a]

section

variable {account : ι → UserId → Prop} {s : System ι} {a b : UserId}

/-- A second copy that is queued, is queued on a device of the sender. -/
theorem account_of_pending (h : (conversation account).Inv s) {δ : ι} {m : MessageRecord}
    (hsound : (Record.message b a m).Sound)
    (hmem : (Record.message b a m).write ∈ (s.devices δ).pending) : account δ m.fromId := by
  obtain ⟨r, hw, hr, hissue⟩ := (h.devices δ).ok_of_pending hmem
  obtain rfl := Record.write_inj hsound hr hw
  exact hissue.1

/-- **A message missing in the friend's copy** is one whose sender is not done. -/
theorem missing_copy (h : (conversation account).Inv s) (hcomplete : Complete s) (ha : CleanId a)
    {id : String} (hne : s.server.tree.subtree ["messages", chatKey a b, id] ≠ ∅)
    (hnone : s.server.tree.subtree ["messages", chatKey b a, id] = ∅) :
    ∃ m : MessageRecord, s.server.tree.subtree ["messages", chatKey a b, id] = m.dict ∧
      m.fromId = a ∧ m.toId = b ∧
      ∃ δ, account δ a ∧ ⟨["messages", chatKey b a, id], m.dict⟩ ∈ (s.devices δ).pending := by
  obtain ⟨m, ⟨hmem, hsound, δ', hissue⟩, rfl, hd⟩ := message_at h ha hne
  have hcopy : (Record.message b a m).write ∉ s.server.log :=
    fun hmem => h.subtree_ne_empty hmem hnone
  obtain ⟨-, ⟨hfrom, hto⟩ | ⟨-, -, hfirst⟩⟩ := hissue
  · rcases (hcomplete a b m hsound (Or.inl hmem)).1 with hlog | ⟨δ, hpending⟩
    · exact absurd hlog hcopy
    · have hsound' : (Record.message b a m).Sound :=
        ⟨hsound.2.1, hsound.1, Or.inr ⟨hfrom.symm, hto.symm⟩⟩
      have hδ := account_of_pending h hsound' hpending
      rw [← hfrom] at hδ
      exact ⟨m, hd, hfrom.symm, hto.symm, δ, hδ, hpending⟩
  · exact absurd hfirst hcopy

/-- **Message store mirror.** In every state reached, for all users `a` and `b`. -/
theorem messages_mirrored (h : System.Reachable (ConversationRun account) s) (ha : CleanId a)
    (hb : CleanId b) : Mirrored account s a b := by
  have hinv : (conversation account).Inv s := Contract.inv h
  have hcomplete := complete h
  have hagree : ∀ id, s.server.tree.subtree ["messages", chatKey a b, id] ≠ ∅ →
      s.server.tree.subtree ["messages", chatKey b a, id] ≠ ∅ →
      s.server.tree.subtree ["messages", chatKey a b, id] =
        s.server.tree.subtree ["messages", chatKey b a, id] := by
    intro id hne hne'
    obtain ⟨m, hm, rfl, hd⟩ := message_at hinv ha hne
    obtain ⟨m', hm', hid, hd'⟩ := message_at hinv hb hne'
    rw [hd, hd', uniqueIds h _ _ m _ _ m' hm.sound hm'.sound (Or.inl hm.mem) (Or.inl hm'.mem)
      hid.symm]
  refine ⟨?_, hagree, fun id => missing_copy hinv hcomplete ha, fun hnil => ?_⟩
  · intro id hne
    obtain ⟨m, hm, hid, hd⟩ := message_at hinv ha hne
    exact ⟨m, hd, hid, hm.sound.2.2⟩
  · refine PathTree.ext_children ?_ ?_ fun id => ?_
    · rw [PathTree.get_subtree]
      exact hinv.stored.get_messages _
    · rw [PathTree.get_subtree]
      exact hinv.stored.get_messages _
    · simp only [PathTree.subtree_subtree, List.cons_append, List.nil_append]
      -- with empty queues no message is missing on either side
      have hpresent : ∀ {a b : UserId}, CleanId a →
          s.server.tree.subtree ["messages", chatKey a b, id] ≠ ∅ →
          s.server.tree.subtree ["messages", chatKey b a, id] ≠ ∅ := by
        intro a b ha hne hnone
        obtain ⟨m, -, -, -, δ, -, hmem⟩ := missing_copy hinv hcomplete ha hne hnone
        simp [hnil δ] at hmem
      by_cases hne : s.server.tree.subtree ["messages", chatKey a b, id] = ∅
      · by_cases hne' : s.server.tree.subtree ["messages", chatKey b a, id] = ∅
        · rw [hne, hne']
        · exact absurd hne (hpresent hb hne')
      · exact hagree id hne (hpresent ha hne)

end

/-- In the middle of a send of user 1 to user 2. -/
theorem messages_mirrored_sample :
    ∃ s, Transition.run System.step conversationRun sampleStart
        (sampleOpen ++ (sampleSend "hi" 'a' 101).take 2) = some s ∧
      Mirrored (fun δ a => a = accountOf δ) s "1" "2" := by
  have hrun : (Transition.run System.step conversationRun sampleStart
      (sampleOpen ++ (sampleSend "hi" 'a' 101).take 2)).isSome := by
    decide +kernel
  obtain ⟨s, hs⟩ := Option.isSome_iff_exists.mp hrun
  exact ⟨s, hs, messages_mirrored (.of_run conversationRun_sound (.start initial_sampleStart) hs)
    (by decide) (by decide)⟩

end MyChat
