import MyChat.Conversation

/-!
# MyChat.RowMessage

The rows of the chat list and the messages they show. A row never gets ahead of its
message: in every state, also in the middle of a send, it shows the greeting of a new
chat or a message that is stored. Rows may lag behind messages, but not once
everything queued is applied.
-/

namespace MyChat

variable {ι : Type} [DecidableEq ι]

/-- `chatbox/a/a_b` against `messages/a_b`. -/
structure RowsBacked (s : System ι) (a b : UserId) : Prop where
  /-- A row shows the greeting, or text and time of a stored message. -/
  row : s.server.tree.subtree ["chatbox", a, chatKey a b] ≠ ∅ →
    ∃ c : ChatRecord, s.server.tree.subtree ["chatbox", a, chatKey a b] = c.dict ∧
      (c.lastMessenger = ChatBusiness.greeting ∨
        ∃ m : MessageRecord, s.server.tree.subtree ["messages", chatKey a b, m.id] = m.dict ∧
          m.message = c.lastMessenger ∧ m.ts = c.ts)
  /-- With nothing queued, a conversation with messages has both its rows. -/
  rows : (∀ δ, (s.devices δ).pending = []) →
    s.server.tree.subtree ["messages", chatKey a b] ≠ ∅ →
    s.server.tree.subtree ["chatbox", a, chatKey a b] ≠ ∅ ∧
      s.server.tree.subtree ["chatbox", b, chatKey b a] ≠ ∅

section

variable {account : ι → UserId → Prop} {s : System ι} {a b : UserId}

/-- A message that was applied is still there: nothing else has its id. -/
theorem subtree_message (h : (conversation account).Inv s) (hunique : UniqueIds s)
    {m : MessageRecord} (hsound : (Record.message a b m).Sound)
    (hmem : (Record.message a b m).write ∈ s.server.log) :
    s.server.tree.subtree ["messages", chatKey a b, m.id] = m.dict := by
  obtain ⟨m', hm', hid, hd⟩ := message_at h hsound.1 (h.subtree_ne_empty hmem)
  rw [hd, hunique _ _ m' _ _ m hm'.sound hsound (Or.inl hm'.mem) (Or.inl hmem) hid]

theorem row_backed (h : (conversation account).Inv s) (hunique : UniqueIds s)
    (hne : s.server.tree.subtree ["chatbox", a, chatKey a b] ≠ ∅) :
    ∃ c : ChatRecord, s.server.tree.subtree ["chatbox", a, chatKey a b] = c.dict ∧
      (c.lastMessenger = ChatBusiness.greeting ∨
        ∃ m : MessageRecord, s.server.tree.subtree ["messages", chatKey a b, m.id] = m.dict ∧
          m.message = c.lastMessenger ∧ m.ts = c.ts) := by
  obtain ⟨peer, c, ⟨-, -, δ, hissue⟩, hkey, hd⟩ := h.stored.chat hne
  obtain rfl := chatKey_right_inj hkey
  refine ⟨c, hd, ?_⟩
  rcases hissue with hgreeting | ⟨m, hsound, hmem, htext, hts⟩
  · exact Or.inl hgreeting
  · exact Or.inr ⟨m, subtree_message h hunique hsound hmem, htext, hts⟩

theorem rows_exist (h : (conversation account).Inv s) (hcomplete : Complete s) (ha : CleanId a)
    (hnil : ∀ δ, (s.devices δ).pending = [])
    (hne : s.server.tree.subtree ["messages", chatKey a b] ≠ ∅) :
    s.server.tree.subtree ["chatbox", a, chatKey a b] ≠ ∅ ∧
      s.server.tree.subtree ["chatbox", b, chatKey b a] ≠ ∅ := by
  have hroot : (s.server.tree.subtree ["messages", chatKey a b]).get [] = none := by
    rw [PathTree.get_subtree]
    exact h.stored.get_messages _
  obtain ⟨id, hid⟩ := PathTree.exists_child hroot hne
  rw [PathTree.subtree_subtree] at hid
  obtain ⟨m, hm, -, -⟩ := message_at h ha hid
  have happlied : ∀ {r : Record}, Issued s r.write → s.server.tree.subtree r.path ≠ ∅ := by
    rintro r (hlog | ⟨δ, hpending⟩)
    · exact h.subtree_ne_empty hlog
    · simp [hnil δ] at hpending
  obtain ⟨-, ⟨c, hc⟩, c', hc'⟩ := hcomplete a b m hm.sound (Or.inl hm.mem)
  exact ⟨happlied hc, happlied hc'⟩

/-- **No row without its message, no message without its row.** In every state reached,
for all users `a` and `b`. -/
theorem rows_backed (h : System.Reachable (ConversationRun account) s) (ha : CleanId a) :
    RowsBacked s a b :=
  have hinv : (conversation account).Inv s := Contract.inv h
  ⟨row_backed hinv (uniqueIds h), rows_exist hinv (complete h) ha⟩

end

/-- In the middle of a send of user 1 to user 2, when the sender's row is written. -/
theorem rows_backed_sample :
    ∃ s, Transition.run System.step conversationRun sampleStart
        (sampleOpen ++ (sampleSend "hi" 'a' 101).take 4) = some s ∧ RowsBacked s "1" "2" := by
  have hrun : (Transition.run System.step conversationRun sampleStart
      (sampleOpen ++ (sampleSend "hi" 'a' 101).take 4)).isSome := by
    decide +kernel
  obtain ⟨s, hs⟩ := Option.isSome_iff_exists.mp hrun
  exact ⟨s, hs, rows_backed (.of_run conversationRun_sound (.start initial_sampleStart) hs)
    (by decide)⟩

end MyChat
