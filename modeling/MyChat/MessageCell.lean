import MyChat.Process
import Mathlib.Algebra.Order.Field.Rat
import Mathlib.Algebra.CharZero.Defs

/-!
# MyChat.MessageCell

What a recycled `ChatMessageCell` looks like. `cellForItemAt` sets every attribute for an
own message, but the text colour only there, and a message without a text changes nothing
but the text. So the cell shows its current message as a fresh one would exactly when that
message is an own one, or nothing that it displayed before left a trace
(`shows_only_current_iff`).

`CGFloat` is any type of numbers in which 8 is not 0, and `boundingRect` any function of
the text and the width.
-/

namespace MyChat

/-- `UIColor`, as far as the cell uses it. -/
inductive UIColor (F : Type)
  | white
  | black
  | gray (white alpha : F)
  | displayP3 (red green blue alpha : F)

structure CGRect (F : Type) where
  x : F
  y : F
  width : F
  height : F

/-- `ChatMessageCell`: the look of its two views. -/
structure ChatMessageCell (F : Type) where
  text : Option String
  textColor : UIColor F
  textFrame : CGRect F
  bubbleColor : UIColor F
  bubbleFrame : CGRect F

section look

variable {F : Type} [Zero F] [NatCast F] [Add F] [Sub F] [Mul F] [Div F] [OfScientific F]

namespace ChatMessageCell

/-- The colour of a friend's bubble and of a new one. -/
def bubbleGray : UIColor F := .gray 0.95 (1 : ℕ)

/-- `blueColor`. -/
def blueColor : UIColor F :=
  .displayP3 ((42 : ℕ) / (255 : ℕ)) ((129 : ℕ) / (255 : ℕ)) ((186 : ℕ) / (255 : ℕ)) (1 : ℕ)

/-- A cell as its initialisers leave it. -/
def new : ChatMessageCell F where
  text := "Sample message"
  textColor := .black
  textFrame := ⟨0, 0, 0, 0⟩
  bubbleColor := bubbleGray
  bubbleFrame := ⟨0, 0, 0, 0⟩

end ChatMessageCell

open ChatMessageCell

/-- The message is one of the current user. -/
def Message.IsOwn (message : Message) (currentUser : Option User) : Prop :=
  message.fromId = currentUser.bind (·.id)

instance (message : Message) (currentUser : Option User) : Decidable (message.IsOwn currentUser) :=
  inferInstanceAs (Decidable (message.fromId = currentUser.bind (·.id)))

variable (boundingHeight : String → F → F) (currentUser : Option User)

/-- `collectionView(_:cellForItemAt:)` on the dequeued cell, for `messages?[indexPath.row]`
and `view.frame.width`. -/
def cellForItemAt (width : F) (message : Message) (cell : ChatMessageCell F) : ChatMessageCell F :=
  let cell := { cell with text := message.message }
  match message.message with
  | some messageText =>
      let height := boundingHeight messageText width + (20 : ℕ)
      if message.IsOwn currentUser then
        { cell with
          textFrame := ⟨(8 : ℕ), 0, width * 0.7, height⟩
          textColor := .white
          bubbleFrame := ⟨width * 0.3 - (12 : ℕ), 0, width * 0.7 + (10 : ℕ), height⟩
          bubbleColor := blueColor }
      else
        { cell with
          textFrame := ⟨(8 : ℕ), 0, width * 0.7, height⟩
          bubbleFrame := ⟨0, 0, width * 0.7 + (10 : ℕ), height⟩
          bubbleColor := bubbleGray }
  | none => cell

/-- A cell that displayed these messages, each at the width of the view then. -/
def displayed (history : List (Message × F)) : ChatMessageCell F :=
  history.foldl (fun cell x => cellForItemAt boundingHeight currentUser x.2 x.1 cell) new

variable {boundingHeight currentUser} {history : List (Message × F)} {message : Message} {width : F}
  {cell : ChatMessageCell F}

theorem displayed_concat (x : Message × F) :
    displayed boundingHeight currentUser (history ++ [x]) =
      cellForItemAt boundingHeight currentUser x.2 x.1 (displayed boundingHeight currentUser history) :=
  List.foldl_concat ..

/-! ### One message -/

/-- An own message sets every attribute. -/
theorem cellForItemAt_own (cell' : ChatMessageCell F) (htext : message.message ≠ none)
    (hown : message.IsOwn currentUser) :
    cellForItemAt boundingHeight currentUser width message cell =
      cellForItemAt boundingHeight currentUser width message cell' := by
  obtain ⟨text, htext⟩ := Option.ne_none_iff_exists'.mp htext
  simp [cellForItemAt, htext, hown]

/-- A friend's message sets every attribute but the text colour. -/
theorem cellForItemAt_friend_eq_iff {cell' : ChatMessageCell F} (htext : message.message ≠ none)
    (hown : ¬ message.IsOwn currentUser) :
    cellForItemAt boundingHeight currentUser width message cell =
        cellForItemAt boundingHeight currentUser width message cell' ↔
      cell.textColor = cell'.textColor := by
  obtain ⟨text, htext⟩ := Option.ne_none_iff_exists'.mp htext
  simp [cellForItemAt, htext, hown]

/-- A message without a text sets the text only. -/
theorem cellForItemAt_none (htext : message.message = none) :
    cellForItemAt boundingHeight currentUser width message cell = { cell with text := none } := by
  simp [cellForItemAt, htext]

theorem textColor_cellForItemAt :
    (cellForItemAt boundingHeight currentUser width message cell).textColor =
      if message.message ≠ none ∧ message.IsOwn currentUser then .white else cell.textColor := by
  unfold cellForItemAt
  cases message.message with
  | none => simp
  | some text => by_cases hown : message.IsOwn currentUser <;> simp [hown]

theorem textFrame_cellForItemAt :
    (cellForItemAt boundingHeight currentUser width message cell).textFrame =
      match message.message with
      | some text => ⟨(8 : ℕ), 0, width * 0.7, boundingHeight text width + (20 : ℕ)⟩
      | none => cell.textFrame := by
  unfold cellForItemAt
  cases message.message with
  | none => rfl
  | some text => by_cases hown : message.IsOwn currentUser <;> simp [hown]

/-! ### Any history -/

/-- The text is black as long as no own message was displayed. -/
theorem textColor_displayed :
    (displayed boundingHeight currentUser history).textColor = .black ↔
      ∀ x ∈ history, x.1.message = none ∨ ¬ x.1.IsOwn currentUser := by
  induction history using List.reverseRecOn with
  | nil => simp [displayed, new]
  | append_singleton history x ih =>
      rw [displayed_concat, textColor_cellForItemAt, List.forall_mem_append,
        List.forall_mem_singleton]
      by_cases hx : x.1.message ≠ none ∧ x.1.IsOwn currentUser
      · rw [if_pos hx]
        refine iff_of_false (by simp) fun h => ?_
        exact h.2.elim hx.1 fun hno => hno hx.2
      · rw [if_neg hx, ih]
        have hx : x.1.message = none ∨ ¬ x.1.IsOwn currentUser := by tauto
        exact (and_iff_left hx).symm

/-- Messages without a text leave a new cell as it is, but for the text. -/
theorem displayed_of_none (h : ∀ x ∈ history, x.1.message = none) :
    { displayed boundingHeight currentUser history with text := none } =
      ({ new with text := none } : ChatMessageCell F) := by
  induction history using List.reverseRecOn with
  | nil => rfl
  | append_singleton history x ih =>
      obtain ⟨h, hx⟩ := List.forall_mem_append.mp h
      rw [displayed_concat, cellForItemAt_none (hx x (List.mem_singleton_self x))]
      exact ih h

/-- A message with a text leaves its frame. -/
theorem textFrame_displayed [NeZero ((8 : ℕ) : F)]
    (h : (displayed boundingHeight currentUser history).textFrame = new.textFrame) :
    ∀ x ∈ history, x.1.message = none := by
  induction history using List.reverseRecOn with
  | nil => simp
  | append_singleton history x ih =>
      rw [displayed_concat, textFrame_cellForItemAt] at h
      rw [List.forall_mem_append, List.forall_mem_singleton]
      split at h
      · exact absurd (congrArg CGRect.x h) (NeZero.ne _)
      · next hnone => exact ⟨ih h, hnone⟩

/-- **When a recycled cell shows only its current message.** Each message displayed before
had no text, or the current one has a text and is an own one or the earlier one was not. -/
theorem shows_only_current_iff [NeZero ((8 : ℕ) : F)] (boundingHeight : String → F → F)
    (currentUser : Option User) (history : List (Message × F)) (message : Message) (width : F) :
    cellForItemAt boundingHeight currentUser width message
          (displayed boundingHeight currentUser history) =
        cellForItemAt boundingHeight currentUser width message new ↔
      ∀ x ∈ history, x.1.message = none ∨
        message.message ≠ none ∧ (message.IsOwn currentUser ∨ ¬ x.1.IsOwn currentUser) := by
  by_cases htext : message.message = none
  · -- without a text all the rest is kept: the frame tells whether any text was shown
    rw [cellForItemAt_none htext, cellForItemAt_none htext]
    simp only [htext, ne_eq, not_true_eq_false, false_and, or_false]
    refine ⟨fun h => ?_, displayed_of_none⟩
    exact textFrame_displayed (ChatMessageCell.mk.inj h).2.2.1
  · by_cases hown : message.IsOwn currentUser
    · exact iff_of_true (cellForItemAt_own _ htext hown) fun x _ => Or.inr ⟨htext, Or.inl hown⟩
    · -- a friend's message keeps the colour, and a new cell is black
      rw [cellForItemAt_friend_eq_iff htext hown]
      refine Iff.trans textColor_displayed ?_
      simp [htext, hown]

end look

/-- A message of user 1, and one of user 2. -/
def sampleMessage (fromId : UserId) : Message :=
  ⟨some "m", some fromId, some "1", some 10, some false, some "hi"⟩

theorem shows_only_current_sample :
    cellForItemAt (fun _ _ => (22 : ℚ)) none 320 (sampleMessage "2")
        (displayed (fun _ _ => 22) none [(sampleMessage "2", 320)]) =
      cellForItemAt (fun _ _ => 22) none 320 (sampleMessage "2") ChatMessageCell.new :=
  (shows_only_current_iff (fun _ _ => 22) none _ _ 320).mpr (by decide)

/-- After an own message, the friend's text is white. -/
theorem text_colour_is_kept :
    ¬ ∀ (boundingHeight : String → ℚ → ℚ) currentUser history message width,
      cellForItemAt boundingHeight currentUser width message
          (displayed boundingHeight currentUser history) =
        cellForItemAt boundingHeight currentUser width message ChatMessageCell.new := by
  intro h
  have hcolour := congrArg ChatMessageCell.textColor
    (h (fun _ _ => 22) (some ⟨some "1", none, none, none, none⟩) [(sampleMessage "1", 320)]
      (sampleMessage "2") 320)
  rw [textColor_cellForItemAt, textColor_cellForItemAt, if_neg (by decide), if_neg (by decide),
    displayed, List.foldl_cons, List.foldl_nil, textColor_cellForItemAt, if_pos (by decide)] at hcolour
  cases hcolour

end MyChat
