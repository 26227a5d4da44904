import MyChat.Firebase
import MyChat.Lib.SortedList

/-!
# MyChat.LLRBNode

The left-leaning red-black trees below a sorted dictionary, `FLLRBEmptyNode` and
`FLLRBValueNode`. `insertKey:forValue:withComparator:` and `remove:withComparator:`
go down to the key and mend the tree with `fixUp` on the way back.

`Balanced` is what the header of the dictionary promises and `check` tests
(`check_eq_ok_iff`): no red node has a red child, every path has the same number of black nodes,
and only the left child can be red. Mending moves no entry (`toList_fixUp`), so an insertion
can be read off the list of entries whether the tree is balanced or not; a removal drops a
whole node where one child is empty, which loses nothing only in a balanced tree.
-/

namespace MyChat

open SortedList

/-- `RED` is `@true`, `BLACK` is `@false`. -/
inductive FLLRBColor
  | RED
  | BLACK
deriving DecidableEq, Repr

namespace FLLRBColor

/-- `boolValue`. -/
def boolValue : FLLRBColor → Bool
  | RED => true
  | BLACK => false

/-- `[NSNumber numberWithBool:]`. -/
def numberWithBool : Bool → FLLRBColor
  | true => RED
  | false => BLACK

/-- The other color. -/
def flipped (color : FLLRBColor) : FLLRBColor := numberWithBool !color.boolValue

theorem BLACK_ne_RED : BLACK ≠ RED := by decide

@[simp] theorem boolValue_RED : RED.boolValue = true := rfl
@[simp] theorem boolValue_BLACK : BLACK.boolValue = false := rfl
@[simp] theorem flipped_RED : RED.flipped = BLACK := rfl
@[simp] theorem flipped_BLACK : BLACK.flipped = RED := rfl
@[simp] theorem flipped_flipped (c : FLLRBColor) : c.flipped.flipped = c := by cases c <;> rfl

end FLLRBColor

open FLLRBColor

/-- `FLLRBEmptyNode`, or `FLLRBValueNode`. -/
inductive FLLRBNode (κ β : Type*)
  | emptyNode
  | valueNode (key : κ) (value : β) (color : FLLRBColor) (left right : FLLRBNode κ β)

namespace FLLRBNode

variable {κ β : Type*}

/-! ### Fields -/

/-- `isEmpty`. -/
def isEmpty : FLLRBNode κ β → Bool
  | emptyNode => true
  | valueNode .. => false

/-- `key`, `nil` for the empty node. -/
def key : FLLRBNode κ β → Option κ
  | emptyNode => none
  | valueNode key _ _ _ _ => some key

/-- `value`, `nil` for the empty node. -/
def value : FLLRBNode κ β → Option β
  | emptyNode => none
  | valueNode _ value _ _ _ => some value

/-- `color`, `nil` for the empty node. -/
def color : FLLRBNode κ β → Option FLLRBColor
  | emptyNode => none
  | valueNode _ _ color _ _ => some color

/-- `left`. That of the empty node is `nil`, which answers as the empty node does. -/
def left : FLLRBNode κ β → FLLRBNode κ β
  | emptyNode => emptyNode
  | valueNode _ _ _ left _ => left

/-- `right`. -/
def right : FLLRBNode κ β → FLLRBNode κ β
  | emptyNode => emptyNode
  | valueNode _ _ _ _ right => right

/-- `isRed`. -/
def isRed : FLLRBNode κ β → Bool
  | emptyNode => false
  | valueNode _ _ color _ _ => color.boolValue

/-- `count`. -/
def count : FLLRBNode κ β → Nat
  | emptyNode => 0
  | valueNode _ _ _ left right => left.count + 1 + right.count

/-- The entries, as `inorderTraversal:` meets them. -/
def toList : FLLRBNode κ β → List (κ × β)
  | emptyNode => []
  | valueNode key value _ left right => left.toList ++ (key, value) :: right.toList

/-- `copyWith:withValue:withColor:withLeft:withRight:`; `nil` keeps the field. -/
def copyWith (aKey : Option κ) (aValue : Option β) (aColor : Option FLLRBColor)
    (aLeft aRight : Option (FLLRBNode κ β)) : FLLRBNode κ β → FLLRBNode κ β
  | emptyNode => emptyNode
  | valueNode key value color left right =>
      valueNode (aKey.getD key) (aValue.getD value) (aColor.getD color) (aLeft.getD left)
        (aRight.getD right)

/-- `min`. -/
def min : FLLRBNode κ β → FLLRBNode κ β
  | emptyNode => emptyNode
  | valueNode key value color left right =>
      if left.isEmpty then valueNode key value color left right else left.min

/-- `minKey`. -/
def minKey (self : FLLRBNode κ β) : Option κ := self.min.key

/-- `maxKey`. -/
def maxKey : FLLRBNode κ β → Option κ
  | emptyNode => none
  | valueNode key _ _ _ right => if right.isEmpty then some key else right.maxKey

/-! ### Mending -/

/-- `rotateLeft`. -/
def rotateLeft (self : FLLRBNode κ β) : FLLRBNode κ β :=
  let nl := self.copyWith none none (some RED) none (some self.right.left)
  self.right.copyWith none none self.color (some nl) none

/-- `rotateRight`. -/
def rotateRight (self : FLLRBNode κ β) : FLLRBNode κ β :=
  let nr := self.copyWith none none (some RED) (some self.left.right) none
  self.left.copyWith none none self.color none (some nr)

/-- `colorFlip`. -/
def colorFlip (self : FLLRBNode κ β) : FLLRBNode κ β :=
  let nleft := self.left.copyWith none none (self.left.color.map flipped) none none
  let nright := self.right.copyWith none none (self.right.color.map flipped) none none
  self.copyWith none none (self.color.map flipped) (some nleft) (some nright)

/-- `fixUp`. -/
def fixUp (self : FLLRBNode κ β) : FLLRBNode κ β :=
  let n := if self.right.isRed && !self.left.isRed then self.rotateLeft else self
  let n := if n.left.isRed && n.left.left.isRed then n.rotateRight else n
  if n.left.isRed && n.right.isRed then n.colorFlip else n

/-- `moveRedLeft`. -/
def moveRedLeft (self : FLLRBNode κ β) : FLLRBNode κ β :=
  let n := self.colorFlip
  if n.right.left.isRed then
    (n.copyWith none none none none (some n.right.rotateRight)).rotateLeft.colorFlip
  else n

/-- `moveRedRight`. -/
def moveRedRight (self : FLLRBNode κ β) : FLLRBNode κ β :=
  let n := self.colorFlip
  if n.left.left.isRed then n.rotateRight.colorFlip else n

/-- What `removeMin` and `remove:withComparator:` do before they go to the left.
`removeMin` has seen by then that there is something. -/
def makeLeftRed (n : FLLRBNode κ β) : FLLRBNode κ β :=
  if !n.left.isEmpty && !n.left.isRed && !n.left.left.isRed then n.moveRedLeft else n

/-- What `remove:withComparator:` does before it goes to the right. -/
def makeRightRed (n : FLLRBNode κ β) : FLLRBNode κ β :=
  let n := if n.left.isRed then n.rotateRight else n
  if !n.right.isEmpty && !n.right.isRed && !n.right.left.isRed then n.moveRedRight else n

section Fields

variable (k : κ) (v : β) (c : FLLRBColor) (l r : FLLRBNode κ β)

@[simp] theorem isEmpty_valueNode : (valueNode k v c l r).isEmpty = false := rfl
@[simp] theorem key_valueNode : (valueNode k v c l r).key = some k := rfl
@[simp] theorem value_valueNode : (valueNode k v c l r).value = some v := rfl
@[simp] theorem color_valueNode : (valueNode k v c l r).color = some c := rfl
@[simp] theorem left_valueNode : (valueNode k v c l r).left = l := rfl
@[simp] theorem right_valueNode : (valueNode k v c l r).right = r := rfl
@[simp] theorem isRed_valueNode : (valueNode k v c l r).isRed = c.boolValue := rfl
@[simp] theorem isRed_emptyNode : (emptyNode : FLLRBNode κ β).isRed = false := rfl

@[simp] theorem copyWith_valueNode (k' : Option κ) (v' : Option β) (c' : Option FLLRBColor)
    (l' r' : Option (FLLRBNode κ β)) :
    (valueNode k v c l r).copyWith k' v' c' l' r' =
      valueNode (k'.getD k) (v'.getD v) (c'.getD c) (l'.getD l) (r'.getD r) := rfl

@[simp] theorem toList_emptyNode : (emptyNode : FLLRBNode κ β).toList = [] := rfl

@[simp] theorem toList_valueNode :
    (valueNode k v c l r).toList = l.toList ++ (k, v) :: r.toList := rfl

end Fields

theorem isEmpty_of_isRed {t : FLLRBNode κ β} (h : t.isRed) : t.isEmpty = false := by
  cases t with
  | emptyNode => cases h
  | valueNode => rfl

theorem isEmpty_of_left_isRed {t : FLLRBNode κ β} (h : t.left.isRed) : t.isEmpty = false := by
  cases t with
  | emptyNode => cases h
  | valueNode => rfl

theorem length_toList (t : FLLRBNode κ β) : t.toList.length = t.count := by
  induction t with
  | emptyNode => rfl
  | valueNode k v c l r ihl ihr =>
      rw [toList_valueNode, List.length_append, List.length_cons, ihl, ihr, count]
      omega

/-! Mending moves no entry. -/

theorem toList_rotateLeft {t : FLLRBNode κ β} (h : t.right.isEmpty = false) :
    t.rotateLeft.toList = t.toList := by
  cases t with
  | emptyNode => rfl
  | valueNode k v c l r =>
      cases r with
      | emptyNode => cases h
      | valueNode => simp [rotateLeft]

theorem toList_rotateRight {t : FLLRBNode κ β} (h : t.left.isEmpty = false) :
    t.rotateRight.toList = t.toList := by
  cases t with
  | emptyNode => rfl
  | valueNode k v c l r =>
      cases l with
      | emptyNode => cases h
      | valueNode => simp [rotateRight]

@[simp] theorem toList_recolor (t : FLLRBNode κ β) (c : Option FLLRBColor) :
    (t.copyWith none none c none none).toList = t.toList := by cases t <;> rfl

@[simp] theorem toList_colorFlip (t : FLLRBNode κ β) : t.colorFlip.toList = t.toList := by
  cases t with
  | emptyNode => rfl
  | valueNode => simp [colorFlip]

@[simp] theorem toList_fixUp (t : FLLRBNode κ β) : t.fixUp.toList = t.toList := by
  have hleft : ∀ t : FLLRBNode κ β,
      (if t.right.isRed && !t.left.isRed then t.rotateLeft else t).toList = t.toList := fun t => by
    split
    · next h => exact toList_rotateLeft (isEmpty_of_isRed (Bool.and_eq_true_iff.mp h).1)
    · rfl
  have hright : ∀ t : FLLRBNode κ β,
      (if t.left.isRed && t.left.left.isRed then t.rotateRight else t).toList = t.toList := fun t => by
    split
    · next h => exact toList_rotateRight (isEmpty_of_isRed (Bool.and_eq_true_iff.mp h).1)
    · rfl
  have hflip : ∀ t : FLLRBNode κ β,
      (if t.left.isRed && t.right.isRed then t.colorFlip else t).toList = t.toList := fun t => by
    split
    · exact toList_colorFlip t
    · rfl
  exact (hflip _).trans ((hright _).trans (hleft t))

@[simp] theorem toList_moveRedLeft (t : FLLRBNode κ β) : t.moveRedLeft.toList = t.toList := by
  unfold moveRedLeft
  dsimp only
  split
  · next h =>
    rw [toList_colorFlip, ← toList_colorFlip t]
    cases hn : t.colorFlip with
    | emptyNode => rw [hn] at h; cases h
    | valueNode k v c l r =>
        rw [hn] at h
        cases r with
        | emptyNode => cases h
        | valueNode kr vr cr lr rr =>
            cases lr with
            | emptyNode => cases h
            | valueNode => simp [rotateLeft, rotateRight]
  · exact toList_colorFlip t

@[simp] theorem toList_moveRedRight (t : FLLRBNode κ β) : t.moveRedRight.toList = t.toList := by
  unfold moveRedRight
  dsimp only
  split
  · next h =>
    rw [toList_colorFlip, toList_rotateRight (isEmpty_of_left_isRed h), toList_colorFlip]
  · exact toList_colorFlip t

@[simp] theorem toList_makeLeftRed (t : FLLRBNode κ β) : t.makeLeftRed.toList = t.toList := by
  unfold makeLeftRed
  split
  · exact toList_moveRedLeft t
  · rfl

@[simp] theorem toList_makeRightRed (t : FLLRBNode κ β) : t.makeRightRed.toList = t.toList := by
  have hrotate : (if t.left.isRed then t.rotateRight else t).toList = t.toList := by
    split
    · next h => exact toList_rotateRight (isEmpty_of_isRed h)
    · rfl
  have hmove : ∀ t : FLLRBNode κ β,
      (if !t.right.isEmpty && !t.right.isRed && !t.right.left.isRed then t.moveRedRight
        else t).toList = t.toList := fun t => by
    split
    · exact toList_moveRedRight t
    · rfl
  exact (hmove _).trans hrotate

/-! ### Changing -/

/-- `insertKey:forValue:withComparator:`. -/
def insertKey (comparator : κ → κ → Ordering) (aKey : κ) (aValue : β) :
    FLLRBNode κ β → FLLRBNode κ β
  | emptyNode => valueNode aKey aValue RED emptyNode emptyNode
  | valueNode key value color left right =>
      let n := valueNode key value color left right
      fixUp <| match comparator aKey key with
        | .lt => n.copyWith none none none (some (left.insertKey comparator aKey aValue)) none
        -- the key that is there stays
        | .eq => n.copyWith none (some aValue) none none none
        | .gt => n.copyWith none none none none (some (right.insertKey comparator aKey aValue))

theorem count_fixUp (t : FLLRBNode κ β) : t.fixUp.count = t.count := by
  rw [← length_toList, toList_fixUp, length_toList]

theorem count_makeLeftRed (t : FLLRBNode κ β) : t.makeLeftRed.count = t.count := by
  rw [← length_toList, toList_makeLeftRed, length_toList]

theorem count_makeRightRed (t : FLLRBNode κ β) : t.makeRightRed.count = t.count := by
  rw [← length_toList, toList_makeRightRed, length_toList]

theorem count_copyWith_le {t : FLLRBNode κ β} (k : Option κ) (v : Option β)
    (c : Option FLLRBColor) {l r : Option (FLLRBNode κ β)}
    (hl : ∀ t' ∈ l, t'.count ≤ t.left.count) (hr : ∀ t' ∈ r, t'.count ≤ t.right.count) :
    (t.copyWith k v c l r).count ≤ t.count := by
  have hgetD : ∀ {o : Option (FLLRBNode κ β)} {t : FLLRBNode κ β},
      (∀ t' ∈ o, t'.count ≤ t.count) → (o.getD t).count ≤ t.count := fun {o t} h => by
    cases o with
    | none => exact le_rfl
    | some t' => exact h t' rfl
  cases t with
  | emptyNode => exact le_rfl
  | valueNode =>
      have hl := hgetD hl
      have hr := hgetD hr
      simp only [left_valueNode, right_valueNode] at hl hr
      simp only [copyWith_valueNode, count]
      omega

theorem count_left_lt {t s : FLLRBNode κ β} (h : t.count ≤ s.count) (hs : s.isEmpty = false) :
    t.left.count < s.count := by
  cases t with
  | emptyNode =>
      cases s with
      | emptyNode => cases hs
      | valueNode => simp only [left, count]; omega
  | valueNode =>
      simp only [left_valueNode, count] at h ⊢
      omega

theorem count_right_lt {t s : FLLRBNode κ β} (h : t.count ≤ s.count) (hs : s.isEmpty = false) :
    t.right.count < s.count := by
  cases t with
  | emptyNode =>
      cases s with
      | emptyNode => cases hs
      | valueNode => simp only [right, count]; omega
  | valueNode =>
      simp only [right_valueNode, count] at h ⊢
      omega

/-- `removeMin`. It is only sent to value nodes. -/
def removeMin : FLLRBNode κ β → FLLRBNode κ β
  | emptyNode => emptyNode
  | valueNode key value color left right =>
      if left.isEmpty then emptyNode
      else
        let n := (valueNode key value color left right).makeLeftRed
        (n.copyWith none none none (some n.left.removeMin) none).fixUp
termination_by t => t.count
decreasing_by exact count_left_lt (count_makeLeftRed _).le rfl

theorem count_removeMin_le (t : FLLRBNode κ β) : t.removeMin.count ≤ t.count := by
  induction t using removeMin.induct with
  | case1 => simp [removeMin]
  | case2 k v c l r h => simp [removeMin, h, count]
  | case3 k v c l r h n ih =>
      rw [removeMin, if_neg h, count_fixUp]
      refine (count_copyWith_le _ _ _ ?_ (by simp)).trans (count_makeLeftRed _).le
      intro t' ht'
      cases ht'
      exact ih

/-- What `remove:withComparator:` does at the key: the smallest entry to the right takes its
place. -/
def replaceByNext (n : FLLRBNode κ β) : FLLRBNode κ β :=
  let smallest := n.right.min
  n.copyWith smallest.key smallest.value none none (some n.right.removeMin)

theorem count_replaceByNext_le (t : FLLRBNode κ β) : t.replaceByNext.count ≤ t.count := by
  refine count_copyWith_le _ _ _ (by simp) ?_
  intro t' ht'
  cases ht'
  exact count_removeMin_le _

/-- `remove:withComparator:`. -/
def remove (comparator : κ → κ → Ordering) (aKey : κ) : FLLRBNode κ β → FLLRBNode κ β
  | emptyNode => emptyNode
  | valueNode key value color left right =>
      if comparator aKey key = .lt then
        let n := (valueNode key value color left right).makeLeftRed
        (n.copyWith none none none (some (n.left.remove comparator aKey)) none).fixUp
      else
        let n := (valueNode key value color left right).makeRightRed
        if n.key.map (comparator aKey) = some .eq then
          if n.right.isEmpty then emptyNode
          else
            -- and on to the right, where the key is no longer
            let n := n.replaceByNext
            (n.copyWith none none none none (some (n.right.remove comparator aKey))).fixUp
        else (n.copyWith none none none none (some (n.right.remove comparator aKey))).fixUp
termination_by t => t.count
decreasing_by
  · exact count_left_lt (count_makeLeftRed _).le rfl
  · exact count_right_lt ((count_replaceByNext_le _).trans (count_makeRightRed _).le) rfl
  · exact count_right_lt (count_makeRightRed _).le rfl

/-! ### Balance -/

/-- No red node has a red child, every path meets `n` black nodes, and only left children
are red. The first argument is the color of the root. -/
inductive Balanced : FLLRBColor → Nat → FLLRBNode κ β → Prop
  | empty : Balanced BLACK 0 emptyNode
  | red {n : Nat} {k : κ} {v : β} {l r : FLLRBNode κ β} (hl : Balanced BLACK n l)
      (hr : Balanced BLACK n r) : Balanced RED n (valueNode k v RED l r)
  | black {c : FLLRBColor} {n : Nat} {k : κ} {v : β} {l r : FLLRBNode κ β} (hl : Balanced c n l)
      (hr : Balanced BLACK n r) : Balanced BLACK (n + 1) (valueNode k v BLACK l r)

/-- Balanced but for a red root, which may have a red left child. -/
inductive Loose (n : Nat) : FLLRBNode κ β → Prop
  | mk {c : FLLRBColor} {k : κ} {v : β} {l r : FLLRBNode κ β} (hl : Balanced c n l)
      (hr : Balanced BLACK n r) : Loose n (valueNode k v RED l r)

variable {c cl cr : FLLRBColor} {n : Nat} {k : κ} {v : β} {t l r : FLLRBNode κ β}

theorem Balanced.isRed_eq (h : Balanced c n t) : t.isRed = c.boolValue := by
  cases h <;> rfl

/-- The root of a dictionary is made black. -/
theorem Loose.blacken (h : Loose n t) :
    Balanced BLACK (n + 1) (t.copyWith none none (some BLACK) none none) := by
  cases h with
  | mk hl hr => exact .black hl hr

theorem Balanced.blacken (h : Balanced c n t) :
    ∃ m, Balanced BLACK m (t.copyWith none none (some BLACK) none none) := by
  cases h with
  | empty => exact ⟨0, .empty⟩
  | red hl hr => exact ⟨_, .black hl hr⟩
  | black hl hr => exact ⟨_, .black hl hr⟩

/-! What `fixUp` does, case by case. -/

section FixUp

variable {c : FLLRBColor} {k k' kl kr : κ} {v v' vl vr : β} {l r a b a' b' : FLLRBNode κ β}

theorem fixUp_of_black (hl : (l.isRed && l.left.isRed) = false) (hr : r.isRed = false) :
    (valueNode k v c l r).fixUp = valueNode k v c l r := by simp [fixUp, hl, hr]

theorem fixUp_of_right (hl : l.isRed = false) (hb : b.isRed = false) :
    (valueNode k v c l (valueNode kr vr RED a b)).fixUp =
      valueNode kr vr c (valueNode k v RED l a) b := by simp [fixUp, rotateLeft, hl, hb]

theorem fixUp_of_both (ha : a.isRed = false) :
    (valueNode k v c (valueNode kl vl RED a b) (valueNode kr vr RED a' b')).fixUp =
      valueNode k v c.flipped (valueNode kl vl BLACK a b) (valueNode kr vr BLACK a' b') := by
  simp [fixUp, colorFlip, ha]

theorem fixUp_of_left (hr : r.isRed = false) :
    (valueNode k v c (valueNode kl vl RED (valueNode k' v' RED a b) b') r).fixUp =
      valueNode kl vl c.flipped (valueNode k' v' BLACK a b) (valueNode k v BLACK b' r) := by
  simp [fixUp, rotateRight, colorFlip, hr]

end FixUp

theorem Balanced.fixUp_eq (hl : Balanced cl n l) (hr : Balanced BLACK n r) (k : κ) (v : β)
    (c : FLLRBColor) : (valueNode k v c l r).fixUp = valueNode k v c l r := by
  refine fixUp_of_black ?_ hr.isRed_eq
  cases hl with
  | empty => rfl
  | red ha hb => simp [ha.isRed_eq]
  | black ha hb => rfl

/-- With balanced children, `fixUp` leaves a node of the same color with balanced children
and a black one on the right; unless both are red and pass their color up. -/
theorem exists_fixUp (hl : Balanced cl n l) (hr : Balanced cr n r) (k : κ) (v : β)
    (c : FLLRBColor) :
    (∃ k' v' cl' l' r', (valueNode k v c l r).fixUp = valueNode k' v' c l' r' ∧
      Balanced cl' n l' ∧ Balanced BLACK n r') ∨
    (cl = RED ∧ cr = RED ∧ ∃ l' r', (valueNode k v c l r).fixUp = valueNode k v c.flipped l' r' ∧
      Balanced BLACK (n + 1) l' ∧ Balanced BLACK (n + 1) r') := by
  cases cr with
  | BLACK => exact Or.inl ⟨k, v, cl, l, r, hl.fixUp_eq hr k v c, hl, hr⟩
  | RED =>
      cases hr with
      | @red _ kr vr a b ha hb =>
          cases cl with
          | BLACK =>
              exact Or.inl ⟨kr, vr, RED, _, b, fixUp_of_right hl.isRed_eq hb.isRed_eq, .red hl ha, hb⟩
          | RED =>
              cases hl with
              | @red _ kl vl a' b' ha' hb' =>
                  exact Or.inr ⟨rfl, rfl, _, _, fixUp_of_both ha'.isRed_eq, .black ha' hb',
                    .black ha hb⟩

theorem Balanced.exists_fixUp_black (hl : Balanced cl n l) (hr : Balanced cr n r) (k : κ) (v : β) :
    ∃ c, (c = RED → cl = RED ∧ cr = RED) ∧ Balanced c (n + 1) (valueNode k v BLACK l r).fixUp := by
  rcases exists_fixUp hl hr k v BLACK with ⟨k', v', cl', l', r', h, hl', hr'⟩ | ⟨hcl, hcr, l', r', h, hl', hr'⟩
  · rw [h]
    exact ⟨BLACK, fun h => absurd h BLACK_ne_RED, .black hl' hr'⟩
  · rw [h]
    exact ⟨RED, fun _ => ⟨hcl, hcr⟩, .red hl' hr'⟩

/-- A red root goes on being red unless both children are. -/
theorem Balanced.loose_fixUp_red (hl : Balanced cl n l) (hr : Balanced cr n r)
    (h : cl = BLACK ∨ cr = BLACK) (k : κ) (v : β) : Loose n (valueNode k v RED l r).fixUp := by
  rcases exists_fixUp hl hr k v RED with ⟨k', v', cl', l', r', h, hl', hr'⟩ | ⟨rfl, rfl, -⟩
  · rw [h]
    exact ⟨hl', hr'⟩
  · simp at h

theorem Loose.exists_fixUp_black (hl : Loose n l) (hr : Balanced BLACK n r) (k : κ) (v : β) :
    ∃ c, Balanced c (n + 1) (valueNode k v BLACK l r).fixUp := by
  cases hl with
  | @mk c kl vl a b ha hb =>
      cases ha with
      | red ha' hb' =>
          rw [fixUp_of_left hr.isRed_eq]
          exact ⟨RED, .red (.black ha' hb') (.black hb hr)⟩
      | empty =>
          obtain ⟨c', -, h⟩ := (Balanced.red .empty hb).exists_fixUp_black hr k v
          exact ⟨c', h⟩
      | black ha' hb' =>
          obtain ⟨c', -, h⟩ := (Balanced.red (.black ha' hb') hb).exists_fixUp_black hr k v
          exact ⟨c', h⟩

/-! ### Inserting -/

/-- What an insertion makes of a balanced tree: a black root may turn red, and a red one may
come to have a red child. -/
def Inserted : FLLRBColor → Nat → FLLRBNode κ β → Prop
  | BLACK, n, t => ∃ c, Balanced c n t
  | RED, n, t => Loose n t

theorem inserted_insertKey (comparator : κ → κ → Ordering) (aKey : κ) (aValue : β)
    (h : Balanced c n t) : Inserted c n (t.insertKey comparator aKey aValue) := by
  induction h with
  | empty => exact ⟨RED, .red .empty .empty⟩
  | @red n k v l r hl hr ihl ihr =>
      obtain ⟨cl, ihl⟩ := ihl
      obtain ⟨cr, ihr⟩ := ihr
      rw [insertKey]
      cases comparator aKey k with
      | lt => exact ihl.loose_fixUp_red hr (Or.inr rfl) k v
      | eq => exact hl.loose_fixUp_red hr (Or.inl rfl) k aValue
      | gt => exact hl.loose_fixUp_red ihr (Or.inl rfl) k v
  | @black c n k v l r hl hr ihl ihr =>
      obtain ⟨cr, ihr⟩ := ihr
      rw [insertKey]
      cases comparator aKey k with
      | lt =>
          cases c with
          | BLACK =>
              obtain ⟨cl, ihl⟩ := ihl
              obtain ⟨c', -, h⟩ := ihl.exists_fixUp_black hr k v
              exact ⟨c', h⟩
          | RED => exact Loose.exists_fixUp_black ihl hr k v
      | eq =>
          obtain ⟨c', -, h⟩ := hl.exists_fixUp_black hr k aValue
          exact ⟨c', h⟩
      | gt =>
          obtain ⟨c', -, h⟩ := hl.exists_fixUp_black ihr k v
          exact ⟨c', h⟩

/-- A sorted node, cut at its entry. -/
theorem sorted_valueNode {comparator : κ → κ → Ordering}
    (hs : Sorted comparator (valueNode k v c l r).toList) :
    Sorted comparator l.toList ∧ Sorted comparator r.toList ∧
      (∀ e ∈ l.toList, comparator e.1 k = .lt) ∧ ∀ e ∈ r.toList, comparator k e.1 = .lt := by
  obtain ⟨hl, hr, hlr⟩ := sorted_append.mp hs
  obtain ⟨hkr, hr⟩ := sorted_cons.mp hr
  exact ⟨hl, hr, fun e he => hlr e he _ List.mem_cons_self, hkr⟩

/-- The value is put under the key that is there and compares equal, or else under the new one. -/
theorem exists_toList_insertKey {comparator : κ → κ → Ordering} [Std.TransCmp comparator]
    (hs : Sorted comparator t.toList) (aKey : κ) (aValue : β) :
    ∃ k, comparator aKey k = .eq ∧ (k = aKey ∨ ∃ v, (k, v) ∈ t.toList) ∧
      (t.insertKey comparator aKey aValue).toList = insert comparator k aValue t.toList := by
  induction t with
  | emptyNode => exact ⟨aKey, Std.ReflCmp.compare_self, Or.inl rfl, rfl⟩
  | valueNode k v c l r ihl ihr =>
      obtain ⟨hl, hr, hlk, -⟩ := sorted_valueNode hs
      rw [insertKey, toList_fixUp, toList_valueNode]
      cases h : comparator aKey k with
      | lt =>
          obtain ⟨k', hk', hmem, hlist⟩ := ihl hl
          have h' := Std.TransCmp.lt_of_eq_of_lt (Std.OrientedCmp.eq_symm hk') h
          refine ⟨k', hk', hmem.imp_right ?_, by simp [insert_append_of_lt h', hlist]⟩
          exact fun ⟨v', hv'⟩ => ⟨v', List.mem_append_left _ hv'⟩
      | eq =>
          exact ⟨k, h, Or.inr ⟨v, by simp⟩,
            by simp [insert_append_of_eq hlk (Std.ReflCmp.compare_self)]⟩
      | gt =>
          obtain ⟨k', hk', hmem, hlist⟩ := ihr hr
          have h' := Std.TransCmp.gt_of_eq_of_gt (Std.OrientedCmp.eq_symm hk') h
          refine ⟨k', hk', hmem.imp_right ?_, by simp [insert_append_of_gt hlk h', hlist]⟩
          exact fun ⟨v', hv'⟩ => ⟨v', List.mem_append_right _ (List.mem_cons_of_mem _ hv')⟩

/-! ### Checking -/

/-- `check`: the black depth, or what is wrong. -/
def check (description : β → String) : FLLRBNode κ β → Except String Nat
  | emptyNode => .ok 0
  | valueNode _ value color left right =>
      if color.boolValue && left.isRed then throw "Red node has a red child"
      else if right.isRed then throw "Right child is red"
      else do
        let blackDepth ← left.check description
        let rightDepth ← right.check description
        if blackDepth ≠ rightDepth then
          throw ("(" ++ description value ++ " -> " ++ (if color.boolValue then "red" else "black") ++
            ")blackDepth: " ++ toString blackDepth ++ " ; self.right check: " ++ toString rightDepth)
        else return blackDepth + (if color.boolValue then 0 else 1)

/-- `checkMaxDepth`. -/
def checkMaxDepth (description : β → String) (self : FLLRBNode κ β) : Except String Bool := do
  let blackDepth ← self.check description
  return 2 ^ blackDepth ≤ self.count + 1

theorem check_valueNode_eq_ok_iff {description : β → String} :
    (valueNode k v c l r).check description = .ok n ↔
      (c.boolValue && l.isRed) = false ∧ r.isRed = false ∧ ∃ m, l.check description = .ok m ∧
        r.check description = .ok m ∧ m + (if c.boolValue then 0 else 1) = n := by
  rw [check]
  cases c.boolValue && l.isRed with
  | true => simp [throw, throwThe, MonadExceptOf.throw]
  | false =>
      cases r.isRed with
      | true => simp [throw, throwThe, MonadExceptOf.throw]
      | false =>
          simp only [Bool.false_eq_true, if_false, true_and, bind_eq_ok]
          refine exists_congr fun m => and_congr_right fun _ => ⟨?_, ?_⟩
          · intro hright
            obtain ⟨m', hr, h⟩ := hright
            split at h
            · cases h
            · next hm =>
              obtain rfl : m = m' := not_not.mp hm
              exact ⟨hr, Except.ok.inj h⟩
          · exact fun ⟨hr, h⟩ => ⟨m, hr, by rw [if_neg (not_not.mpr rfl), h]; rfl⟩

theorem Balanced.check (h : Balanced c n t) (description : β → String) :
    t.check description = .ok n := by
  induction h with
  | empty => rfl
  | @red n _ _ _ _ hl hr ihl ihr =>
      exact check_valueNode_eq_ok_iff.mpr ⟨hl.isRed_eq, hr.isRed_eq, n, ihl, ihr, rfl⟩
  | @black _ n _ _ _ _ hl hr ihl ihr =>
      exact check_valueNode_eq_ok_iff.mpr ⟨rfl, hr.isRed_eq, n, ihl, ihr, rfl⟩

/-- `check` passes exactly the balanced trees. -/
theorem check_eq_ok_iff (description : β → String) :
    t.check description = .ok n ↔ ∃ c, Balanced c n t := by
  refine ⟨fun h => ?_, fun ⟨c, h⟩ => h.check description⟩
  induction t generalizing n with
  | emptyNode =>
      cases h
      exact ⟨BLACK, .empty⟩
  | valueNode k v c l r ihl ihr =>
      obtain ⟨hred, hright, m, hl, hr, rfl⟩ := check_valueNode_eq_ok_iff.mp h
      obtain ⟨cl, hl⟩ := ihl hl
      obtain ⟨cr, hr⟩ := ihr hr
      rw [hr.isRed_eq] at hright
      rw [hl.isRed_eq] at hred
      cases cr with
      | RED => cases hright
      | BLACK =>
          cases c with
          | BLACK => exact ⟨BLACK, .black hl hr⟩
          | RED =>
              cases cl with
              | RED => cases hred
              | BLACK => exact ⟨RED, .red hl hr⟩

/-- A balanced tree is as full as its height asks for. -/
theorem Balanced.two_pow_le (h : Balanced c n t) : 2 ^ n ≤ t.count + 1 := by
  induction h with
  | empty => simp [count]
  | red hl hr ihl ihr => rw [count]; omega
  | black hl hr ihl ihr => rw [count, Nat.pow_succ]; omega

theorem Balanced.checkMaxDepth (h : Balanced c n t) (description : β → String) :
    t.checkMaxDepth description = .ok true := by
  rw [FLLRBNode.checkMaxDepth, h.check]
  simp [h.two_pow_le]

end FLLRBNode

end MyChat
