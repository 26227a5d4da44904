import MyChat.LLRBNode

/-!
# MyChat.LLRBRemove

Removal from a left-leaning red-black tree. On the way down a removal needs a red link to
spend, at the node it is in or at its left child (`Rich`), and `makeLeftRed` and
`makeRightRed` make one where there is none. `moveRedRight` may turn the node for that; then the
node below leans to the right (`Rightward`), and only a removal that goes on to the right may
enter it. Only the root can be without a red link, and then the tree may come out one level lower
(`Removed`).

At the key, the next entry takes its place and is removed from the right, after which the source
looks for the key there again. It lies below all that is left there, and looking for such a key
leaves a tree balanced as it was (`Balanced.remove_below`).
-/

namespace MyChat

open SortedList FLLRBColor

namespace FLLRBNode

variable {κ β : Type*} {c cl cr : FLLRBColor} {n : Nat} {k : κ} {v : β} {t l r : FLLRBNode κ β}

/-! ### Going down to remove -/

section Move

variable {c : FLLRBColor} {k k' kl kr : κ} {v v' vl vr : β} {l r a b a' b' : FLLRBNode κ β}

theorem moveRedLeft_of_black (ha' : a'.isRed = false) :
    (valueNode k v c (valueNode kl vl BLACK a b) (valueNode kr vr BLACK a' b')).moveRedLeft =
      valueNode k v c.flipped (valueNode kl vl RED a b) (valueNode kr vr RED a' b') := by
  simp [moveRedLeft, colorFlip, ha']

theorem moveRedLeft_of_red :
    (valueNode k v c (valueNode kl vl BLACK a b)
        (valueNode kr vr BLACK (valueNode k' v' RED l r) b')).moveRedLeft =
      valueNode k' v' c (valueNode k v BLACK (valueNode kl vl RED a b) l)
        (valueNode kr vr BLACK r b') := by
  simp [moveRedLeft, colorFlip, rotateLeft, rotateRight]

theorem moveRedRight_of_black (ha : a.isRed = false) :
    (valueNode k v c (valueNode kl vl BLACK a b) (valueNode kr vr BLACK a' b')).moveRedRight =
      valueNode k v c.flipped (valueNode kl vl RED a b) (valueNode kr vr RED a' b') := by
  simp [moveRedRight, colorFlip, ha]

theorem moveRedRight_of_red :
    (valueNode k v c (valueNode kl vl BLACK (valueNode k' v' RED l r) b)
        (valueNode kr vr BLACK a' b')).moveRedRight =
      valueNode kl vl c (valueNode k' v' BLACK l r)
        (valueNode k v BLACK b (valueNode kr vr RED a' b')) := by
  simp [moveRedRight, colorFlip, rotateRight]

end Move

/-- There is a red link at the root or just below it on the left. -/
inductive Rich : FLLRBColor → Nat → FLLRBNode κ β → Prop
  | red {n : Nat} {t : FLLRBNode κ β} (h : Balanced RED n t) : Rich RED n t
  | left {n : Nat} {k : κ} {v : β} {l r : FLLRBNode κ β} (hl : Balanced RED n l)
      (hr : Balanced BLACK n r) : Rich BLACK (n + 1) (valueNode k v BLACK l r)

/-- A black node that leans to the right, as `moveRedRight` leaves one. -/
inductive Rightward : FLLRBColor → Nat → FLLRBNode κ β → Prop
  | mk {n : Nat} {k : κ} {v : β} {l r : FLLRBNode κ β} (hl : Balanced BLACK n l)
      (hr : Balanced RED n r) : Rightward BLACK (n + 1) (valueNode k v BLACK l r)

/-- Balanced, but a red root may have turned black. -/
def Thinned (c : FLLRBColor) (n : Nat) (t : FLLRBNode κ β) : Prop :=
  ∃ c', (c' = RED → c = RED) ∧ Balanced c' n t

/-- What a removal makes of a tree. With a red link to spend, it keeps its height; else it is
balanced once its root is made black, as the dictionary does. -/
def Removed (c : FLLRBColor) (n : Nat) (t t' : FLLRBNode κ β) : Prop :=
  (Rich c n t ∨ Rightward c n t → Thinned c n t') ∧
    ∃ m, Balanced BLACK m (t'.copyWith none none (some BLACK) none none)

theorem Rich.balanced (h : Rich c n t) : Balanced c n t := by
  cases h with
  | red h => exact h
  | left hl hr => exact .black hl hr

theorem Rich.isEmpty (h : Rich c n t) : t.isEmpty = false := by
  cases h with
  | red h => exact isEmpty_of_isRed h.isRed_eq
  | left => rfl

theorem Balanced.rich_of_left_isRed (h : Balanced BLACK n t) (hl : t.left.isRed) :
    Rich BLACK n t := by
  cases h with
  | empty => cases hl
  | @black c n k v l r hl' hr =>
      cases c with
      | RED => exact .left hl' hr
      | BLACK => simp [hl'.isRed_eq] at hl

theorem Balanced.thinned (h : Balanced c n t) : Thinned c n t := ⟨c, id, h⟩

theorem thinned_of_black (h : Balanced BLACK n t) : Thinned c n t :=
  ⟨BLACK, fun h => absurd h BLACK_ne_RED, h⟩

theorem Thinned.black (h : Thinned BLACK n t) : Balanced BLACK n t := by
  obtain ⟨c', hc', h⟩ := h
  cases c' with
  | RED => exact absurd (hc' rfl) BLACK_ne_RED
  | BLACK => exact h

theorem Thinned.removed {t' : FLLRBNode κ β} (h : Thinned c n t') : Removed c n t t' :=
  ⟨fun _ => h, by
    obtain ⟨c', -, h'⟩ := h
    exact h'.blacken⟩

/-- The height of a node of this color above children of height `n`. -/
def above : FLLRBColor → Nat → Nat
  | RED, n => n
  | BLACK, n => n + 1

theorem Balanced.of_black (hl : Balanced BLACK n l) (hr : Balanced BLACK n r) (k : κ) (v : β)
    (c : FLLRBColor) : Balanced c (above c n) (valueNode k v c l r) := by
  cases c with
  | RED => exact .red hl hr
  | BLACK => exact .black hl hr

/-- Where both children come out black, nothing changes at the node. -/
theorem Balanced.of_black_fixUp (hl : Balanced BLACK n l) (hr : Balanced BLACK n r) (k : κ) (v : β)
    (c : FLLRBColor) : Balanced c (above c n) (valueNode k v c l r).fixUp := by
  rw [hl.fixUp_eq hr]
  exact hl.of_black hr k v c

/-- Between two black children a black node has nothing to spend. -/
theorem Balanced.eq_RED_of_ready (hl : Balanced BLACK n l) (hr : Balanced BLACK n r) {m : Nat}
    (h : Rich c m (valueNode k v c l r) ∨ Rightward c m (valueNode k v c l r)) : c = RED := by
  rcases h with h | h
  · cases h with
    | red => rfl
    | left hl' hr' => exact absurd (hl.isRed_eq.symm.trans hl'.isRed_eq) Bool.false_ne_true
  · cases h with
    | mk hl' hr' => exact absurd (hr.isRed_eq.symm.trans hr'.isRed_eq) Bool.false_ne_true

/-- The children were made red to have something to spend, and one of them may have spent it. -/
theorem Balanced.removed_flip (hl : Balanced cl n l) (hr : Balanced cr n r) (k : κ) (v : β)
    (h : Rich c (above c (n + 1)) t ∨ Rightward c (above c (n + 1)) t → c = RED) :
    Removed c (above c (n + 1)) t (valueNode k v c.flipped l r).fixUp := by
  cases c with
  | RED =>
      obtain ⟨c', -, h'⟩ := hl.exists_fixUp_black hr k v
      exact Thinned.removed ⟨c', fun _ => rfl, h'⟩
  | BLACK =>
      refine ⟨fun hready => absurd (h hready) BLACK_ne_RED, ?_⟩
      rcases exists_fixUp hl hr k v RED with ⟨k', v', cl', l', r', h, hl', hr'⟩ | ⟨-, -, l', r', h, hl', hr'⟩
      · rw [flipped_BLACK, h]
        exact ⟨_, .black hl' hr'⟩
      · rw [flipped_BLACK, h]
        exact ⟨_, .black hl' hr'⟩

/-- Making the left child of a node with two black children ready for a removal. -/
theorem exists_makeLeftRed_of_black (hl : Balanced BLACK n l) (hr : Balanced BLACK n r) (k : κ)
    (v : β) (c : FLLRBColor) (hne : l.isEmpty = false) :
    ∃ k' v' c' l' r' cl m, (valueNode k v c l r).makeLeftRed = valueNode k' v' c' l' r' ∧
      (k' = k ∨ l'.key = some k) ∧ Rich cl m l' ∧
      (∀ l'', Balanced cl m l'' → Balanced c (above c n) (valueNode k' v' c' l'' r').fixUp) ∧
      ∀ l'', Thinned cl m l'' →
        Removed c (above c n) (valueNode k v c l r) (valueNode k' v' c' l'' r').fixUp := by
  have hready := hl.eq_RED_of_ready hr (c := c) (k := k) (v := v) (m := above c n)
  rw [makeLeftRed]
  by_cases hred : l.left.isRed
  · exact ⟨k, v, c, l, r, BLACK, n, by simp [hred], Or.inl rfl, hl.rich_of_left_isRed hred,
      fun l'' h => h.of_black_fixUp hr k v c,
      fun l'' h => (h.black.of_black_fixUp hr k v c).thinned.removed⟩
  · rw [if_pos (by simp [hne, hred, hl.isRed_eq])]
    cases hl with
    | empty => cases hne
    | @black cl n kl vl a b ha hb =>
        cases cl with
        | RED => simp [ha.isRed_eq] at hred
        | BLACK =>
            cases hr with
            | @black cr _ kr vr a' b' ha' hb' =>
                cases cr with
                | RED =>
                    cases ha' with
                    | @red _ k' v' a'' b'' ha'' hb'' =>
                        have hr' := Balanced.black hb'' hb' (k := kr) (v := vr)
                        exact ⟨k', v', c, _, _, BLACK, n + 1, moveRedLeft_of_red, Or.inr rfl,
                          .left (.red ha hb) ha'', fun l'' h => h.of_black_fixUp hr' k' v' c,
                          fun l'' h => (h.black.of_black_fixUp hr' k' v' c).thinned.removed⟩
                | BLACK =>
                    have hr' := Balanced.red ha' hb' (k := kr) (v := vr)
                    refine ⟨k, v, c.flipped, _, _, RED, n, moveRedLeft_of_black ha'.isRed_eq,
                      Or.inl rfl, .red (.red ha hb), fun l'' h => ?_, ?_⟩
                    · cases h with
                      | red ha'' hb'' =>
                          rw [fixUp_of_both ha''.isRed_eq, flipped_flipped]
                          exact (Balanced.black ha'' hb'').of_black (.black ha' hb') k v c
                    · intro l'' hthin
                      obtain ⟨c', -, h⟩ := hthin
                      exact h.removed_flip hr' k v hready

/-- The same on the right. Where `moveRedRight` turned the node, the key at the root is another
one, and the node with the old key is below it and leans to the right. -/
theorem exists_makeRightRed_of_black (hl : Balanced BLACK n l) (hr : Balanced BLACK n r) (k : κ)
    (v : β) (c : FLLRBColor) (hne : r.isEmpty = false) :
    ∃ k' v' c' l' r' cr m, (valueNode k v c l r).makeRightRed = valueNode k' v' c' l' r' ∧
      (k' = k ∧ Rich cr m r' ∨ Rightward cr m r' ∧ r'.key = some k) ∧
      ∀ k'' v'' r'', Thinned cr m r'' →
        Removed c (above c n) (valueNode k v c l r) (valueNode k'' v'' c' l' r'').fixUp := by
  have hready := hl.eq_RED_of_ready hr (c := c) (k := k) (v := v) (m := above c n)
  have hmake : (valueNode k v c l r).makeRightRed =
      if !r.isEmpty && !r.isRed && !r.left.isRed then (valueNode k v c l r).moveRedRight
      else valueNode k v c l r := by simp [makeRightRed, hl.isRed_eq]
  rw [hmake]
  by_cases hred : r.left.isRed
  · exact ⟨k, v, c, l, r, BLACK, n, by simp [hred], Or.inl ⟨rfl, hr.rich_of_left_isRed hred⟩,
      fun k'' v'' r'' h => (hl.of_black_fixUp h.black k'' v'' c).thinned.removed⟩
  · rw [if_pos (by simp [hne, hred, hr.isRed_eq])]
    cases hr with
    | empty => cases hne
    | @black cr n kr vr a' b' ha' hb' =>
        cases cr with
        | RED => simp [ha'.isRed_eq] at hred
        | BLACK =>
            cases hl with
            | @black cl _ kl vl a b ha hb =>
                cases cl with
                | RED =>
                    cases ha with
                    | @red _ k' v' a'' b'' ha'' hb'' =>
                        have hl' := Balanced.black ha'' hb'' (k := k') (v := v')
                        exact ⟨kl, vl, c, _, _, BLACK, n + 1, moveRedRight_of_red,
                          Or.inr ⟨.mk hb (.red ha' hb'), rfl⟩,
                          fun k'' v'' r'' h =>
                            (hl'.of_black_fixUp h.black k'' v'' c).thinned.removed⟩
                | BLACK =>
                    refine ⟨k, v, c.flipped, _, _, RED, n, moveRedRight_of_black ha.isRed_eq,
                      Or.inl ⟨rfl, .red (.red ha' hb')⟩, ?_⟩
                    intro k'' v'' r'' hthin
                    obtain ⟨c', -, h⟩ := hthin
                    exact (Balanced.red ha hb).removed_flip h k'' v'' hready

/-- Any balanced tree, on the way to the left. -/
theorem Balanced.exists_makeLeftRed {c' : FLLRBColor} (h : Balanced c n (valueNode k v c' l r))
    (hne : l.isEmpty = false) :
    ∃ k' v' c'' l' r' cl m, (valueNode k v c' l r).makeLeftRed = valueNode k' v' c'' l' r' ∧
      (k' = k ∨ l'.key = some k) ∧ Rich cl m l' ∧
      (∀ l'', Balanced cl m l'' → Balanced c n (valueNode k' v' c'' l'' r').fixUp) ∧
      ∀ l'', Thinned cl m l'' →
        Removed c n (valueNode k v c' l r) (valueNode k' v' c'' l'' r').fixUp := by
  cases h with
  | red hl hr => exact exists_makeLeftRed_of_black hl hr k v RED hne
  | @black cl n _ _ _ _ hl hr =>
      cases cl with
      | BLACK => exact exists_makeLeftRed_of_black hl hr k v BLACK hne
      | RED =>
          refine ⟨k, v, BLACK, l, r, RED, n, by simp [makeLeftRed, hl.isRed_eq], Or.inl rfl,
            .red hl, ?_, ?_⟩
          · intro l'' h
            rw [h.fixUp_eq hr]
            exact .black h hr
          · intro l'' hthin
            obtain ⟨c', -, h⟩ := hthin
            rw [h.fixUp_eq hr]
            exact (Balanced.black h hr).thinned.removed

/-- Any tree a removal goes into, on the way to the right: there is nothing, or the right child
is made ready. -/
theorem exists_makeRightRed {c' : FLLRBColor}
    (h : Balanced c n (valueNode k v c' l r) ∨ Rightward c n (valueNode k v c' l r)) :
    (l = emptyNode ∧ r = emptyNode) ∨
    ∃ k' v' c'' l' r' cr m, (valueNode k v c' l r).makeRightRed = valueNode k' v' c'' l' r' ∧
      (k' = k ∧ Rich cr m r' ∨ (Rich cr m r' ∨ Rightward cr m r') ∧ r'.key = some k) ∧
      ∀ k'' v'' r'', Thinned cr m r'' →
        Removed c n (valueNode k v c' l r) (valueNode k'' v'' c'' l' r'').fixUp := by
  -- between two black children
  have hblack : ∀ {n c}, Balanced BLACK n l → Balanced BLACK n r → (l = emptyNode ∧ r = emptyNode) ∨
      ∃ k' v' c'' l' r' cr m, (valueNode k v c l r).makeRightRed = valueNode k' v' c'' l' r' ∧
        (k' = k ∧ Rich cr m r' ∨ (Rich cr m r' ∨ Rightward cr m r') ∧ r'.key = some k) ∧
        ∀ k'' v'' r'', Thinned cr m r'' →
          Removed c (above c n) (valueNode k v c l r) (valueNode k'' v'' c'' l' r'').fixUp := by
    intro n c hl hr
    cases hempty : r.isEmpty with
    | true =>
        cases hr with
        | black => cases hempty
        | empty =>
            cases hl
            exact Or.inl ⟨rfl, rfl⟩
    | false =>
        obtain ⟨k', v', c'', l', r', cr, m, hmake, hkey, hmend⟩ :=
          exists_makeRightRed_of_black hl hr k v c hempty
        exact Or.inr ⟨k', v', c'', l', r', cr, m, hmake, hkey.imp_right (And.imp_left Or.inr), hmend⟩
  rcases h with h | h
  · cases h with
    | red hl hr => exact hblack hl hr
    | @black cl n _ _ _ _ hl hr =>
        cases cl with
        | BLACK => exact hblack hl hr
        | RED =>
            -- the red child is turned to the right
            cases hl with
            | @red _ kl vl a b ha hb =>
                have hr' := Balanced.red hb hr (k := k) (v := v)
                refine Or.inr ⟨kl, vl, BLACK, a, _, RED, n, by simp [makeRightRed, rotateRight],
                  Or.inr ⟨Or.inl (.red hr'), rfl⟩, ?_⟩
                intro k'' v'' r'' hthin
                obtain ⟨c', -, h⟩ := hthin
                obtain ⟨c'', hc'', hfix⟩ := ha.exists_fixUp_black h k'' v''
                exact Thinned.removed ⟨c'', fun h => absurd (hc'' h).1 BLACK_ne_RED, hfix⟩
  · cases h with
    | mk hl hr =>
        refine Or.inr ⟨k, v, BLACK, l, r, RED, _, by simp [makeRightRed, hl.isRed_eq, hr.isRed_eq],
          Or.inl ⟨rfl, .red hr⟩, ?_⟩
        intro k'' v'' r'' hthin
        obtain ⟨c', -, h⟩ := hthin
        obtain ⟨c'', hc'', hfix⟩ := hl.exists_fixUp_black h k'' v''
        exact Thinned.removed ⟨c'', fun h => absurd (hc'' h).1 BLACK_ne_RED, hfix⟩

/-! ### Removing -/

theorem toList_ne_nil {t : FLLRBNode κ β} (h : t.isEmpty = false) : t.toList ≠ [] := by
  cases t with
  | emptyNode => cases h
  | valueNode => simp

/-- `min` is the first entry. -/
theorem exists_min {t : FLLRBNode κ β} (h : t.isEmpty = false) :
    ∃ k v, t.min.key = some k ∧ t.min.value = some v ∧ t.toList = (k, v) :: t.toList.tail := by
  induction t with
  | emptyNode => cases h
  | valueNode k v c l r ihl ihr =>
      rw [min]
      cases hl : l.isEmpty with
      | true =>
          cases l with
          | emptyNode => exact ⟨k, v, rfl, rfl, rfl⟩
          | valueNode => cases hl
      | false =>
          obtain ⟨k', v', hkey, hvalue, hlist⟩ := ihl hl
          refine ⟨k', v', hkey, hvalue, ?_⟩
          rw [toList_valueNode, hlist]
          rfl

section Equations

variable {comparator : κ → κ → Ordering} {aKey : κ} {c' : FLLRBColor} {k' : κ} {v' : β}
  {l' r' : FLLRBNode κ β}

theorem removeMin_eq (hne : l.isEmpty = false)
    (hmake : (valueNode k v c l r).makeLeftRed = valueNode k' v' c' l' r') :
    (valueNode k v c l r).removeMin = (valueNode k' v' c' l'.removeMin r').fixUp := by
  rw [removeMin, if_neg (Bool.eq_false_iff.mp hne), hmake]
  rfl

theorem remove_of_lt (hlt : comparator aKey k = .lt)
    (hmake : (valueNode k v c l r).makeLeftRed = valueNode k' v' c' l' r') :
    (valueNode k v c l r).remove comparator aKey =
      (valueNode k' v' c' (l'.remove comparator aKey) r').fixUp := by
  rw [remove, if_pos hlt, hmake]
  rfl

theorem remove_of_gt (hlt : comparator aKey k ≠ .lt)
    (hmake : (valueNode k v c l r).makeRightRed = valueNode k' v' c' l' r')
    (hgt : comparator aKey k' = .gt) :
    (valueNode k v c l r).remove comparator aKey =
      (valueNode k' v' c' l' (r'.remove comparator aKey)).fixUp := by
  rw [remove, if_neg hlt, hmake]
  simp [hgt]

theorem remove_of_eq_empty (hlt : comparator aKey k ≠ .lt)
    (hmake : (valueNode k v c l r).makeRightRed = valueNode k' v' c' l' r')
    (heq : comparator aKey k' = .eq) (hne : r'.isEmpty) :
    (valueNode k v c l r).remove comparator aKey = emptyNode := by
  rw [remove, if_neg hlt, hmake]
  simp [heq, hne]

theorem remove_of_eq (hlt : comparator aKey k ≠ .lt)
    (hmake : (valueNode k v c l r).makeRightRed = valueNode k' v' c' l' r')
    (heq : comparator aKey k' = .eq) {e : κ × β} {es : List (κ × β)} (hr : r'.toList = e :: es) :
    (valueNode k v c l r).remove comparator aKey =
      (valueNode e.1 e.2 c' l' (r'.removeMin.remove comparator aKey)).fixUp := by
  have hne : r'.isEmpty = false := by
    cases r' with
    | emptyNode => cases hr
    | valueNode => rfl
  obtain ⟨k'', v'', hkey, hvalue, hlist⟩ := exists_min hne
  obtain rfl : (k'', v'') = e := by
    rw [hr] at hlist
    exact (List.cons.inj hlist).1.symm
  rw [remove, if_neg hlt, hmake]
  simp [heq, hne, replaceByNext, hkey, hvalue]

end Equations

theorem count_of_makeLeftRed {k' : κ} {v' : β} {c' : FLLRBColor} {l' r' : FLLRBNode κ β}
    (hmake : t.makeLeftRed = valueNode k' v' c' l' r') : l'.count < t.count := by
  have hcount := count_makeLeftRed t
  rw [hmake, count] at hcount
  omega

theorem count_of_makeRightRed {k' : κ} {v' : β} {c' : FLLRBColor} {l' r' : FLLRBNode κ β}
    (hmake : t.makeRightRed = valueNode k' v' c' l' r') : r'.count < t.count := by
  have hcount := count_makeRightRed t
  rw [hmake, count] at hcount
  omega

theorem Rich.removeMin {t : FLLRBNode κ β} {c : FLLRBColor} {n : Nat} (h : Rich c n t) :
    Thinned c n t.removeMin ∧ t.removeMin.toList = t.toList.tail := by
  cases t with
  | emptyNode => cases h.isEmpty
  | valueNode k v c' l r =>
      cases hne : l.isEmpty with
      | true =>
          rw [FLLRBNode.removeMin, if_pos hne]
          cases l with
          | valueNode => cases hne
          | emptyNode =>
              cases h with
              | left hl => cases hl
              | red h =>
                  cases h with
                  | red hl hr =>
                      cases hl
                      cases hr
                      exact ⟨thinned_of_black .empty, rfl⟩
      | false =>
          obtain ⟨k', v', c'', l', r', cl, m, hmake, -, hl', -, hmend⟩ :=
            h.balanced.exists_makeLeftRed hne
          have hcount := count_of_makeLeftRed hmake
          obtain ⟨hthin, htail⟩ := hl'.removeMin
          rw [removeMin_eq hne hmake]
          refine ⟨(hmend _ hthin).1 (Or.inl h), ?_⟩
          rw [toList_fixUp, toList_valueNode, htail, ← toList_makeLeftRed (valueNode k v c' l r), hmake,
            toList_valueNode, List.tail_append_of_ne_nil (toList_ne_nil hl'.isEmpty)]
termination_by t.count

section Remove

variable {comparator : κ → κ → Ordering} {aKey : κ}

@[simp] theorem remove_emptyNode :
    (emptyNode : FLLRBNode κ β).remove comparator aKey = emptyNode := by rw [remove]

/-- Left of a node without a left child there is nothing to remove. -/
theorem Balanced.remove_of_lt_empty {c' : FLLRBColor} (h : Balanced c n (valueNode k v c' l r))
    (hlt : comparator aKey k = .lt) (hempty : l.isEmpty) :
    (valueNode k v c' l r).remove comparator aKey = valueNode k v c' l r := by
  cases l with
  | valueNode => cases hempty
  | emptyNode =>
      have hr : Balanced BLACK 0 r := by
        cases h with
        | red hl hr => cases hl; exact hr
        | black hl hr => cases hl; exact hr
      rw [remove_of_lt hlt (if_neg (by simp [isEmpty])), remove_emptyNode,
        Balanced.empty.fixUp_eq hr]

/-- A key below all others is looked for on the left, and the tree stays balanced as it is. -/
theorem Balanced.remove_below {t : FLLRBNode κ β} {c : FLLRBColor} {n : Nat} (h : Balanced c n t)
    (hkey : ∀ e ∈ t.toList, comparator aKey e.1 = .lt) :
    Balanced c n (t.remove comparator aKey) ∧ (t.remove comparator aKey).toList = t.toList := by
  cases t with
  | emptyNode => exact ⟨by rwa [remove_emptyNode], by rw [remove_emptyNode]⟩
  | valueNode k v c' l r =>
      have hlt : comparator aKey k = .lt := hkey (k, v) (by simp)
      cases hempty : l.isEmpty with
      | true =>
          rw [h.remove_of_lt_empty hlt hempty]
          exact ⟨h, rfl⟩
      | false =>
          obtain ⟨k', v', c'', l', r', cl, m, hmake, -, hl', hsame, -⟩ :=
            h.exists_makeLeftRed hempty
          have hlist : (valueNode k v c' l r).toList = l'.toList ++ (k', v') :: r'.toList := by
            rw [← toList_makeLeftRed, hmake, toList_valueNode]
          have hcount := count_of_makeLeftRed hmake
          obtain ⟨hbal, hl⟩ := hl'.balanced.remove_below fun e he =>
            hkey e (hlist ▸ List.mem_append_left _ he)
          rw [remove_of_lt hlt hmake]
          exact ⟨hsame _ hbal, by rw [toList_fixUp, toList_valueNode, hl, hlist]⟩
termination_by t.count

theorem exists_mem_of_key {t : FLLRBNode κ β} (h : t.key = some k) : ∃ v, (k, v) ∈ t.toList := by
  cases t with
  | emptyNode => cases h
  | valueNode k' v c l r =>
      cases h
      exact ⟨v, by simp⟩

/-- What there is to show of a removal. -/
def Removes (comparator : κ → κ → Ordering) (aKey : κ) (c : FLLRBColor) (n : Nat)
    (t : FLLRBNode κ β) : Prop :=
  Removed c n t (t.remove comparator aKey) ∧
    (t.remove comparator aKey).toList = erase comparator aKey t.toList

variable {c' : FLLRBColor}

theorem removes_of_empty {n : Nat} (h : Balanced c n (valueNode k v c' emptyNode emptyNode)) :
    Removes comparator aKey c n (valueNode k v c' emptyNode emptyNode) := by
  have hright : (valueNode k v c' emptyNode emptyNode : FLLRBNode κ β).makeRightRed =
      valueNode k v c' emptyNode emptyNode := by simp [makeRightRed, isEmpty]
  have hsame : (valueNode k v c' emptyNode emptyNode : FLLRBNode κ β).fixUp =
      valueNode k v c' emptyNode emptyNode := Balanced.empty.fixUp_eq .empty k v c'
  cases hcmp : comparator aKey k with
  | lt =>
      refine ⟨?_, ?_⟩ <;> rw [h.remove_of_lt_empty hcmp rfl]
      · exact h.thinned.removed
      · simp [erase_cons, hcmp]
  | eq =>
      rw [Removes, remove_of_eq_empty (by simp [hcmp]) hright hcmp rfl]
      refine ⟨⟨fun hready => ?_, 0, .empty⟩, by simp [erase_cons, hcmp]⟩
      cases h with
      | red hl hr =>
          cases hl
          exact thinned_of_black .empty
      | black => exact absurd (Balanced.empty.eq_RED_of_ready .empty hready) BLACK_ne_RED
  | gt =>
      rw [Removes, remove_of_gt (by simp [hcmp]) hright hcmp, remove_emptyNode, hsame]
      exact ⟨h.thinned.removed, by simp [erase_cons, hcmp]⟩

variable [Std.TransCmp comparator]

theorem removes_of_lt {n : Nat} (h : Balanced c n (valueNode k v c' l r))
    (hs : Sorted comparator (valueNode k v c' l r).toList) (hlt : comparator aKey k = .lt)
    (ih : ∀ {cl m} {l' : FLLRBNode κ β}, l'.count < (valueNode k v c' l r).count → Rich cl m l' →
      Sorted comparator l'.toList → Removes comparator aKey cl m l') :
    Removes comparator aKey c n (valueNode k v c' l r) := by
  cases hempty : l.isEmpty with
  | true =>
      rw [Removes, h.remove_of_lt_empty hlt hempty]
      cases l with
      | valueNode => cases hempty
      | emptyNode => exact ⟨h.thinned.removed, by simp [erase_cons, hlt]⟩
  | false =>
      obtain ⟨k', v', c'', l', r', cl, m, hmake, hkey, hl', -, hmend⟩ := h.exists_makeLeftRed hempty
      have hlist : (valueNode k v c' l r).toList = l'.toList ++ (k', v') :: r'.toList := by
        rw [← toList_makeLeftRed, hmake, toList_valueNode]
      rw [← toList_makeLeftRed, hmake] at hs
      obtain ⟨hsl, -, hlk, -⟩ := sorted_valueNode hs
      obtain ⟨hrem, hrest⟩ := ih (count_of_makeLeftRed hmake) hl' hsl
      have hlt' : comparator aKey k' = .lt := by
        rcases hkey with rfl | hkey
        · exact hlt
        · obtain ⟨v'', hmem⟩ := exists_mem_of_key hkey
          exact Std.TransCmp.lt_trans hlt (hlk _ hmem)
      rw [Removes, remove_of_lt hlt hmake]
      refine ⟨hmend _ (hrem.1 (Or.inl hl')), ?_⟩
      rw [toList_fixUp, toList_valueNode, hrest, hlist, erase_append_of_lt hlt']

theorem removes_of_ge {n : Nat}
    (h : Balanced c n (valueNode k v c' l r) ∨ Rightward c n (valueNode k v c' l r))
    (hs : Sorted comparator (valueNode k v c' l r).toList) (hge : comparator aKey k ≠ .lt)
    (ih : ∀ {cr m} {r' : FLLRBNode κ β}, r'.count < (valueNode k v c' l r).count →
      Rich cr m r' ∨ Rightward cr m r' ∧ r'.key = some k →
      Sorted comparator r'.toList → Removes comparator aKey cr m r') :
    Removes comparator aKey c n (valueNode k v c' l r) := by
  rcases exists_makeRightRed h with ⟨rfl, rfl⟩ | ⟨k', v', c'', l', r', cr, m, hmake, hkey, hmend⟩
  · rcases h with h | h
    · exact removes_of_empty h
    · cases h with
      | mk hl hr => cases hr
  · have hlist : (valueNode k v c' l r).toList = l'.toList ++ (k', v') :: r'.toList := by
      rw [← toList_makeRightRed, hmake, toList_valueNode]
    rw [← toList_makeRightRed, hmake] at hs
    obtain ⟨-, hsr, hlk, hkr⟩ := sorted_valueNode hs
    -- a key that came up from the left is below the one looked for
    have hgt : r'.key = some k → comparator aKey k' = .gt := fun hkey => by
      obtain ⟨v'', hmem⟩ := exists_mem_of_key hkey
      have hk'k := hkr _ hmem
      cases hcmp : comparator aKey k with
      | lt => exact absurd hcmp hge
      | eq => exact Std.OrientedCmp.gt_of_lt (Std.TransCmp.lt_of_lt_of_eq hk'k (Std.OrientedCmp.eq_symm hcmp))
      | gt => exact Std.TransCmp.gt_trans hcmp (Std.OrientedCmp.gt_of_lt hk'k)
    cases hcmp : comparator aKey k' with
    | lt =>
        rcases hkey with ⟨rfl, -⟩ | ⟨-, hkey⟩
        · exact absurd hcmp hge
        · rw [hgt hkey] at hcmp
          cases hcmp
    | eq =>
        rcases hkey with ⟨rfl, hrich⟩ | ⟨-, hkey⟩
        · obtain ⟨⟨c₁, hc₁, hbal⟩, htail⟩ := hrich.removeMin
          obtain ⟨k₁, v₁, -, -, hr'⟩ := exists_min hrich.isEmpty
          rw [hr'] at hkr
          have hbelow : ∀ e ∈ r'.removeMin.toList, comparator aKey e.1 = .lt := fun e he =>
            Std.TransCmp.lt_of_eq_of_lt hcmp (hkr e (List.mem_cons_of_mem _ (htail ▸ he)))
          obtain ⟨hbal', hrest⟩ := hbal.remove_below hbelow
          rw [Removes, remove_of_eq hge hmake hcmp hr']
          refine ⟨hmend _ _ _ ⟨c₁, hc₁, hbal'⟩, ?_⟩
          rw [toList_fixUp, toList_valueNode, hrest, htail, hlist, erase_append_of_eq hlk hcmp, ← hr']
        · rw [hgt hkey] at hcmp
          cases hcmp
    | gt =>
        have hready : Rich cr m r' ∨ Rightward cr m r' ∧ r'.key = some k := by
          rcases hkey with ⟨-, hrich⟩ | ⟨hrich | hright, hkey⟩
          · exact Or.inl hrich
          · exact Or.inl hrich
          · exact Or.inr ⟨hright, hkey⟩
        obtain ⟨hrem, hrest⟩ := ih (count_of_makeRightRed hmake) hready hsr
        rw [Removes, remove_of_gt hge hmake hcmp]
        refine ⟨hmend _ _ _ (hrem.1 (hready.imp_right And.left)), ?_⟩
        rw [toList_fixUp, toList_valueNode, hrest, hlist, erase_append_of_gt hlk hcmp]

/-- **Removal.** A tree with a red link to spend keeps its height, any other balanced tree is
balanced once its root is made black, and the entries are those under the other keys. -/
theorem removes {t : FLLRBNode κ β} {c : FLLRBColor} {n : Nat}
    (h : Balanced c n t ∨ Rightward c n t ∧ ∀ k ∈ t.key, comparator aKey k ≠ .lt)
    (hs : Sorted comparator t.toList) : Removes comparator aKey c n t := by
  cases t with
  | emptyNode =>
      rcases h with h | ⟨h, -⟩
      · rw [Removes, remove_emptyNode]
        exact ⟨h.thinned.removed, rfl⟩
      · cases h
  | valueNode k v c' l r =>
      by_cases hlt : comparator aKey k = .lt
      · rcases h with h | ⟨-, hkey⟩
        · exact removes_of_lt h hs hlt fun hcount hrich hsl => removes (Or.inl hrich.balanced) hsl
        · exact absurd hlt (hkey k rfl)
      · refine removes_of_ge (h.imp_right And.left) hs hlt fun hcount hready hsr => removes ?_ hsr
        rcases hready with hrich | ⟨hright, hkey⟩
        · exact Or.inl hrich.balanced
        · exact Or.inr ⟨hright, fun k'' hk'' => by cases hkey.symm.trans hk''; exact hlt⟩
termination_by t.count

end Remove

end FLLRBNode

end MyChat
