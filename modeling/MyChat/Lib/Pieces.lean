import Mathlib.Data.List.Basic

/-!
# Pieces

**A list cut at a separator, without the empty pieces**, as paths are read: leading,
trailing and doubled separators leave no trace in `pieces a xs`.

What `pieces` forgets is told by a marker, an element that occurs once in each list: the
lists `xs ++ m :: ys` have equal pieces exactly when the parts up to the marker and the
parts from the marker on have (`pieces_marker_iff`).
-/

namespace Pieces

variable {α : Type*} [DecidableEq α] {a m : α} {xs ys xs' ys' : List α}

/-- The non-empty pieces between occurrences of `a`. -/
def pieces (a : α) (xs : List α) : List (List α) := (xs.splitOn a).filter (· ≠ [])

/-! ### The split of an append -/

/-- Splitting `xs ++ ys` joins the last piece of `xs` to the first one of `ys`. -/
theorem exists_splitOn_append (a : α) (xs : List α) :
    ∃ A x, xs.splitOn a = A ++ [x] ∧
      ∀ ys y B, List.splitOn a ys = y :: B → (xs ++ ys).splitOn a = A ++ (x ++ y) :: B := by
  induction xs with
  | nil => exact ⟨[], [], by simp, fun ys y B h => by simpa using h⟩
  | cons c xs ih =>
      obtain ⟨A, x, hxs, happend⟩ := ih
      by_cases hc : c = a
      · refine ⟨[] :: A, x, ?_, fun ys y B h => ?_⟩
        · simp [List.splitOn_cons_eq_if_modifyHead, hc, hxs]
        · simp [List.splitOn_cons_eq_if_modifyHead, hc, happend ys y B h]
      -- `c` goes in front of the first piece, which is `x` itself when `A` is empty
      · cases A with
        | nil =>
            refine ⟨[], c :: x, ?_, fun ys y B h => ?_⟩
            · simp [List.splitOn_cons_eq_if_modifyHead, hc, hxs]
            · simp [List.splitOn_cons_eq_if_modifyHead, hc, happend ys y B h]
        | cons l A =>
            refine ⟨(c :: l) :: A, x, ?_, fun ys y B h => ?_⟩
            · simp [List.splitOn_cons_eq_if_modifyHead, hc, hxs]
            · simp [List.splitOn_cons_eq_if_modifyHead, hc, happend ys y B h]

/-- A piece is made of elements of the list that are not the separator. -/
theorem mem_and_ne_of_mem_splitOn {l : List α} {b : α} (hl : l ∈ xs.splitOn a) (hb : b ∈ l) :
    b ∈ xs ∧ b ≠ a := by
  induction xs generalizing l with
  | nil =>
      obtain rfl : l = [] := by simpa using hl
      simp at hb
  | cons c xs ih =>
      -- a piece of the tail, or its first piece with `c` in front
      have htail : ∀ l ∈ xs.splitOn a, b ∈ l → b ∈ c :: xs ∧ b ≠ a := fun l hl hb =>
        ⟨List.mem_cons_of_mem c (ih hl hb).1, (ih hl hb).2⟩
      rw [List.splitOn_cons_eq_if_modifyHead] at hl
      split at hl
      · rcases List.mem_cons.mp hl with rfl | hl
        · simp at hb
        · exact htail l hl hb
      · next hc =>
        cases hsplit : xs.splitOn a with
        | nil => simp [hsplit] at hl
        | cons l' ls =>
            rw [hsplit] at hl htail
            rcases List.mem_cons.mp hl with rfl | hl
            · rcases List.mem_cons.mp hb with rfl | hb
              · exact ⟨List.mem_cons_self, by simpa using hc⟩
              · exact htail l' List.mem_cons_self hb
            · exact htail l (List.mem_cons_of_mem l' hl) hb

/-! ### Around a marker -/

/-- The pieces around a marker that is not the separator: those before, the one with the
marker in it, those after. -/
theorem exists_pieces_marker (hm : m ≠ a) (hxs : m ∉ xs) (hys : m ∉ ys) :
    ∃ A x y B, pieces a xs = A ++ (if x = [] then [] else [x]) ∧
      pieces a (xs ++ [m]) = A ++ [x ++ [m]] ∧ pieces a (m :: ys) = (m :: y) :: B ∧
      pieces a (xs ++ m :: ys) = A ++ (x ++ m :: y) :: B ∧
      (∀ l ∈ A, m ∉ l) ∧ m ∉ x ∧ m ∉ y ∧ ∀ l ∈ B, m ∉ l := by
  obtain ⟨A, x, hA, happend⟩ := exists_splitOn_append a xs
  obtain ⟨y, B, hB⟩ := List.exists_cons_of_ne_nil (List.splitOn_ne_nil a ys)
  have hmarker : List.splitOn a (m :: ys) = (m :: y) :: B := by
    simp [List.splitOn_cons_eq_if_modifyHead, hm, hB]
  have hsingle : List.splitOn a [m] = [[m]] := by
    simp [List.splitOn_cons_eq_if_modifyHead, hm]
  have hfree : ∀ l ∈ A ++ [x], m ∉ l := fun l hl hmem =>
    hxs (mem_and_ne_of_mem_splitOn (hA ▸ hl) hmem).1
  have hfree' : ∀ l ∈ y :: B, m ∉ l := fun l hl hmem =>
    hys (mem_and_ne_of_mem_splitOn (hB ▸ hl) hmem).1
  refine ⟨A.filter (· ≠ []), x, y, B.filter (· ≠ []), ?_, ?_, ?_, ?_, ?_, ?_, ?_, ?_⟩
  · rw [pieces, hA, List.filter_append]
    split <;> simp [*]
  · rw [pieces, happend _ _ _ hsingle]
    simp
  · rw [pieces, hmarker]
    simp
  · rw [pieces, happend _ _ _ hmarker]
    simp
  · exact fun l hl => hfree l (List.mem_append_left _ (List.mem_of_mem_filter hl))
  · exact hfree x (by simp)
  · exact hfree' y List.mem_cons_self
  · exact fun l hl => hfree' l (List.mem_cons_of_mem y (List.mem_of_mem_filter hl))

/-- **Equal pieces.** The part up to the marker and the part from the marker on have equal
pieces each. -/
theorem pieces_marker_iff (hm : m ≠ a) (hxs : m ∉ xs) (hys : m ∉ ys) (hxs' : m ∉ xs')
    (hys' : m ∉ ys') :
    pieces a (xs ++ m :: ys) = pieces a (xs' ++ m :: ys') ↔
      pieces a (xs ++ [m]) = pieces a (xs' ++ [m]) ∧ pieces a (m :: ys) = pieces a (m :: ys') := by
  obtain ⟨A, x, y, B, -, hup, hfrom, hall, hA, hx, hy, hB⟩ := exists_pieces_marker hm hxs hys
  obtain ⟨A', x', y', B', -, hup', hfrom', hall', hA', hx', hy', hB'⟩ :=
    exists_pieces_marker hm hxs' hys'
  rw [hup, hup', hfrom, hfrom', hall, hall']
  constructor
  · intro h
    -- only the middle piece has the marker, and only once
    obtain ⟨rfl, hmid, rfl⟩ := (List.append_cons_inj_of_notMem
      (fun hmem => hA _ hmem (by simp)) (fun hmem => hB _ hmem (by simp))).mp h
    obtain ⟨rfl, -, rfl⟩ := (List.append_cons_inj_of_notMem hx hy).mp hmid
    exact ⟨rfl, rfl⟩
  · intro h
    obtain ⟨hleft, hright⟩ := h
    obtain ⟨rfl, hmid⟩ := List.append_inj' hleft rfl
    obtain rfl : x = x' := by simpa using hmid
    obtain ⟨hmid, rfl⟩ := List.cons.inj hright
    rw [List.cons.inj hmid |>.2]

/-- Repeating the part before the marker in front tells nothing more. -/
theorem pieces_marker_of_repeat (hm : m ≠ a) (hxs : m ∉ xs) (hys : m ∉ ys) (hxs' : m ∉ xs')
    (hys' : m ∉ ys')
    (h : pieces a xs ++ pieces a (xs ++ m :: ys) = pieces a xs' ++ pieces a (xs' ++ m :: ys')) :
    pieces a (xs ++ m :: ys) = pieces a (xs' ++ m :: ys') := by
  obtain ⟨A, x, y, B, hxs, -, -, hall, hA, hx, hy, hB⟩ := exists_pieces_marker hm hxs hys
  obtain ⟨A', x', y', B', hxs', -, -, hall', hA', hx', hy', hB'⟩ :=
    exists_pieces_marker hm hxs' hys'
  rw [hxs, hxs', hall, hall'] at h
  rw [hall, hall']
  rw [← List.append_assoc, ← List.append_assoc] at h
  have hfree : ∀ l ∈ A ++ (if x = [] then [] else [x]) ++ A, m ∉ l := by
    intro l hl
    rcases List.mem_append.mp hl with hl | hl
    · rcases List.mem_append.mp hl with hl | hl
      · exact hA l hl
      · split at hl
        · simp at hl
        · rw [List.mem_singleton.mp hl]
          exact hx
    · exact hA l hl
  obtain ⟨hleft, hmid, rfl⟩ := (List.append_cons_inj_of_notMem
    (fun hmem => hfree _ hmem (by simp)) (fun hmem => hB _ hmem (by simp))).mp h
  obtain ⟨rfl, -, rfl⟩ := (List.append_cons_inj_of_notMem hx hy).mp hmid
  -- both sides are a list, one and the same middle, and the list again
  have hlength : A.length = A'.length := by
    have := congrArg List.length hleft
    simp only [List.length_append] at this
    omega
  rw [(List.append_inj' hleft hlength).2]

end Pieces
