import Mathlib.Data.List.Nodup

/-!
# Interleave

**One stream fed by several clients.** `proj c l` is what client `c` put into the
stream `l`, in order; the stream is an interleaving of these projections. When every
client issues its entries in pairs, the end of the stream is either the last pair of
one client or the second halves of the last pairs of two (`last_two`).

A client may stop with entries still queued. What the stream has of it is then a
beginning of what it issued, and of any segment of that (`segment`).
-/

namespace Interleave

variable {κ β : Type*} [DecidableEq κ]

/-- The entries of client `c`. -/
def proj (c : κ) (l : List (κ × β)) : List β :=
  l.filterMap fun x => if x.1 = c then some x.2 else none

@[simp] theorem proj_nil (c : κ) : proj c ([] : List (κ × β)) = [] := rfl

@[simp] theorem proj_append (c : κ) (l₁ l₂ : List (κ × β)) :
    proj c (l₁ ++ l₂) = proj c l₁ ++ proj c l₂ :=
  List.filterMap_append

@[simp] theorem proj_singleton_self (c : κ) (x : β) : proj c [(c, x)] = [x] := by
  simp [proj]

theorem proj_singleton_of_ne {c c' : κ} (h : c' ≠ c) (x : β) : proj c [(c', x)] = [] := by
  simp [proj, h]

theorem mem_proj {c : κ} {l : List (κ × β)} {x : β} : x ∈ proj c l ↔ (c, x) ∈ l := by
  simp [proj]

/-- Selecting entries by their content commutes with projecting. -/
theorem proj_filter (c : κ) (q : β → Bool) (l : List (κ × β)) :
    proj c (l.filter fun x => q x.2) = (proj c l).filter q := by
  induction l with
  | nil => rfl
  | cons x l ih =>
      obtain ⟨c', y⟩ := x
      rw [← List.singleton_append, List.filter_append, proj_append, proj_append, List.filter_append,
        ih]
      congr 1
      by_cases hc : c' = c
      · subst hc
        rw [proj_singleton_self]
        cases hq : q y <;> simp [hq]
      · rw [proj_singleton_of_ne hc]
        cases hq : q y <;> simp [hq, proj_singleton_of_ne hc]

/-- The entries of pairs, both halves one after the other. -/
def halves (ps : List (β × β)) : List β := ps.flatMap fun p => [p.1, p.2]

@[simp] theorem halves_nil : halves ([] : List (β × β)) = [] := rfl

@[simp] theorem halves_append (ps qs : List (β × β)) : halves (ps ++ qs) = halves ps ++ halves qs :=
  List.flatMap_append

@[simp] theorem halves_singleton (p : β × β) : halves [p] = [p.1, p.2] := rfl

/-- What is issued in pairs ends with a pair. -/
theorem eq_of_halves_append {ps : List (β × β)} {l : List β} {y : β} (h : halves ps = l ++ [y]) :
    ∃ l' p, p ∈ ps ∧ l = l' ++ [p.1] ∧ y = p.2 := by
  rcases List.eq_nil_or_concat ps with rfl | ⟨qs, p, rfl⟩
  · simp at h
  · rw [List.concat_eq_append, halves_append, halves_singleton] at h
    have hsplit : (halves qs ++ [p.1]) ++ [p.2] = l ++ [y] := by
      rw [← h]
      simp
    obtain ⟨hl, hy⟩ := List.append_inj' hsplit rfl
    exact ⟨halves qs, p, by simp, hl.symm, (List.singleton_inj.mp hy).symm⟩

/-- **The end of a stream of pairs.** Every client issues its entries in pairs, each of
which satisfies `P` of the client. Then the stream ends with a pair of one client, or
with the second halves of pairs of two clients. -/
theorem last_two {P : κ → β × β → Prop} {l : List (κ × β)} (hne : l ≠ [])
    (h : ∀ c, ∃ ps, proj c l = halves ps ∧ ∀ p ∈ ps, P c p) :
    (∃ l' c p, P c p ∧ l = l' ++ [(c, p.1), (c, p.2)]) ∨
      ∃ l' c p c' p', c ≠ c' ∧ P c p ∧ P c' p' ∧ l = l' ++ [(c, p.2), (c', p'.2)] := by
  obtain ⟨l₁, ⟨c', y⟩, rfl⟩ := (List.eq_nil_or_concat l).resolve_left hne
  rw [List.concat_eq_append] at h ⊢
  obtain ⟨ps', hproj', hps'⟩ := h c'
  rw [proj_append, proj_singleton_self] at hproj'
  obtain ⟨l₂, p', hp', hl₂, rfl⟩ := eq_of_halves_append hproj'.symm
  -- the last pair has a first half, so there is an entry before the last one
  have hne₁ : l₁ ≠ [] := by
    rintro rfl
    simp at hl₂
  obtain ⟨l', ⟨c, x⟩, rfl⟩ := (List.eq_nil_or_concat l₁).resolve_left hne₁
  rw [List.concat_eq_append] at h hl₂ ⊢
  by_cases hc : c = c'
  · subst hc
    left
    rw [proj_append, proj_singleton_self] at hl₂
    obtain ⟨-, hx⟩ := List.append_inj' hl₂ rfl
    obtain rfl := List.singleton_inj.mp hx
    exact ⟨l', c, p', hps' p' hp', by simp⟩
  · right
    obtain ⟨ps, hproj, hps⟩ := h c
    rw [proj_append, proj_append, proj_singleton_self, proj_singleton_of_ne (Ne.symm hc),
      List.append_nil] at hproj
    obtain ⟨-, p, hp, -, rfl⟩ := eq_of_halves_append hproj.symm
    exact ⟨l', c, p, c', p', hc, hps p hp, hps' p' hp', by simp⟩

/-- What a beginning `p` has of the segment `x`: its first entries. Everything in `p` is
from there, from before or from after. -/
theorem segment {p rest q x later : List β} (h : p ++ rest = q ++ x ++ later) :
    ∃ k ≤ x.length, (p.drop q.length).take x.length = x.take k ∧
      ∀ y ∈ p, y ∈ q ∨ y ∈ x.take k ∨ y ∈ later := by
  have hp : p = (q ++ x ++ later).take p.length := by rw [← h, List.take_left]
  refine ⟨min x.length (p.length - q.length), Nat.min_le_left _ _, ?_, fun y hy => ?_⟩
  · have hdrop : p.drop q.length = (x ++ later).take (p.length - q.length) := by
      conv_lhs => rw [hp]
      rw [List.drop_take, List.append_assoc, List.drop_left]
    rw [hdrop, List.take_take, List.take_append_of_le_length (Nat.min_le_left _ _)]
  · rw [hp, List.take_append, List.take_append] at hy
    rcases List.mem_append.mp hy with hy | hy
    · rcases List.mem_append.mp hy with hy | hy
      · exact Or.inl (List.mem_of_mem_take hy)
      · rw [List.take_eq_take_min, Nat.min_comm] at hy
        exact Or.inr (Or.inl hy)
    · exact Or.inr (Or.inr (List.mem_of_mem_take hy))

/-- The first `k` entries of a list without duplicates contain entry `i` iff `i < k`. -/
theorem mem_take_iff {l : List β} (hl : l.Nodup) {i k : ℕ} {y : β} (hy : l[i]? = some y) :
    y ∈ l.take k ↔ i < k := by
  obtain ⟨hi, rfl⟩ := List.getElem?_eq_some_iff.mp hy
  rw [List.mem_take_iff_getElem]
  constructor
  · intro hcase
    obtain ⟨j, hj, hij⟩ := hcase
    obtain rfl := (List.Nodup.getElem_inj_iff hl).mp hij
    exact (Nat.lt_min.mp hj).1
  · intro hk
    exact ⟨i, Nat.lt_min.mpr ⟨hk, hi⟩, rfl⟩

end Interleave
