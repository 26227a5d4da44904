import Mathlib.Data.List.Pairwise
import Mathlib.Data.List.Basic
import Mathlib.Data.List.Sort

/-!
# SortedList

**Finite maps as association lists sorted by a comparator.** `get`, `insert` and
`erase` walk the list until the comparator says that the key is reached or passed.
The comparator is an argument: all facts rest on `Std.TransCmp cmp` and, where two
keys that compare equal have to be the same key, on `Separates`.

A sorted list is determined by its entries (`Sorted.ext`), so two implementations
that produce sorted lists with the same lookups produce the same list.
`insert_append_of_lt` and its companions say how the operations act on a list cut
at one entry, which is what a search tree does at one node.
-/

namespace SortedList

open Std

variable {κ β : Type*} {cmp : κ → κ → Ordering}

/-- Keys go up. -/
def Sorted (cmp : κ → κ → Ordering) (es : List (κ × β)) : Prop :=
  es.Pairwise fun e f => cmp e.1 f.1 = .lt

instance (es : List (κ × β)) : Decidable (Sorted cmp es) :=
  inferInstanceAs (Decidable (es.Pairwise fun e f => cmp e.1 f.1 = .lt))

/-- The value under a key. -/
def get (cmp : κ → κ → Ordering) (key : κ) : List (κ × β) → Option β
  | [] => none
  | (k, v) :: es =>
      match cmp key k with
      | .lt => none
      | .eq => some v
      | .gt => get cmp key es

/-- Put a value under a key, in its place. -/
def insert (cmp : κ → κ → Ordering) (key : κ) (value : β) : List (κ × β) → List (κ × β)
  | [] => [(key, value)]
  | (k, v) :: es =>
      match cmp key k with
      | .lt => (key, value) :: (k, v) :: es
      | .eq => (key, value) :: es
      | .gt => (k, v) :: insert cmp key value es

/-- Drop the entry under a key. -/
def erase (cmp : κ → κ → Ordering) (key : κ) : List (κ × β) → List (κ × β)
  | [] => []
  | (k, v) :: es =>
      match cmp key k with
      | .lt => (k, v) :: es
      | .eq => es
      | .gt => (k, v) :: erase cmp key es

@[simp] theorem sorted_nil : Sorted cmp ([] : List (κ × β)) := List.Pairwise.nil

@[simp] theorem sorted_singleton (e : κ × β) : Sorted cmp [e] := List.pairwise_singleton _ _

theorem sorted_cons {e : κ × β} {es : List (κ × β)} :
    Sorted cmp (e :: es) ↔ (∀ f ∈ es, cmp e.1 f.1 = .lt) ∧ Sorted cmp es := List.pairwise_cons

theorem sorted_append {es fs : List (κ × β)} :
    Sorted cmp (es ++ fs) ↔
      Sorted cmp es ∧ Sorted cmp fs ∧ ∀ e ∈ es, ∀ f ∈ fs, cmp e.1 f.1 = .lt := List.pairwise_append

@[simp] theorem get_nil (key : κ) : get cmp key ([] : List (κ × β)) = none := rfl

@[simp] theorem insert_nil (key : κ) (value : β) : insert cmp key value [] = [(key, value)] := rfl

@[simp] theorem erase_nil (key : κ) : erase cmp key ([] : List (κ × β)) = [] := rfl

theorem get_cons (key : κ) (e : κ × β) (es : List (κ × β)) :
    get cmp key (e :: es) =
      match cmp key e.1 with
      | .lt => none
      | .eq => some e.2
      | .gt => get cmp key es := rfl

theorem insert_cons (key : κ) (value : β) (e : κ × β) (es : List (κ × β)) :
    insert cmp key value (e :: es) =
      match cmp key e.1 with
      | .lt => (key, value) :: e :: es
      | .eq => (key, value) :: es
      | .gt => e :: insert cmp key value es := rfl

theorem erase_cons (key : κ) (e : κ × β) (es : List (κ × β)) :
    erase cmp key (e :: es) =
      match cmp key e.1 with
      | .lt => e :: es
      | .eq => es
      | .gt => e :: erase cmp key es := rfl

theorem insert_ne_nil (key : κ) (value : β) (es : List (κ × β)) : insert cmp key value es ≠ [] := by
  cases es with
  | nil => simp
  | cons e es =>
      rw [insert_cons]
      split <;> simp

/-- A key that is not there yet is put among the others. -/
theorem perm_insert {key : κ} {es : List (κ × β)} (h : ∀ e ∈ es, cmp key e.1 ≠ .eq) (value : β) :
    (insert cmp key value es).Perm ((key, value) :: es) := by
  induction es with
  | nil => exact List.Perm.refl _
  | cons e es ih =>
      obtain ⟨he, hes⟩ := List.forall_mem_cons.mp h
      rw [insert_cons]
      split
      · exact List.Perm.refl _
      · next heq => exact absurd heq he
      · exact ((ih hes).cons e).trans (List.Perm.swap _ _ _)

theorem sublist_erase (key : κ) (es : List (κ × β)) : (erase cmp key es).Sublist es := by
  induction es with
  | nil => exact List.Sublist.refl _
  | cons f es ih =>
      rw [erase_cons]
      split
      · exact List.Sublist.refl _
      · exact List.sublist_cons_self _ _
      · exact ih.cons_cons _

section Trans

variable [TransCmp cmp]

theorem lt_irrefl {a : κ} : cmp a a ≠ .lt := fun h => by
  have hgt := OrientedCmp.gt_of_lt h
  rw [h] at hgt
  cases hgt

/-- A sorted list has every key once. -/
theorem Sorted.ne {es : List (κ × β)} (hs : Sorted cmp es) : es.Pairwise fun e f => e.1 ≠ f.1 :=
  hs.imp fun {e f} h heq => by
    rw [heq] at h
    exact lt_irrefl h

/-! ### Entries -/

theorem mem_insert {key : κ} {value : β} {es : List (κ × β)} (hs : Sorted cmp es) {e : κ × β} :
    e ∈ insert cmp key value es ↔ e = (key, value) ∨ (e ∈ es ∧ cmp key e.1 ≠ .eq) := by
  induction es with
  | nil => simp
  | cons f es ih =>
      obtain ⟨hf, hs'⟩ := sorted_cons.mp hs
      obtain ⟨k, v⟩ := f
      rw [insert_cons]
      split
      · next hlt =>
        -- every key from here on lies above the new one
        have hne : ∀ e ∈ (k, v) :: es, cmp key e.1 ≠ .eq := by
          intro e he heq
          rcases List.mem_cons.mp he with rfl | he
          · simp [hlt] at heq
          · simp [TransCmp.lt_trans hlt (hf e he)] at heq
        rw [List.mem_cons]
        exact or_congr_right ⟨fun he => ⟨he, hne e he⟩, And.left⟩
      · next heq =>
        have hne : ∀ e ∈ es, cmp key e.1 ≠ .eq := fun e he h => by
          simp [TransCmp.lt_of_eq_of_lt heq (hf e he)] at h
        rw [List.mem_cons]
        refine or_congr_right ⟨fun he => ⟨List.mem_cons_of_mem _ he, hne e he⟩, fun ⟨he, h⟩ => ?_⟩
        rcases List.mem_cons.mp he with rfl | he
        · exact absurd heq h
        · exact he
      · next hgt =>
        rw [List.mem_cons, ih hs', List.mem_cons]
        constructor
        · intro hcase
          rcases hcase with rfl | he | ⟨he, hne⟩
          · exact Or.inr ⟨Or.inl rfl, by simp [hgt]⟩
          · exact Or.inl he
          · exact Or.inr ⟨Or.inr he, hne⟩
        · intro hcase
          rcases hcase with he | ⟨rfl | he, hne⟩
          · exact Or.inr (Or.inl he)
          · exact Or.inl rfl
          · exact Or.inr (Or.inr ⟨he, hne⟩)

theorem mem_erase {key : κ} {es : List (κ × β)} (hs : Sorted cmp es) {e : κ × β} :
    e ∈ erase cmp key es ↔ e ∈ es ∧ cmp key e.1 ≠ .eq := by
  induction es with
  | nil => simp
  | cons f es ih =>
      obtain ⟨hf, hs'⟩ := sorted_cons.mp hs
      obtain ⟨k, v⟩ := f
      rw [erase_cons]
      split
      · next hlt =>
        refine ⟨fun he => ⟨he, fun heq => ?_⟩, And.left⟩
        rcases List.mem_cons.mp he with rfl | he
        · simp [hlt] at heq
        · simp [TransCmp.lt_trans hlt (hf e he)] at heq
      · next heq =>
        refine ⟨fun he => ⟨List.mem_cons_of_mem _ he, fun h => ?_⟩, fun ⟨he, h⟩ => ?_⟩
        · simp [TransCmp.lt_of_eq_of_lt heq (hf e he)] at h
        · rcases List.mem_cons.mp he with rfl | he
          · exact absurd heq h
          · exact he
      · next hgt =>
        rw [List.mem_cons, ih hs', List.mem_cons]
        constructor
        · intro hcase
          rcases hcase with rfl | ⟨he, hne⟩
          · exact ⟨Or.inl rfl, by simp [hgt]⟩
          · exact ⟨Or.inr he, hne⟩
        · rintro ⟨rfl | he, hne⟩
          · exact Or.inl rfl
          · exact Or.inr ⟨he, hne⟩

theorem sorted_insert {key : κ} {value : β} {es : List (κ × β)} (hs : Sorted cmp es) :
    Sorted cmp (insert cmp key value es) := by
  induction es with
  | nil => simp
  | cons f es ih =>
      obtain ⟨hf, hs'⟩ := sorted_cons.mp hs
      obtain ⟨k, v⟩ := f
      rw [insert_cons]
      split
      · next hlt =>
        refine sorted_cons.mpr ⟨fun e he => ?_, hs⟩
        rcases List.mem_cons.mp he with rfl | he
        · exact hlt
        · exact TransCmp.lt_trans hlt (hf e he)
      · next heq => exact sorted_cons.mpr ⟨fun e he => TransCmp.lt_of_eq_of_lt heq (hf e he), hs'⟩
      · next hgt =>
        refine sorted_cons.mpr ⟨fun e he => ?_, ih hs'⟩
        rcases (mem_insert hs').mp he with rfl | ⟨he, -⟩
        · exact OrientedCmp.lt_of_gt hgt
        · exact hf e he

omit [TransCmp cmp] in
theorem sorted_erase {key : κ} {es : List (κ × β)} (hs : Sorted cmp es) :
    Sorted cmp (erase cmp key es) := List.Pairwise.sublist (sublist_erase key es) hs

/-- **Canonicity.** A sorted list is determined by its entries. -/
theorem Sorted.ext {es fs : List (κ × β)} (he : Sorted cmp es) (hf : Sorted cmp fs)
    (h : ∀ e, e ∈ es ↔ e ∈ fs) : es = fs := by
  have : Std.Antisymm fun e f : κ × β => cmp e.1 f.1 = .lt :=
    ⟨fun _ _ h h' => absurd (TransCmp.lt_trans h h') lt_irrefl⟩
  have : Std.Irrefl fun e f : κ × β => cmp e.1 f.1 = .lt := ⟨fun _ => lt_irrefl⟩
  exact List.Pairwise.eq_of_mem_iff he hf h

/-- What `erase` leaves are the entries under other keys. -/
theorem erase_eq_filter {key : κ} {es : List (κ × β)} (hs : Sorted cmp es) :
    erase cmp key es = es.filter fun e => cmp key e.1 ≠ .eq :=
  (sorted_erase hs).ext (hs.filter _) fun e => by simp [mem_erase hs]

/-- And `insert` leaves them alone. -/
theorem filter_insert {key k : κ} {value : β} {es : List (κ × β)} (hs : Sorted cmp es)
    (hk : cmp key k = .eq) :
    ((insert cmp k value es).filter fun e => cmp key e.1 ≠ .eq) =
      es.filter fun e => cmp key e.1 ≠ .eq := by
  refine Sorted.ext ((sorted_insert hs).filter _) (hs.filter _) fun e => ?_
  have hcongr : cmp k e.1 = .eq ↔ cmp key e.1 = .eq := by rw [TransCmp.congr_left hk]
  simp only [List.mem_filter, mem_insert hs, decide_eq_true_eq, Ne, hcongr]
  constructor
  · rintro ⟨rfl | ⟨he, -⟩, hne⟩
    · exact absurd hk hne
    · exact ⟨he, hne⟩
  · exact fun ⟨he, hne⟩ => ⟨Or.inr ⟨he, hne⟩, hne⟩

/-! ### A list cut at one entry -/

omit [TransCmp cmp] in
theorem insert_append_of_lt {key k : κ} {value v : β} {es fs : List (κ × β)}
    (h : cmp key k = .lt) :
    insert cmp key value (es ++ (k, v) :: fs) = insert cmp key value es ++ (k, v) :: fs := by
  induction es with
  | nil => simp [insert_cons, h]
  | cons e es ih =>
      rw [List.cons_append, insert_cons, insert_cons]
      split
      · rfl
      · rfl
      · rw [ih, List.cons_append]

theorem insert_append_of_eq {key k : κ} {value v : β} {es fs : List (κ × β)}
    (he : ∀ e ∈ es, cmp e.1 k = .lt) (h : cmp key k = .eq) :
    insert cmp key value (es ++ (k, v) :: fs) = es ++ (key, value) :: fs := by
  induction es with
  | nil => simp [insert_cons, h]
  | cons e es ih =>
      obtain ⟨he, hes⟩ := List.forall_mem_cons.mp he
      have hgt : cmp key e.1 = .gt := OrientedCmp.gt_of_lt (TransCmp.lt_of_lt_of_eq he (OrientedCmp.eq_symm h))
      rw [List.cons_append, insert_cons, hgt]
      simp only [ih hes, List.cons_append]

theorem insert_append_of_gt {key k : κ} {value v : β} {es fs : List (κ × β)}
    (he : ∀ e ∈ es, cmp e.1 k = .lt) (h : cmp key k = .gt) :
    insert cmp key value (es ++ (k, v) :: fs) = es ++ (k, v) :: insert cmp key value fs := by
  induction es with
  | nil => simp [insert_cons, h]
  | cons e es ih =>
      obtain ⟨he, hes⟩ := List.forall_mem_cons.mp he
      have hgt : cmp key e.1 = .gt := TransCmp.gt_trans h (OrientedCmp.gt_of_lt he)
      rw [List.cons_append, insert_cons, hgt]
      simp only [ih hes, List.cons_append]

omit [TransCmp cmp] in
theorem erase_append_of_lt {key k : κ} {v : β} {es fs : List (κ × β)} (h : cmp key k = .lt) :
    erase cmp key (es ++ (k, v) :: fs) = erase cmp key es ++ (k, v) :: fs := by
  induction es with
  | nil => simp [erase_cons, h]
  | cons e es ih =>
      rw [List.cons_append, erase_cons, erase_cons]
      split
      · rfl
      · rfl
      · rw [ih, List.cons_append]

theorem erase_append_of_eq {key k : κ} {v : β} {es fs : List (κ × β)}
    (he : ∀ e ∈ es, cmp e.1 k = .lt) (h : cmp key k = .eq) :
    erase cmp key (es ++ (k, v) :: fs) = es ++ fs := by
  induction es with
  | nil => simp [erase_cons, h]
  | cons e es ih =>
      obtain ⟨he, hes⟩ := List.forall_mem_cons.mp he
      have hgt : cmp key e.1 = .gt := OrientedCmp.gt_of_lt (TransCmp.lt_of_lt_of_eq he (OrientedCmp.eq_symm h))
      rw [List.cons_append, erase_cons, hgt]
      simp only [ih hes, List.cons_append]

theorem erase_append_of_gt {key k : κ} {v : β} {es fs : List (κ × β)}
    (he : ∀ e ∈ es, cmp e.1 k = .lt) (h : cmp key k = .gt) :
    erase cmp key (es ++ (k, v) :: fs) = es ++ (k, v) :: erase cmp key fs := by
  induction es with
  | nil => simp [erase_cons, h]
  | cons e es ih =>
      obtain ⟨he, hes⟩ := List.forall_mem_cons.mp he
      have hgt : cmp key e.1 = .gt := TransCmp.gt_trans h (OrientedCmp.gt_of_lt he)
      rw [List.cons_append, erase_cons, hgt]
      simp only [ih hes, List.cons_append]

/-- Nothing is dropped under a key that is not there. -/
theorem erase_eq_self {key : κ} {es : List (κ × β)} (hs : Sorted cmp es)
    (h : ∀ e ∈ es, cmp key e.1 ≠ .eq) : erase cmp key es = es :=
  Sorted.ext (sorted_erase hs) hs fun e => by
    rw [mem_erase hs]
    exact ⟨And.left, fun he => ⟨he, h e he⟩⟩

/-! ### Lookup -/

omit [TransCmp cmp] in
theorem get_append_of_lt {key k : κ} {v : β} {es fs : List (κ × β)} (h : cmp key k = .lt) :
    get cmp key (es ++ (k, v) :: fs) = get cmp key es := by
  induction es with
  | nil => simp [get_cons, h]
  | cons e es ih =>
      rw [List.cons_append, get_cons, get_cons]
      split
      · rfl
      · rfl
      · exact ih

theorem get_append_of_eq {key k : κ} {v : β} {es fs : List (κ × β)}
    (he : ∀ e ∈ es, cmp e.1 k = .lt) (h : cmp key k = .eq) :
    get cmp key (es ++ (k, v) :: fs) = some v := by
  induction es with
  | nil => simp [get_cons, h]
  | cons e es ih =>
      obtain ⟨he, hes⟩ := List.forall_mem_cons.mp he
      have hgt : cmp key e.1 = .gt := OrientedCmp.gt_of_lt (TransCmp.lt_of_lt_of_eq he (OrientedCmp.eq_symm h))
      rw [List.cons_append, get_cons, hgt]
      exact ih hes

theorem get_append_of_gt {key k : κ} {v : β} {es fs : List (κ × β)}
    (he : ∀ e ∈ es, cmp e.1 k = .lt) (h : cmp key k = .gt) :
    get cmp key (es ++ (k, v) :: fs) = get cmp key fs := by
  induction es with
  | nil => simp [get_cons, h]
  | cons e es ih =>
      obtain ⟨he, hes⟩ := List.forall_mem_cons.mp he
      have hgt : cmp key e.1 = .gt := TransCmp.gt_trans h (OrientedCmp.gt_of_lt he)
      rw [List.cons_append, get_cons, hgt]
      exact ih hes

omit [TransCmp cmp] in
theorem exists_mem_of_get {key : κ} {value : β} {es : List (κ × β)}
    (h : get cmp key es = some value) : ∃ k, cmp key k = .eq ∧ (k, value) ∈ es := by
  induction es with
  | nil => simp at h
  | cons e es ih =>
      rw [get_cons] at h
      split at h
      · cases h
      · next heq =>
        cases h
        exact ⟨e.1, heq, List.mem_cons_self⟩
      · obtain ⟨k, hk, hmem⟩ := ih h
        exact ⟨k, hk, List.mem_cons_of_mem e hmem⟩

omit [TransCmp cmp] in
/-- What is found is replaced in its place. -/
theorem exists_append_of_get {key : κ} {value : β} {es : List (κ × β)}
    (h : get cmp key es = some value) :
    ∃ as k bs, es = as ++ (k, value) :: bs ∧ cmp key k = .eq ∧
      ∀ v, insert cmp key v es = as ++ (key, v) :: bs := by
  induction es with
  | nil => cases h
  | cons e es ih =>
      obtain ⟨k, v⟩ := e
      rw [get_cons] at h
      cases hcmp : cmp key k with
      | lt => simp [hcmp] at h
      | eq =>
          obtain rfl : v = value := by simpa [hcmp] using h
          exact ⟨[], k, es, rfl, hcmp, fun v' => by simp [insert_cons, hcmp]⟩
      | gt =>
          obtain ⟨as, k', bs, rfl, hk', hinsert⟩ := ih (by simpa [hcmp] using h)
          exact ⟨(k, v) :: as, k', bs, rfl, hk', fun v' => by simp [insert_cons, hcmp, hinsert]⟩

theorem get_of_mem {key k : κ} {value : β} {es : List (κ × β)} (hs : Sorted cmp es)
    (hk : cmp key k = .eq) (h : (k, value) ∈ es) : get cmp key es = some value := by
  obtain ⟨es₁, es₂, rfl⟩ := List.append_of_mem h
  exact get_append_of_eq (fun e he => (sorted_append.mp hs).2.2 e he _ List.mem_cons_self) hk

/-- `get` stops at the first entry whose key compares equal. -/
theorem get_eq_find? {key : κ} {es : List (κ × β)} (hs : Sorted cmp es) :
    get cmp key es = (es.find? fun e => cmp key e.1 = .eq).map Prod.snd := by
  induction es with
  | nil => rfl
  | cons e es ih =>
      obtain ⟨he, hs⟩ := sorted_cons.mp hs
      rw [get_cons, List.find?_cons]
      cases h : cmp key e.1 with
      | lt =>
          have hnone : (es.find? fun e => cmp key e.1 = .eq) = none :=
            List.find?_eq_none.mpr fun f hf => by simp [TransCmp.lt_trans h (he f hf)]
          simp [hnone]
      | eq => simp
      | gt => simpa using ih hs

theorem ne_eq_of_get_eq_none {key : κ} {es : List (κ × β)} (hs : Sorted cmp es)
    (h : get cmp key es = none) : ∀ e ∈ es, cmp key e.1 ≠ .eq := fun e he heq => by
  rw [get_of_mem hs heq he] at h
  cases h

/-! ### The entries below a key -/

/-- The entries below a key. -/
def lower (cmp : κ → κ → Ordering) (key : κ) (es : List (κ × β)) : List (κ × β) :=
  es.filter fun e => cmp e.1 key = .lt

theorem lower_cons_of_le {key k : κ} {v : β} {es : List (κ × β)} (he : ∀ e ∈ es, cmp k e.1 = .lt)
    (h : cmp key k ≠ .gt) : lower cmp key ((k, v) :: es) = [] := by
  refine List.filter_eq_nil_iff.mpr fun e hmem => ?_
  have hle : (cmp key e.1).isLE := by
    rcases List.mem_cons.mp hmem with rfl | hmem
    · exact Ordering.isLE_iff_ne_gt.mpr h
    · exact TransCmp.isLE_trans (Ordering.isLE_iff_ne_gt.mpr h) (Ordering.isLE_of_eq_lt (he e hmem))
  simpa using OrientedCmp.not_lt_of_isLE hle

theorem lower_cons_of_gt {key k : κ} {v : β} {es : List (κ × β)} (h : cmp key k = .gt) :
    lower cmp key ((k, v) :: es) = (k, v) :: lower cmp key es :=
  List.filter_cons_of_pos (decide_eq_true (OrientedCmp.lt_of_gt h))

theorem lower_append_of_le {key k : κ} {v : β} {es fs : List (κ × β)}
    (hf : ∀ e ∈ fs, cmp k e.1 = .lt) (h : cmp key k ≠ .gt) :
    lower cmp key (es ++ (k, v) :: fs) = lower cmp key es := by
  rw [lower, List.filter_append]
  exact (congrArg _ (lower_cons_of_le hf h)).trans (List.append_nil _)

theorem lower_append_of_ge {key k : κ} {v : β} {es fs : List (κ × β)}
    (he : ∀ e ∈ es, cmp e.1 k = .lt) (h : cmp key k ≠ .lt) :
    lower cmp key (es ++ (k, v) :: fs) = es ++ lower cmp key ((k, v) :: fs) := by
  have hself : lower cmp key es = es :=
    List.filter_eq_self.mpr fun e hmem => decide_eq_true
      (TransCmp.lt_of_lt_of_isLE (he e hmem)
        (OrientedCmp.isLE_of_isGE (Ordering.isGE_iff_ne_lt.mpr h)))
  rw [lower, List.filter_append]
  exact congrArg (· ++ _) hself

end Trans

/-! ### Keys that are told apart

Where the comparator may call two different keys equal, lookups are exact for the keys
of a set on which it does not. -/

/-- Keys of `S` that compare equal are equal. -/
def Separates (cmp : κ → κ → Ordering) (S : κ → Prop) : Prop :=
  ∀ a b, S a → S b → cmp a b = .eq → a = b

/-- All keys of the list are in `S`. -/
def KeysIn (S : κ → Prop) (es : List (κ × β)) : Prop := ∀ e ∈ es, S e.1

theorem keysIn_true (es : List (κ × β)) : KeysIn (fun _ => True) es := fun _ _ => trivial

section Separated

variable [TransCmp cmp] {S : κ → Prop}

omit [TransCmp cmp] in
theorem KeysIn.erase {key : κ} {es : List (κ × β)} (h : KeysIn S es) :
    KeysIn S (erase cmp key es) := fun e he => h e ((sublist_erase key es).subset he)

theorem KeysIn.insert {key : κ} {value : β} {es : List (κ × β)} (hs : Sorted cmp es)
    (hkey : S key) (h : KeysIn S es) : KeysIn S (insert cmp key value es) := fun e he => by
  rcases (mem_insert hs).mp he with rfl | ⟨he, -⟩
  · exact hkey
  · exact h e he

/-- A separated key compares equal to an entry exactly when it is the entry's key. -/
theorem Separates.eq_iff (hS : Separates cmp S) {a b : κ} (ha : S a) (hb : S b) :
    cmp a b = .eq ↔ a = b :=
  ⟨hS a b ha hb, fun h => h ▸ ReflCmp.compare_self⟩

theorem get_eq_some_iff (hS : Separates cmp S) {key : κ} {value : β} {es : List (κ × β)}
    (hs : Sorted cmp es) (hes : KeysIn S es) (hkey : S key) :
    get cmp key es = some value ↔ (key, value) ∈ es := by
  constructor
  · intro h
    obtain ⟨k, hk, hmem⟩ := exists_mem_of_get h
    rwa [hS key k hkey (hes _ hmem) hk]
  · exact get_of_mem hs ReflCmp.compare_self

theorem get_insert [DecidableEq κ] (hS : Separates cmp S) {key k : κ} {value : β}
    {es : List (κ × β)} (hs : Sorted cmp es) (hes : KeysIn S es) (hkey : S key) (hk : S k) :
    get cmp k (insert cmp key value es) = if key = k then some value else get cmp k es := by
  ext v
  rw [get_eq_some_iff hS (sorted_insert hs) (hes.insert hs hkey) hk, mem_insert hs, Ne,
    hS.eq_iff hkey hk]
  split
  · next h => simp [h, eq_comm]
  · next h =>
    rw [get_eq_some_iff hS hs hes hk]
    simp [h, Ne.symm h]

theorem get_erase [DecidableEq κ] (hS : Separates cmp S) {key k : κ} {es : List (κ × β)}
    (hs : Sorted cmp es) (hes : KeysIn S es) (hkey : S key) (hk : S k) :
    get cmp k (erase cmp key es) = if key = k then none else get cmp k es := by
  ext v
  rw [get_eq_some_iff hS (sorted_erase hs) hes.erase hk, mem_erase hs, Ne, hS.eq_iff hkey hk]
  split
  · next h => simp [h]
  · next h =>
    rw [get_eq_some_iff hS hs hes hk]
    simp [h]

end Separated

end SortedList
