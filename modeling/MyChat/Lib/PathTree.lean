import Mathlib.Order.Defs.LinearOrder
import Mathlib.Data.List.Sort
import Mathlib.Data.List.Dedup
import Mathlib.Data.List.Infix
import Mathlib.Data.List.Pairwise

/-!
# PathTree

**Trees addressed by paths.** A `PathTree κ α` is a finite tree whose edges carry
keys from a linear order `κ` and whose leaves carry values from `α`. It is
represented by its leaves alone, each with the path that leads to it, listed in
key order. Two consequences of that representation carry the whole file:

* the listing is *canonical* (`ext_leaves`): trees with the same leaves are equal,
  so `=` compares trees by content, not by the history of updates that built them;
* an inner node without leaves below it does not exist, so writing an empty
  dictionary or an empty list at a path leaves nothing there.

`subtree` reads the tree below a path, `graft` replaces it. Reading back what was
grafted gives it back (`subtree_graft_self`), and a graft is invisible at every
path that is incomparable with it (`subtree_graft_of_incomparable`).
-/

/-- `p` comes before `q` at the first key where they differ. Paths related by
`Before` in neither direction are comparable: one is a prefix of the other. -/
def Before {κ : Type*} [LT κ] : List κ → List κ → Prop
  | a :: p, b :: q => a < b ∨ (a = b ∧ Before p q)
  | _, _ => False

namespace Before

variable {κ : Type*} [LinearOrder κ]

instance decidable : (p q : List κ) → Decidable (Before p q)
  | a :: p, b :: q =>
      have := decidable p q
      inferInstanceAs (Decidable (a < b ∨ (a = b ∧ Before p q)))
  | [], _ => isFalse (by simp [Before])
  | _ :: _, [] => isFalse (by simp [Before])

@[simp] theorem nil_left (q : List κ) : ¬ Before [] q := by simp [Before]

@[simp] theorem nil_right (p : List κ) : ¬ Before p [] := by cases p <;> simp [Before]

theorem cons_cons {a b : κ} {p q : List κ} :
    Before (a :: p) (b :: q) ↔ a < b ∨ (a = b ∧ Before p q) := Iff.rfl

@[simp] theorem append_left {c p q : List κ} : Before (c ++ p) (c ++ q) ↔ Before p q := by
  induction c with
  | nil => rfl
  | cons a c ih => simp [cons_cons, ih]

theorem not_prefix {p q : List κ} (h : Before p q) : ¬ p <+: q := by
  induction p generalizing q with
  | nil => simp at h
  | cons a p ih =>
      cases q with
      | nil => simp at h
      | cons b q =>
          intro hcase
          obtain ⟨s, hs⟩ := hcase
          rw [List.cons_append, List.cons.injEq] at hs
          rcases h with h | ⟨-, h⟩
          · exact h.ne hs.1
          · exact ih h ⟨s, hs.2⟩

theorem irrefl (p : List κ) : ¬ Before p p := fun h => h.not_prefix (List.prefix_refl p)

theorem trans {p q r : List κ} (h₁ : Before p q) (h₂ : Before q r) : Before p r := by
  induction p generalizing q r with
  | nil => simp at h₁
  | cons a p ih =>
      cases q with
      | nil => simp at h₁
      | cons b q =>
          cases r with
          | nil => simp at h₂
          | cons c r =>
              rw [cons_cons] at *
              rcases h₁ with h₁ | ⟨rfl, h₁⟩ <;> rcases h₂ with h₂ | ⟨rfl, h₂⟩
              · exact Or.inl (h₁.trans h₂)
              · exact Or.inl h₁
              · exact Or.inl h₂
              · exact Or.inr ⟨rfl, ih h₁ h₂⟩

theorem asymm {p q : List κ} (h : Before p q) : ¬ Before q p :=
  fun h' => irrefl p (h.trans h')

/-- Extending either side keeps the order: it was decided at an earlier key. -/
theorem append {p q : List κ} (h : Before p q) (r s : List κ) : Before (p ++ r) (q ++ s) := by
  induction p generalizing q with
  | nil => simp at h
  | cons a p ih =>
      cases q with
      | nil => simp at h
      | cons b q =>
          rcases h with h | ⟨rfl, h⟩
          · exact Or.inl h
          · exact Or.inr ⟨rfl, ih h⟩

/-- Any two paths are ordered at a key, or one extends the other. -/
theorem trichotomy (p q : List κ) : Before p q ∨ Before q p ∨ p <+: q ∨ q <+: p := by
  induction p generalizing q with
  | nil => exact Or.inr (Or.inr (Or.inl (List.nil_prefix)))
  | cons a p ih =>
      cases q with
      | nil => exact Or.inr (Or.inr (Or.inr (List.nil_prefix)))
      | cons b q =>
          rcases lt_trichotomy a b with h | rfl | h
          · exact Or.inl (Or.inl h)
          · rcases ih q with h | h | h | h
            · exact Or.inl (Or.inr ⟨rfl, h⟩)
            · exact Or.inr (Or.inl (Or.inr ⟨rfl, h⟩))
            · exact Or.inr (Or.inr (Or.inl (List.cons_prefix_cons.mpr ⟨rfl, h⟩)))
            · exact Or.inr (Or.inr (Or.inr (List.cons_prefix_cons.mpr ⟨rfl, h⟩)))
          · exact Or.inr (Or.inl (Or.inl h))

end Before

/-- Neither path is a prefix of the other. -/
def Incomparable {κ : Type*} (p q : List κ) : Prop := ¬ p <+: q ∧ ¬ q <+: p

namespace Incomparable

variable {κ : Type*}

instance [DecidableEq κ] (p q : List κ) : Decidable (Incomparable p q) :=
  inferInstanceAs (Decidable (¬ p <+: q ∧ ¬ q <+: p))

theorem symm {p q : List κ} (h : Incomparable p q) : Incomparable q p := ⟨h.2, h.1⟩

/-- What extends one of two incomparable paths is incomparable with the other. -/
theorem of_prefix_right {p q q' : List κ} (h : Incomparable p q) (hq : q <+: q') :
    Incomparable p q' :=
  ⟨fun hp => (List.prefix_or_prefix_of_prefix hp hq).elim h.1 h.2, fun hp => h.2 (hq.trans hp)⟩

theorem of_prefix_left {p p' q : List κ} (h : Incomparable p q) (hp : p <+: p') :
    Incomparable p' q :=
  (h.symm.of_prefix_right hp).symm

@[simp] theorem append_left {c p q : List κ} :
    Incomparable (c ++ p) (c ++ q) ↔ Incomparable p q := by
  simp [Incomparable, List.prefix_append_right_inj]

theorem before_or_before [LinearOrder κ] {p q : List κ} (h : Incomparable p q) :
    Before p q ∨ Before q p := by
  rcases Before.trichotomy p q with hb | hb | hp | hp
  · exact Or.inl hb
  · exact Or.inr hb
  · exact absurd hp h.1
  · exact absurd hp h.2

theorem of_before [LinearOrder κ] {p q : List κ} (h : Before p q) : Incomparable p q :=
  ⟨h.not_prefix, fun hp => by
    obtain ⟨s, rfl⟩ := hp
    exact Before.nil_right s (by simpa using (Before.append_left (c := q) (q := [])).mp (by simpa using h))⟩

end Incomparable

/-- A tree given by its leaves in key order. `ordered` says both that the listing
is sorted and that no leaf lies below another one. -/
structure PathTree (κ α : Type*) [LinearOrder κ] where
  leaves : List (List κ × α)
  ordered : leaves.Pairwise fun x y => Before x.1 y.1

namespace PathTree

variable {κ α : Type*} [LinearOrder κ]

@[ext] theorem ext_leaves {t u : PathTree κ α} (h : ∀ x, x ∈ t.leaves ↔ x ∈ u.leaves) : t = u := by
  have hleaves : t.leaves = u.leaves := by
    have : Std.Antisymm fun x y : List κ × α => Before x.1 y.1 :=
      ⟨fun _ _ h h' => absurd h' h.asymm⟩
    have : Std.Irrefl fun x y : List κ × α => Before x.1 y.1 := ⟨fun x => Before.irrefl x.1⟩
    exact t.ordered.eq_of_mem_iff u.ordered h
  cases t
  cases u
  simp_all

/-- Two leaves of a tree sit at incomparable paths, so a path determines its leaf. -/
theorem eq_of_prefix (t : PathTree κ α) {x y : List κ × α} (hx : x ∈ t.leaves)
    (hy : y ∈ t.leaves) (h : x.1 <+: y.1) : x = y := by
  by_contra hne
  have hinc : t.leaves.Pairwise fun x y => Incomparable x.1 y.1 :=
    t.ordered.imp Incomparable.of_before
  have : Std.Symm fun x y : List κ × α => Incomparable x.1 y.1 := ⟨fun _ _ h => h.symm⟩
  exact (hinc.forall hx hy hne).1 h

instance [DecidableEq α] : DecidableEq (PathTree κ α) := fun t u =>
  decidable_of_iff (t.leaves = u.leaves)
    ⟨fun h => by cases t; cases u; simp_all, fun h => by rw [h]⟩

/-! ### Building trees -/

/-- The tree without leaves: nothing is stored. -/
def empty : PathTree κ α := ⟨[], List.Pairwise.nil⟩

instance : EmptyCollection (PathTree κ α) := ⟨empty⟩

/-- The tree that is a single value. -/
def leaf (v : α) : PathTree κ α := ⟨[([], v)], List.pairwise_singleton _ _⟩

@[simp] theorem leaves_empty : (∅ : PathTree κ α).leaves = [] := rfl
@[simp] theorem leaves_leaf (v : α) : (leaf v : PathTree κ α).leaves = [([], v)] := rfl

theorem eq_empty_iff {t : PathTree κ α} : t = ∅ ↔ t.leaves = [] := by
  constructor
  · rintro rfl
    rfl
  · intro h
    ext x
    simp [h]

theorem ne_empty_iff {t : PathTree κ α} : t ≠ ∅ ↔ ∃ x, x ∈ t.leaves := by
  rw [Ne, eq_empty_iff, List.eq_nil_iff_forall_not_mem]
  push Not
  rfl

/-- The tree below `p`: the leaves whose path extends `p`, seen from there. -/
def subtree (t : PathTree κ α) (p : List κ) : PathTree κ α where
  leaves := t.leaves.filterMap fun x => if p <+: x.1 then some (x.1.drop p.length, x.2) else none
  ordered := by
    refine List.Pairwise.filterMap _ ?_ t.ordered
    intro x y hxy x' hx' y' hy'
    obtain ⟨⟨r, hr⟩, rfl⟩ : p <+: x.1 ∧ (x.1.drop p.length, x.2) = x' := by simpa using hx'
    obtain ⟨⟨s, hs⟩, rfl⟩ : p <+: y.1 ∧ (y.1.drop p.length, y.2) = y' := by simpa using hy'
    rw [← hr, ← hs] at hxy
    simpa [← hr, ← hs] using hxy

theorem mem_subtree {t : PathTree κ α} {p q : List κ} {v : α} :
    (q, v) ∈ (t.subtree p).leaves ↔ (p ++ q, v) ∈ t.leaves := by
  simp only [subtree, List.mem_filterMap, Option.ite_none_right_eq_some, Option.some.injEq,
    Prod.mk.injEq, Prod.exists]
  constructor
  · intro hcase
    obtain ⟨_, _, hmem, ⟨r, rfl⟩, rfl, rfl⟩ := hcase
    simpa using hmem
  · intro h
    exact ⟨p ++ q, v, h, List.prefix_append p q, by simp, rfl⟩

/-- Replace the tree below `p` by `s`. A leaf above `p` gives way: a value cannot
have children. -/
def graft (t : PathTree κ α) (p : List κ) (s : PathTree κ α) : PathTree κ α where
  leaves := t.leaves.filter (fun x => Before x.1 p) ++ s.leaves.map (fun x => (p ++ x.1, x.2)) ++
    t.leaves.filter (fun x => Before p x.1)
  ordered := by
    have hmid : (s.leaves.map fun x => (p ++ x.1, x.2)).Pairwise fun x y => Before x.1 y.1 :=
      List.pairwise_map.mpr (s.ordered.imp Before.append_left.mpr)
    refine List.pairwise_append.mpr ⟨List.pairwise_append.mpr
      ⟨t.ordered.filter _, hmid, ?_⟩, t.ordered.filter _, ?_⟩
    · intro x hx y hy
      obtain ⟨z, -, rfl⟩ := List.mem_map.mp hy
      simpa using (of_decide_eq_true (List.mem_filter.mp hx).2).append [] z.1
    · intro x hx y hy
      have hpy : Before p y.1 := of_decide_eq_true (List.mem_filter.mp hy).2
      rcases List.mem_append.mp hx with hx | hx
      · exact (of_decide_eq_true (List.mem_filter.mp hx).2).trans hpy
      · obtain ⟨z, -, rfl⟩ := List.mem_map.mp hx
        simpa using hpy.append z.1 []

theorem mem_graft {t s : PathTree κ α} {p : List κ} {x : List κ × α} :
    x ∈ (t.graft p s).leaves ↔
      (x ∈ t.leaves ∧ Incomparable p x.1) ∨ ∃ q, (q, x.2) ∈ s.leaves ∧ x.1 = p ++ q := by
  simp only [graft, List.mem_append, List.mem_filter, List.mem_map, decide_eq_true_eq]
  constructor
  · intro hcase
    rcases hcase with (⟨hx, hb⟩ | ⟨y, hy, rfl⟩) | ⟨hx, hb⟩
    · exact Or.inl ⟨hx, (Incomparable.of_before hb).symm⟩
    · exact Or.inr ⟨y.1, hy, rfl⟩
    · exact Or.inl ⟨hx, Incomparable.of_before hb⟩
  · intro hcase
    rcases hcase with ⟨hx, hinc⟩ | ⟨q, hq, hpath⟩
    · rcases hinc.before_or_before with hb | hb
      · exact Or.inr ⟨hx, hb⟩
      · exact Or.inl (Or.inl ⟨hx, hb⟩)
    · exact Or.inl (Or.inr ⟨(q, x.2), hq, Prod.ext hpath.symm rfl⟩)

/-! ### Reading after grafting -/

@[simp] theorem subtree_nil (t : PathTree κ α) : t.subtree [] = t := by
  ext ⟨q, v⟩
  simp [mem_subtree]

@[simp] theorem subtree_subtree (t : PathTree κ α) (p q : List κ) :
    (t.subtree p).subtree q = t.subtree (p ++ q) := by
  ext ⟨r, v⟩
  simp [mem_subtree]

@[simp] theorem subtree_empty (p : List κ) : (∅ : PathTree κ α).subtree p = ∅ := by
  ext ⟨q, v⟩
  simp [mem_subtree]

/-- What was grafted is read back. -/
@[simp] theorem subtree_graft_self (t s : PathTree κ α) (p : List κ) :
    (t.graft p s).subtree p = s := by
  ext ⟨q, v⟩
  rw [mem_subtree, mem_graft]
  constructor
  · intro hcase
    rcases hcase with ⟨-, hinc⟩ | ⟨r, hr, hpath⟩
    · exact absurd (List.prefix_append p q) hinc.1
    · rwa [List.append_cancel_left hpath]
  · intro h
    exact Or.inr ⟨q, h, rfl⟩

/-- **Frame.** A graft is invisible at every incomparable path. -/
theorem subtree_graft_of_incomparable {t s : PathTree κ α} {p q : List κ}
    (h : Incomparable p q) : (t.graft p s).subtree q = t.subtree q := by
  ext ⟨r, v⟩
  rw [mem_subtree, mem_graft, mem_subtree]
  constructor
  · intro hcase
    rcases hcase with ⟨hmem, -⟩ | ⟨u, -, hpath⟩
    · exact hmem
    · rcases List.prefix_or_prefix_of_prefix (List.prefix_append q r) ⟨u, hpath.symm⟩ with hq | hp
      · exact absurd hq h.2
      · exact absurd hp h.1
  · intro hmem
    refine Or.inl ⟨hmem, fun hp => ?_, fun hq => h.2 ((List.prefix_append q r).trans hq)⟩
    rcases List.prefix_or_prefix_of_prefix (List.prefix_append q r) hp with hq | hp
    · exact h.2 hq
    · exact h.1 hp

/-- Seen from above, a graft is the graft at the remaining path. -/
theorem subtree_graft_append (t s : PathTree κ α) (p q : List κ) :
    (t.graft (p ++ q) s).subtree p = (t.subtree p).graft q s := by
  ext ⟨r, v⟩
  rw [mem_subtree, mem_graft, mem_graft, mem_subtree]
  simp [Incomparable, List.prefix_append_right_inj]

/-- What a graft leaves below `p` depends only on what was below `p`. -/
theorem subtree_graft_congr {t u : PathTree κ α} {p : List κ} (h : t.subtree p = u.subtree p)
    (q : List κ) (s : PathTree κ α) : (t.graft q s).subtree p = (u.graft q s).subtree p := by
  by_cases hqp : q <+: p
  · obtain ⟨r, rfl⟩ := hqp
    rw [← subtree_subtree, ← subtree_subtree, subtree_graft_self, subtree_graft_self]
  by_cases hpq : p <+: q
  · obtain ⟨r, rfl⟩ := hpq
    rw [subtree_graft_append, subtree_graft_append, h]
  · rw [subtree_graft_of_incomparable ⟨hqp, hpq⟩, subtree_graft_of_incomparable ⟨hqp, hpq⟩, h]

/-! ### Composing grafts -/

@[simp] theorem graft_nil (t s : PathTree κ α) : t.graft [] s = s := by
  simpa using subtree_graft_self t s []

/-- Only the last graft along a path counts. -/
theorem graft_graft_of_prefix {t s u : PathTree κ α} {p r : List κ} (h : r <+: p) :
    (t.graft p s).graft r u = t.graft r u := by
  ext x
  simp only [mem_graft]
  constructor
  · intro hcase
    rcases hcase with ⟨⟨hx, -⟩ | ⟨q, -, hpath⟩, hinc⟩ | hx
    · exact Or.inl ⟨hx, hinc⟩
    · exact absurd (h.trans ⟨q, hpath.symm⟩) hinc.1
    · exact Or.inr hx
  · intro hcase
    rcases hcase with ⟨hx, hinc⟩ | hx
    · exact Or.inl ⟨Or.inl ⟨hx, hinc.of_prefix_left h⟩, hinc⟩
    · exact Or.inr hx

/-- A graft can be made one level down. -/
theorem graft_append (t s : PathTree κ α) (p q : List κ) :
    t.graft (p ++ q) s = t.graft p ((t.subtree p).graft q s) := by
  ext x
  simp only [mem_graft, mem_subtree]
  constructor
  · intro hcase
    rcases hcase with ⟨hx, hinc⟩ | ⟨r, hr, hpath⟩
    · by_cases hp : p <+: x.1
      · obtain ⟨r, hr⟩ := hp
        rw [← hr, Incomparable.append_left] at hinc
        exact Or.inr ⟨r, Or.inl ⟨by rwa [hr], hinc⟩, hr.symm⟩
      · exact Or.inl ⟨hx, hp, fun h => hinc.2 (h.trans (List.prefix_append p q))⟩
    · exact Or.inr ⟨q ++ r, Or.inr ⟨r, hr, rfl⟩, by rw [hpath, List.append_assoc]⟩
  · intro hcase
    rcases hcase with ⟨hx, hinc⟩ | ⟨r, ⟨hr, hinc⟩ | ⟨r', hr, rfl⟩, hpath⟩
    · exact Or.inl ⟨hx, hinc.of_prefix_left (List.prefix_append p q)⟩
    · rw [← hpath] at hr
      exact Or.inl ⟨hr, by rwa [hpath, Incomparable.append_left]⟩
    · exact Or.inr ⟨r', hr, by rw [hpath, List.append_assoc]⟩

/-- Grafts at incomparable paths commute. -/
theorem graft_comm {t s u : PathTree κ α} {p q : List κ} (h : Incomparable p q) :
    (t.graft p s).graft q u = (t.graft q u).graft p s := by
  have hle : ∀ {p q : List κ} {s u : PathTree κ α} {x : List κ × α}, Incomparable p q →
      x ∈ ((t.graft p s).graft q u).leaves → x ∈ ((t.graft q u).graft p s).leaves := by
    intro p q s u x h hx
    simp only [mem_graft] at hx ⊢
    rcases hx with ⟨⟨hx, hp⟩ | hx, hq⟩ | ⟨r, hr, hpath⟩
    · exact Or.inl ⟨Or.inl ⟨hx, hq⟩, hp⟩
    · exact Or.inr hx
    · exact Or.inl ⟨Or.inr ⟨r, hr, hpath⟩, h.of_prefix_right ⟨r, hpath.symm⟩⟩
  ext x
  exact ⟨hle h, hle h.symm⟩

/-! ### Trees that differ at one place -/

/-- The trees have the same leaves, up to those at, above or below `p`. -/
def AgreeBeside (p : List κ) (s t : PathTree κ α) : Prop :=
  ∀ x : List κ × α, Incomparable p x.1 → (x ∈ s.leaves ↔ x ∈ t.leaves)

/-- There is no leaf strictly above `p`. -/
def ClearAbove (t : PathTree κ α) (p : List κ) : Prop := ∀ x ∈ t.leaves, x.1 <+: p → x.1 = p

namespace AgreeBeside

variable {p q r : List κ} {s t u : PathTree κ α}

theorem refl (p : List κ) (t : PathTree κ α) : AgreeBeside p t t := fun _ _ => Iff.rfl

/-- Everything is at or below the empty path. -/
theorem nil (s t : PathTree κ α) : AgreeBeside [] s t := fun _ hx => absurd List.nil_prefix hx.1

theorem symm (h : AgreeBeside p s t) : AgreeBeside p t s := fun x hx => (h x hx).symm

theorem trans (h : AgreeBeside p s t) (h' : AgreeBeside p t u) : AgreeBeside p s u :=
  fun x hx => (h x hx).trans (h' x hx)

/-- Agreeing beside a path is agreeing beside those above it. -/
theorem mono (h : AgreeBeside p s t) (hq : q <+: p) : AgreeBeside q s t :=
  fun x hx => h x (hx.of_prefix_left hq)

theorem of_graft (t : PathTree κ α) (p : List κ) (s : PathTree κ α) :
    AgreeBeside p (t.graft p s) t := by
  intro x hx
  rw [mem_graft]
  refine ⟨fun hmem => ?_, fun hmem => Or.inl ⟨hmem, hx⟩⟩
  rcases hmem with ⟨hmem, -⟩ | ⟨q, -, hpath⟩
  · exact hmem
  · exact absurd ⟨q, hpath.symm⟩ hx.1

theorem graft (h : AgreeBeside p s t) (q : List κ) (u : PathTree κ α) :
    AgreeBeside p (s.graft q u) (t.graft q u) := by
  intro x hx
  rw [mem_graft, mem_graft, h x hx]

theorem subtree (h : AgreeBeside (r ++ p) s t) : AgreeBeside p (s.subtree r) (t.subtree r) := by
  rintro ⟨q, v⟩ hx
  rw [mem_subtree, mem_subtree]
  exact h (r ++ q, v) (Incomparable.append_left.mpr hx)

theorem subtree_of_incomparable (h : AgreeBeside p s t) (hq : Incomparable p q) :
    s.subtree q = t.subtree q := by
  ext ⟨x, v⟩
  rw [mem_subtree, mem_subtree]
  exact h _ (hq.of_prefix_right (List.prefix_append q x))

/-- Trees that agree beside a path, and at it, are equal. -/
theorem eq (h : AgreeBeside p s t) (hsub : s.subtree p = t.subtree p) (hs : s.ClearAbove p)
    (ht : t.ClearAbove p) : s = t := by
  ext x
  by_cases hp : p <+: x.1
  · obtain ⟨⟨_, v⟩, q, rfl⟩ : ∃ x' : List κ × α, ∃ q, x = (p ++ q, x'.2) := by
      obtain ⟨q, hq⟩ := hp
      exact ⟨x, q, Prod.ext hq.symm rfl⟩
    rw [← mem_subtree, ← mem_subtree, hsub]
  · by_cases hx : x.1 <+: p
    · exact ⟨fun hmem => absurd (hs x hmem hx ▸ List.prefix_refl _) hp,
        fun hmem => absurd (ht x hmem hx ▸ List.prefix_refl _) hp⟩
    · exact h x ⟨hp, hx⟩

end AgreeBeside

/-- A leaf above a child is the whole tree. -/
theorem exists_eq_leaf {t : PathTree κ α} {k : κ} (h : ¬ t.ClearAbove [k]) : ∃ v, t = leaf v := by
  unfold ClearAbove at h
  push Not at h
  obtain ⟨⟨q, v⟩, hx, hprefix, hne⟩ := h
  have hq : q = [] := by
    rcases List.prefix_cons_iff.mp hprefix with hq | ⟨q', hq, hq'⟩
    · exact hq
    · rw [List.prefix_nil.mp hq'] at hq
      exact absurd hq hne
  subst hq
  refine ⟨v, ?_⟩
  ext y
  rw [leaves_leaf, List.mem_singleton]
  exact ⟨fun hy => (t.eq_of_prefix hx hy List.nil_prefix).symm, fun hy => hy ▸ hx⟩

theorem clearAbove_nil (t : PathTree κ α) : t.ClearAbove [] := fun _ _ hx => List.prefix_nil.mp hx

theorem clearAbove_graft (t s : PathTree κ α) (p : List κ) : (t.graft p s).ClearAbove p := by
  intro x hx hxp
  rcases mem_graft.mp hx with ⟨-, hinc⟩ | ⟨q, -, hpath⟩
  · exact absurd hxp hinc.2
  · exact hxp.eq_of_length_le (by rw [hpath, List.length_append]; omega)

/-- Where there is data there is no leaf above. -/
theorem clearAbove_of_subtree_ne {t : PathTree κ α} {p : List κ} (h : t.subtree p ≠ ∅) :
    t.ClearAbove p := by
  intro x hx hxp
  obtain ⟨⟨q, v⟩, hq⟩ := ne_empty_iff.mp h
  have hmem := mem_subtree.mp hq
  have hsame := t.eq_of_prefix hx hmem (hxp.trans (List.prefix_append p q))
  refine hxp.eq_of_length_le ?_
  rw [hsame, List.length_append]
  omega

theorem ClearAbove.of_append {t : PathTree κ α} {p q : List κ} (h : t.ClearAbove (p ++ q)) :
    t.ClearAbove p := by
  intro x hx hxp
  have heq := h x hx (hxp.trans (List.prefix_append p q))
  exact hxp.eq_of_length_le (by rw [heq, List.length_append]; omega)

theorem ClearAbove.subtree {t : PathTree κ α} {r p : List κ} (h : t.ClearAbove (r ++ p)) :
    (t.subtree r).ClearAbove p := by
  rintro ⟨q, v⟩ hq hqp
  exact List.append_cancel_left (h _ (mem_subtree.mp hq) ((List.prefix_append_right_inj r).mpr hqp))

theorem ClearAbove.graft_subtree {t : PathTree κ α} {p : List κ} (h : t.ClearAbove p) :
    t.graft p (t.subtree p) = t :=
  (AgreeBeside.of_graft t p _).eq (subtree_graft_self _ _ _) (clearAbove_graft _ _ _) h

/-! ### Children -/

/-- The keys directly below the root, in key order. -/
def children (t : PathTree κ α) : List κ := (t.leaves.filterMap fun x => x.1.head?).dedup

theorem mem_children {t : PathTree κ α} {k : κ} : k ∈ t.children ↔ t.subtree [k] ≠ ∅ := by
  rw [ne_empty_iff, children, List.mem_dedup, List.mem_filterMap]
  constructor
  · intro hcase
    obtain ⟨⟨_ | ⟨a, q⟩, v⟩, hmem, hhead⟩ := hcase
    · simp at hhead
    · obtain rfl : a = k := by simpa using hhead
      exact ⟨(q, v), mem_subtree.mpr hmem⟩
  · intro hcase
    obtain ⟨⟨q, v⟩, hmem⟩ := hcase
    exact ⟨(k :: q, v), mem_subtree.mp hmem, rfl⟩

theorem nodup_children (t : PathTree κ α) : t.children.Nodup := List.nodup_dedup _

/-- The children are listed in key order. -/
theorem children_sorted (t : PathTree κ α) : t.children.Pairwise (· < ·) := by
  have hle : (t.leaves.filterMap fun x => x.1.head?).Pairwise (· ≤ ·) := by
    refine List.Pairwise.filterMap _ ?_ t.ordered
    intro x y hxy k hk k' hk'
    obtain ⟨p, hp⟩ := List.head?_eq_some_iff.mp hk
    obtain ⟨q, hq⟩ := List.head?_eq_some_iff.mp hk'
    -- leaves are ordered by their first keys first
    rw [hp, hq, Before.cons_cons] at hxy
    exact hxy.elim le_of_lt fun h => h.1.le
  refine List.Pairwise.imp₂ (fun _ _ => lt_of_le_of_ne) ?_ t.nodup_children
  exact hle.sublist (List.dedup_sublist _)

@[simp] theorem children_empty : (∅ : PathTree κ α).children = [] := rfl

/-! ### Values -/

/-- The value stored at `q` itself. -/
def get (t : PathTree κ α) (q : List κ) : Option α :=
  (t.leaves.find? fun x => x.1 = q).map Prod.snd

theorem get_eq_some_iff {t : PathTree κ α} {q : List κ} {v : α} :
    t.get q = some v ↔ (q, v) ∈ t.leaves := by
  unfold get
  constructor
  · intro h
    obtain ⟨x, hx, rfl⟩ := Option.map_eq_some_iff.mp h
    have hq : x.1 = q := by simpa using List.find?_some hx
    have hmem := List.mem_of_find?_eq_some hx
    rwa [← hq]
  · intro h
    cases hf : t.leaves.find? fun x => x.1 = q with
    | none => simpa using List.find?_eq_none.mp hf _ h
    | some x =>
        have hq : x.1 = q := by simpa using List.find?_some hf
        have heq := t.eq_of_prefix (List.mem_of_find?_eq_some hf) h (by simp [hq])
        rw [heq]
        rfl

theorem get_subtree (t : PathTree κ α) (p q : List κ) : (t.subtree p).get q = t.get (p ++ q) := by
  ext v
  rw [get_eq_some_iff, get_eq_some_iff, mem_subtree]

theorem mem_children_of_get {t : PathTree κ α} {k : κ} {v : α} (h : t.get [k] = some v) :
    k ∈ t.children :=
  mem_children.mpr (ne_empty_iff.mpr ⟨([], v), mem_subtree.mpr (get_eq_some_iff.mp h)⟩)

@[simp] theorem get_empty (q : List κ) : (∅ : PathTree κ α).get q = none := rfl

/-- Trees without a value at the root are equal when they agree below every key. -/
theorem ext_children {t u : PathTree κ α} (ht : t.get [] = none) (hu : u.get [] = none)
    (h : ∀ k, t.subtree [k] = u.subtree [k]) : t = u := by
  have hroot : ∀ {t : PathTree κ α} {v : α}, t.get [] = none → ([], v) ∉ t.leaves :=
    fun ht hmem => by simp [get_eq_some_iff.mpr hmem] at ht
  ext ⟨q, v⟩
  cases q with
  | nil => exact iff_of_false (hroot ht) (hroot hu)
  | cons k q =>
      have hk := h k
      rw [← List.singleton_append, ← mem_subtree, ← mem_subtree, hk]

/-- A tree with leaves but no value at the root has a child. -/
theorem exists_child {t : PathTree κ α} (ht : t.get [] = none) (hne : t ≠ ∅) :
    ∃ k, t.subtree [k] ≠ ∅ := by
  by_contra hnone
  push Not at hnone
  exact hne (ext_children ht rfl fun k => by rw [hnone k, subtree_empty])

/-! ### Dictionaries

A dictionary of scalar fields, as its list of keys and values. A later entry
replaces an earlier one under the same key. -/

/-- The dictionary with the given fields. -/
def ofFields (fields : List (κ × α)) : PathTree κ α :=
  fields.foldl (fun t f => t.graft [f.1] (leaf f.2)) ∅

theorem get_graft_leaf {t : PathTree κ α} {a b : κ} {v : α} :
    (t.graft [a] (leaf v)).get [b] = if a = b then some v else t.get [b] := by
  have hb : ∀ t : PathTree κ α, t.get [b] = (t.subtree [b]).get [] := fun t => by
    rw [get_subtree, List.append_nil]
  rw [hb, hb t]
  split
  · next h =>
    subst h
    rw [subtree_graft_self]
    rfl
  · next h =>
    rw [subtree_graft_of_incomparable ⟨by simpa using h, by simpa using Ne.symm h⟩]

theorem get_ofFields (fields : List (κ × α)) (k : κ) :
    (ofFields fields).get [k] = fields.reverse.lookup k := by
  unfold ofFields
  induction fields using List.reverseRecOn with
  | nil => rfl
  | append_singleton fs f ih =>
      rw [List.foldl_append, List.foldl_cons, List.foldl_nil, get_graft_leaf, ih,
        List.reverse_append, List.reverse_singleton, List.singleton_append]
      obtain ⟨a, v⟩ := f
      by_cases h : a = k
      · simp [h]
      · have hka : (k == a) = false := by simpa using Ne.symm h
        simp [h, List.lookup_cons, hka]

/-- A dictionary of fields has no values but its fields. -/
theorem mem_of_mem_leaves_ofFields {fields : List (κ × α)} {x : List κ × α}
    (h : x ∈ (ofFields fields).leaves) : ∃ f ∈ fields, x = ([f.1], f.2) := by
  unfold ofFields at h
  induction fields using List.reverseRecOn with
  | nil => simp at h
  | append_singleton fs f ih =>
      rw [List.foldl_append, List.foldl_cons, List.foldl_nil] at h
      rcases mem_graft.mp h with ⟨hx, -⟩ | ⟨q, hq, hpath⟩
      · obtain ⟨f', hf', rfl⟩ := ih hx
        exact ⟨f', List.mem_append_left _ hf', rfl⟩
      · obtain ⟨rfl, hv⟩ : q = [] ∧ x.2 = f.2 := by simpa using hq
        exact ⟨f, by simp, Prod.ext hpath hv⟩

/-! ### Trees made of records

A store that is only ever written record by record, at locations none of which
extends another, consists of whole records at all times. -/

/-- Every leaf belongs to a record: `R p s` says that `s` is a record for location `p`. -/
def MadeOf (R : List κ → PathTree κ α → Prop) (t : PathTree κ α) : Prop :=
  ∀ x ∈ t.leaves, ∃ p, p <+: x.1 ∧ R p (t.subtree p)

/-- Two different record locations are incomparable. -/
def Separated (R : List κ → PathTree κ α → Prop) : Prop :=
  ∀ p s p' s', R p s → R p' s' → p = p' ∨ Incomparable p p'

namespace MadeOf

variable {R R' : List κ → PathTree κ α → Prop} {t s : PathTree κ α} {p : List κ}

theorem empty : MadeOf R (∅ : PathTree κ α) := fun _ hx => by simp at hx

theorem mono (h : ∀ p s, R p s → R' p s) (ht : t.MadeOf R) : t.MadeOf R' := fun x hx => by
  obtain ⟨p, hp, hR⟩ := ht x hx
  exact ⟨p, hp, h p _ hR⟩

/-- Writing a record keeps the store made of records: the leaves that stay belong to
records at other locations, which are incomparable and hence untouched. -/
theorem graft (hsep : Separated R) (hs : R p s) (ht : t.MadeOf R) : (t.graft p s).MadeOf R := by
  intro x hx
  rcases mem_graft.mp hx with ⟨hmem, hinc⟩ | ⟨q, -, hpath⟩
  · obtain ⟨p', hp', hR⟩ := ht x hmem
    rcases hsep p s p' _ hs hR with rfl | hpp'
    · exact absurd hp' hinc.1
    · exact ⟨p', hp', by rwa [subtree_graft_of_incomparable hpp']⟩
  · exact ⟨p, ⟨q, hpath.symm⟩, by rwa [subtree_graft_self]⟩

/-- Below any location where something is stored there is a record. -/
theorem exists_record (ht : t.MadeOf R) (hne : t.subtree p ≠ ∅) :
    ∃ p' q, p' <+: p ++ q ∧ R p' (t.subtree p') := by
  obtain ⟨⟨q, v⟩, hx⟩ := ne_empty_iff.mp hne
  obtain ⟨p', hp', hR⟩ := ht _ (mem_subtree.mp hx)
  exact ⟨p', q, hp', hR⟩

end MadeOf

end PathTree
