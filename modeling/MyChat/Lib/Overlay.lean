import MyChat.Lib.PathTree

/-!
# Overlay

**Pending changes to a tree, kept as a tree.** An `Overlay κ α` is a path tree whose
leaves are themselves path trees: the leaf at `p` is what is to be put at `p`. `apply`
puts every leaf into a base tree. `add` layers one more change over the overlay, into
the leaf at or above its path if there is one; `remove` takes back what lies at or
below a path.

Layering is faithful: applying an overlay after `add` is grafting after applying it
(`apply_add`), and what it leaves below a path is what the overlay below that path
leaves there (`subtree_apply`). `ofWrites` layers a list of changes, so it applies
them in order (`apply_ofWrites`).

Taking changes back is the subtle direction, since an overlay forgets what a change
covered. Two cases need no memory: a change that a later one covers has left no trace
(`addAll_drop_shadowed`), and changes that are incomparable with all others are
exactly what `remove` finds at their paths (`removeAll_addAll`).
-/

namespace PathTree

variable {κ α : Type*} [LinearOrder κ]

/-! ### Several grafts -/

/-- Graft several trees, in order. -/
def graftAll (t : PathTree κ α) (ws : List (List κ × PathTree κ α)) : PathTree κ α :=
  ws.foldl (fun t w => t.graft w.1 w.2) t

@[simp] theorem graftAll_nil (t : PathTree κ α) : t.graftAll [] = t := rfl

@[simp] theorem graftAll_cons (t : PathTree κ α) (w : List κ × PathTree κ α)
    (ws : List (List κ × PathTree κ α)) :
    t.graftAll (w :: ws) = (t.graft w.1 w.2).graftAll ws := rfl

theorem graftAll_append (t : PathTree κ α) (ws vs : List (List κ × PathTree κ α)) :
    t.graftAll (ws ++ vs) = (t.graftAll ws).graftAll vs := List.foldl_append

/-- Grafts below a path are made there. -/
theorem graftAll_map_append (t : PathTree κ α) (p : List κ) {ws : List (List κ × PathTree κ α)}
    (h : ws ≠ []) :
    t.graftAll (ws.map fun w => (p ++ w.1, w.2)) = t.graft p ((t.subtree p).graftAll ws) := by
  induction ws generalizing t with
  | nil => exact absurd rfl h
  | cons w ws ih =>
      rw [List.map_cons, graftAll_cons, graftAll_cons, graft_append]
      cases ws with
      | nil => rfl
      | cons v ws =>
          rw [ih _ (List.cons_ne_nil v ws), subtree_graft_self,
            graft_graft_of_prefix (List.prefix_refl p)]

/-- Trees grafted at incomparable paths stand side by side. -/
theorem mem_graftAll {t : PathTree κ α} {ws : List (List κ × PathTree κ α)}
    (h : ws.Pairwise fun w v => Incomparable w.1 v.1) {x : List κ × α} :
    x ∈ (t.graftAll ws).leaves ↔
      (x ∈ t.leaves ∧ ∀ w ∈ ws, Incomparable w.1 x.1) ∨
        ∃ w ∈ ws, ∃ q, (q, x.2) ∈ w.2.leaves ∧ x.1 = w.1 ++ q := by
  induction ws generalizing t with
  | nil => simp
  | cons w ws ih =>
      obtain ⟨hw, hws⟩ := List.pairwise_cons.mp h
      rw [graftAll_cons, ih hws, mem_graft]
      constructor
      · intro hcase
        rcases hcase with ⟨⟨hx, hinc⟩ | hx, hall⟩ | ⟨v, hv, hx⟩
        · exact Or.inl ⟨hx, List.forall_mem_cons.mpr ⟨hinc, hall⟩⟩
        · exact Or.inr ⟨w, List.mem_cons_self, hx⟩
        · exact Or.inr ⟨v, List.mem_cons_of_mem w hv, hx⟩
      · intro hcase
        rcases hcase with ⟨hx, hall⟩ | ⟨v, hv, hx⟩
        · obtain ⟨hinc, hall⟩ := List.forall_mem_cons.mp hall
          exact Or.inl ⟨Or.inl ⟨hx, hinc⟩, hall⟩
        · rcases List.mem_cons.mp hv with rfl | hv
          · obtain ⟨q, hq, hpath⟩ := hx
            refine Or.inl ⟨Or.inr ⟨q, hq, hpath⟩, fun u hu => ?_⟩
            exact (hw u hu).symm.of_prefix_right ⟨q, hpath.symm⟩
          · exact Or.inr ⟨v, hv, hx⟩

/-- At incomparable paths the order of grafts does not matter. -/
theorem graftAll_congr {t : PathTree κ α} {ws vs : List (List κ × PathTree κ α)}
    (hws : ws.Pairwise fun w v => Incomparable w.1 v.1)
    (hvs : vs.Pairwise fun w v => Incomparable w.1 v.1) (h : ∀ w, w ∈ ws ↔ w ∈ vs) :
    t.graftAll ws = t.graftAll vs := by
  ext x
  rw [mem_graftAll hws, mem_graftAll hvs]
  simp only [h]

/-- The trees have the same leaves, up to those at, above or below one of the paths. -/
def AgreeOutside (ps : List (List κ)) (s t : PathTree κ α) : Prop :=
  ∀ x : List κ × α, (∀ p ∈ ps, Incomparable p x.1) → (x ∈ s.leaves ↔ x ∈ t.leaves)

theorem agreeOutside_singleton {p : List κ} {s t : PathTree κ α} :
    AgreeOutside [p] s t ↔ AgreeBeside p s t := by
  simp [AgreeOutside, AgreeBeside]

theorem AgreeOutside.symm {ps : List (List κ)} {s t : PathTree κ α} (h : AgreeOutside ps s t) :
    AgreeOutside ps t s := fun x hx => (h x hx).symm

theorem AgreeOutside.trans {ps : List (List κ)} {s t u : PathTree κ α} (h : AgreeOutside ps s t)
    (h' : AgreeOutside ps t u) : AgreeOutside ps s u := fun x hx => (h x hx).trans (h' x hx)

theorem AgreeOutside.mono {ps qs : List (List κ)} {s t : PathTree κ α} (h : AgreeOutside ps s t)
    (hqs : ∀ p ∈ ps, ∃ q ∈ qs, q <+: p) : AgreeOutside qs s t := by
  refine fun x hx => h x fun p hp => ?_
  obtain ⟨q, hq, hqp⟩ := hqs p hp
  exact (hx q hq).of_prefix_left hqp

theorem agreeOutside_graftAll (t : PathTree κ α) {ws : List (List κ × PathTree κ α)}
    (h : ws.Pairwise fun w v => Incomparable w.1 v.1) :
    AgreeOutside (ws.map Prod.fst) (t.graftAll ws) t := by
  intro x hx
  rw [mem_graftAll h]
  refine ⟨fun hmem => ?_, fun hmem => Or.inl ⟨hmem, fun w hw => hx _ (List.mem_map_of_mem hw)⟩⟩
  rcases hmem with ⟨hmem, -⟩ | ⟨w, hw, q, -, hpath⟩
  · exact hmem
  · exact absurd ⟨q, hpath.symm⟩ (hx _ (List.mem_map_of_mem hw)).1

/-- With the parts of `u` in which it differs, a tree becomes `u`. -/
theorem graftAll_eq_of_agreeOutside {t u : PathTree κ α} {ws : List (List κ × PathTree κ α)}
    (hpair : ws.Pairwise fun w v => Incomparable w.1 v.1) (hsub : ∀ w ∈ ws, u.subtree w.1 = w.2)
    (hclear : ∀ w ∈ ws, u.ClearAbove w.1) (hagree : AgreeOutside (ws.map Prod.fst) t u) :
    t.graftAll ws = u := by
  ext x
  rw [mem_graftAll hpair]
  by_cases hall : ∀ w ∈ ws, Incomparable w.1 x.1
  · rw [hagree x (by simpa using hall)]
    refine ⟨fun hcase => hcase.elim And.left fun ⟨w, hw, q, _, hpath⟩ => ?_, fun hx => Or.inl ⟨hx, hall⟩⟩
    exact absurd ⟨q, hpath.symm⟩ (hall w hw).1
  · refine ⟨fun hcase => hcase.elim (fun hx => absurd hx.2 hall) fun ⟨w, hw, q, hq, hpath⟩ => ?_,
      fun hx => Or.inr ?_⟩
    · rw [← hsub w hw, mem_subtree, ← hpath] at hq
      exact hq
    · push Not at hall
      obtain ⟨w, hw, hcomp⟩ := hall
      have hwx : w.1 <+: x.1 := by
        by_contra hnot
        have hxw : x.1 <+: w.1 := by
          by_contra hnot'
          exact hcomp ⟨hnot, hnot'⟩
        exact hnot (hclear w hw x hx hxw ▸ List.prefix_refl _)
      obtain ⟨q, hq⟩ := hwx
      refine ⟨w, hw, q, ?_, hq.symm⟩
      rw [← hsub w hw, mem_subtree, hq]
      exact hx

/-- The tree with the given leaves. -/
def ofLeaves (xs : List (List κ × α)) : PathTree κ α :=
  graftAll ∅ (xs.map fun x => (x.1, leaf x.2))

theorem mem_ofLeaves {xs : List (List κ × α)} (h : xs.Pairwise fun x y => Incomparable x.1 y.1)
    {x : List κ × α} : x ∈ (ofLeaves xs).leaves ↔ x ∈ xs := by
  rw [ofLeaves, mem_graftAll (List.pairwise_map.mpr h)]
  constructor
  · intro hcase
    rcases hcase with ⟨hx, -⟩ | ⟨w, hw, q, hq, hpath⟩
    · simp at hx
    · obtain ⟨y, hy, rfl⟩ := List.mem_map.mp hw
      obtain ⟨rfl, hv⟩ : q = [] ∧ x.2 = y.2 := by simpa using hq
      rwa [show x = y from Prod.ext (by simpa using hpath) hv]
  · intro hx
    exact Or.inr ⟨(x.1, leaf x.2), List.mem_map_of_mem hx, [], by simp, by simp⟩

omit [LinearOrder κ] in
/-- Leaves gathered below different keys are incomparable if they are below each. -/
theorem incomparable_flatMap {ι : Type*} {es : List ι} {key : ι → κ} {below : ι → List (List κ × α)}
    (hkeys : es.Pairwise fun e f => key e ≠ key f)
    (h : ∀ e ∈ es, (below e).Pairwise fun x y => Incomparable x.1 y.1) :
    (es.flatMap fun e => (below e).map fun x => (key e :: x.1, x.2)).Pairwise
      fun x y => Incomparable x.1 y.1 := by
  rw [List.flatMap_def, List.pairwise_flatten]
  constructor
  · intro xs hxs
    obtain ⟨e, he, rfl⟩ := List.mem_map.mp hxs
    refine List.pairwise_map.mpr ((h e he).imp fun hinc => ?_)
    exact (Incomparable.append_left (c := [key e])).mpr hinc
  · refine List.pairwise_map.mpr (hkeys.imp fun hne x hx y hy => ?_)
    obtain ⟨x, -, rfl⟩ := List.mem_map.mp hx
    obtain ⟨y, -, rfl⟩ := List.mem_map.mp hy
    exact ⟨fun hp => hne (List.cons_prefix_cons.mp hp).1,
      fun hp => hne (List.cons_prefix_cons.mp hp).1.symm⟩

/-! ### Dropping what is below a path -/

/-- The tree without the leaves at or below `p`. A leaf above `p` stays. -/
def prune (t : PathTree κ α) (p : List κ) : PathTree κ α :=
  ⟨t.leaves.filter fun x => ¬ p <+: x.1, t.ordered.filter _⟩

theorem mem_prune {t : PathTree κ α} {p : List κ} {x : List κ × α} :
    x ∈ (t.prune p).leaves ↔ x ∈ t.leaves ∧ ¬ p <+: x.1 := by
  simp [prune, List.mem_filter]

@[simp] theorem prune_nil (t : PathTree κ α) : t.prune [] = ∅ := by
  ext x
  simp [mem_prune]

theorem subtree_prune_append (t : PathTree κ α) (p q : List κ) :
    (t.prune (p ++ q)).subtree p = (t.subtree p).prune q := by
  ext ⟨r, v⟩
  simp [mem_subtree, mem_prune, List.prefix_append_right_inj]

theorem subtree_prune_of_incomparable {t : PathTree κ α} {p q : List κ} (h : Incomparable p q) :
    (t.prune p).subtree q = t.subtree q := by
  ext ⟨r, v⟩
  rw [mem_subtree, mem_prune, mem_subtree]
  exact and_iff_left (h.of_prefix_right (List.prefix_append q r)).1

/-! ### Changing the values -/

/-- The tree with every value replaced. -/
def map {β : Type*} (f : α → β) (t : PathTree κ α) : PathTree κ β :=
  ⟨t.leaves.map fun x => (x.1, f x.2), List.pairwise_map.mpr t.ordered⟩

theorem mem_map {β : Type*} {f : α → β} {t : PathTree κ α} {x : List κ × β} :
    x ∈ (t.map f).leaves ↔ ∃ v, (x.1, v) ∈ t.leaves ∧ f v = x.2 := by
  simp only [map, List.mem_map, Prod.exists, Prod.ext_iff]
  constructor
  · rintro ⟨q, v, hmem, rfl, hv⟩
    exact ⟨v, hmem, hv⟩
  · rintro ⟨v, hmem, hv⟩
    exact ⟨x.1, v, hmem, rfl, hv⟩

@[simp] theorem map_leaf {β : Type*} (f : α → β) (v : α) :
    (leaf v : PathTree κ α).map f = leaf (f v) := rfl

@[simp] theorem map_empty {β : Type*} (f : α → β) : (∅ : PathTree κ α).map f = ∅ := rfl

theorem map_graft {β : Type*} (f : α → β) (t s : PathTree κ α) (p : List κ) :
    (t.graft p s).map f = (t.map f).graft p (s.map f) := by
  ext x
  simp only [mem_map, mem_graft]
  constructor
  · rintro ⟨v, ⟨hmem, hinc⟩ | ⟨q, hq, hpath⟩, hv⟩
    · exact Or.inl ⟨⟨v, hmem, hv⟩, hinc⟩
    · exact Or.inr ⟨q, ⟨v, hq, hv⟩, hpath⟩
  · rintro (⟨⟨v, hmem, hv⟩, hinc⟩ | ⟨q, ⟨v, hq, hv⟩, hpath⟩)
    · exact ⟨v, Or.inl ⟨hmem, hinc⟩, hv⟩
    · exact ⟨v, Or.inr ⟨q, hq, hpath⟩, hv⟩

theorem map_prune {β : Type*} (f : α → β) (t : PathTree κ α) (p : List κ) :
    (t.prune p).map f = (t.map f).prune p := by
  ext x
  simp only [mem_map, mem_prune]
  exact ⟨fun ⟨v, h, hv⟩ => ⟨⟨v, h.1, hv⟩, h.2⟩, fun ⟨⟨v, h, hv⟩, hp⟩ => ⟨v, ⟨h, hp⟩, hv⟩⟩

theorem map_subtree {β : Type*} (f : α → β) (t : PathTree κ α) (p : List κ) :
    (t.subtree p).map f = (t.map f).subtree p := by
  ext ⟨q, v⟩
  simp only [mem_map, mem_subtree]

end PathTree

/-- A tree of changes: at each leaf the tree to be put there. -/
abbrev Overlay (κ α : Type*) [LinearOrder κ] := PathTree κ (PathTree κ α)

namespace Overlay

open PathTree

variable {κ α : Type*} [LinearOrder κ]

/-! ### Operations -/

/-- The tree after all changes. -/
def apply (o : Overlay κ α) (t : PathTree κ α) : PathTree κ α := t.graftAll o.leaves

/-- The change at or above `p`. -/
def rootMost (o : Overlay κ α) (p : List κ) : Option (List κ × PathTree κ α) :=
  o.leaves.find? fun e => e.1 <+: p

/-- Layer the change of `p` to `s` over the others. -/
def add (o : Overlay κ α) (p : List κ) (s : PathTree κ α) : Overlay κ α :=
  match o.rootMost p with
  | some (r, u) => o.graft r (leaf (u.graft (p.drop r.length) s))
  | none => o.graft p (leaf s)

/-- Take back the changes at or below `p`. -/
def remove (o : Overlay κ α) (p : List κ) : Overlay κ α := o.prune p

/-- What the changes amount to below `p`. -/
def below (o : Overlay κ α) (p : List κ) : Overlay κ α :=
  match o.rootMost p with
  | some (r, u) => leaf (u.subtree (p.drop r.length))
  | none => o.subtree p

/-! ### Their leaves -/

theorem leaves_incomparable (o : Overlay κ α) :
    o.leaves.Pairwise fun w v => Incomparable w.1 v.1 :=
  o.ordered.imp Incomparable.of_before

theorem incomparable_of_mem {o : Overlay κ α} {e f : List κ × PathTree κ α} (he : e ∈ o.leaves)
    (hf : f ∈ o.leaves) (hne : e ≠ f) : Incomparable e.1 f.1 :=
  ⟨fun h => hne (o.eq_of_prefix he hf h), fun h => hne (o.eq_of_prefix hf he h).symm⟩

theorem rootMost_eq_some_iff {o : Overlay κ α} {p : List κ} {e : List κ × PathTree κ α} :
    o.rootMost p = some e ↔ e ∈ o.leaves ∧ e.1 <+: p := by
  unfold rootMost
  constructor
  · intro h
    exact ⟨List.mem_of_find?_eq_some h, by simpa using List.find?_some h⟩
  · rintro ⟨he, hp⟩
    cases hf : o.leaves.find? fun e => e.1 <+: p with
    | none => exact absurd hp (by simpa using List.find?_eq_none.mp hf e he)
    | some f =>
        have hfp : f.1 <+: p := by simpa using List.find?_some hf
        have hfe := List.mem_of_find?_eq_some hf
        -- two leaves on the way to `p` are comparable, hence the same
        rcases List.prefix_or_prefix_of_prefix hfp hp with h | h
        · rw [o.eq_of_prefix hfe he h]
        · rw [o.eq_of_prefix he hfe h]

theorem rootMost_eq_none_iff {o : Overlay κ α} {p : List κ} :
    o.rootMost p = none ↔ ∀ e ∈ o.leaves, ¬ e.1 <+: p := by
  simp [rootMost]

theorem of_rootMost_eq_some {o : Overlay κ α} {p : List κ} {e : List κ × PathTree κ α}
    (h : o.rootMost p = some e) : e ∈ o.leaves ∧ e.1 <+: p := rootMost_eq_some_iff.mp h

theorem not_prefix_of_rootMost_eq_none {o : Overlay κ α} {p : List κ} (h : o.rootMost p = none) :
    ∀ e ∈ o.leaves, ¬ e.1 <+: p := rootMost_eq_none_iff.mp h

theorem mem_apply {o : Overlay κ α} {t : PathTree κ α} {x : List κ × α} :
    x ∈ (o.apply t).leaves ↔
      (x ∈ t.leaves ∧ ∀ e ∈ o.leaves, Incomparable e.1 x.1) ∨
        ∃ e ∈ o.leaves, ∃ q, (q, x.2) ∈ e.2.leaves ∧ x.1 = e.1 ++ q :=
  mem_graftAll o.leaves_incomparable

theorem mem_remove {o : Overlay κ α} {p : List κ} {e : List κ × PathTree κ α} :
    e ∈ (o.remove p).leaves ↔ e ∈ o.leaves ∧ ¬ p <+: e.1 := mem_prune

/-- The leaves after `add`: the one the change went into, or else the change itself,
and those it is incomparable with. -/
theorem mem_add {o : Overlay κ α} {p : List κ} {s : PathTree κ α} {e : List κ × PathTree κ α} :
    e ∈ (o.add p s).leaves ↔
      (∃ u q, (e.1, u) ∈ o.leaves ∧ p = e.1 ++ q ∧ e.2 = u.graft q s) ∨
      ((∀ f ∈ o.leaves, ¬ f.1 <+: p) ∧ e = (p, s)) ∨
      (e ∈ o.leaves ∧ Incomparable p e.1) := by
  unfold add
  split
  · next r u hroot =>
    obtain ⟨hr, ⟨q, rfl⟩⟩ := of_rootMost_eq_some hroot
    rw [List.drop_left, mem_graft]
    constructor
    · intro hcase
      rcases hcase with ⟨he, hinc⟩ | ⟨q', hq', hpath⟩
      · exact Or.inr (Or.inr ⟨he, hinc.of_prefix_left (List.prefix_append r q)⟩)
      · obtain ⟨rfl, hs⟩ : q' = [] ∧ e.2 = u.graft q s := by simpa using hq'
        rw [List.append_nil] at hpath
        exact Or.inl ⟨u, q, by rwa [hpath], by rw [hpath], hs⟩
    · intro hcase
      rcases hcase with ⟨u', q', hu', hq', hs⟩ | ⟨hnone, -⟩ | ⟨he, hinc⟩
      · have hsame : (e.1, u') = (r, u) := by
          rcases List.prefix_or_prefix_of_prefix ⟨q', hq'.symm⟩ (List.prefix_append r q) with h | h
          · exact o.eq_of_prefix hu' hr h
          · exact (o.eq_of_prefix hr hu' h).symm
        obtain ⟨he, rfl⟩ := Prod.mk.inj hsame
        rw [he] at hq' ⊢
        obtain rfl := List.append_cancel_left hq'
        exact Or.inr ⟨[], by simpa using hs, by simp⟩
      · exact absurd (List.prefix_append r q) (hnone _ hr)
      · refine Or.inl ⟨he, incomparable_of_mem hr he fun h => ?_⟩
        exact hinc.2 (by rw [← h]; exact List.prefix_append r q)
  · next hroot =>
    have hnone := not_prefix_of_rootMost_eq_none hroot
    rw [mem_graft]
    constructor
    · intro hcase
      rcases hcase with he | ⟨q, hq, hpath⟩
      · exact Or.inr (Or.inr he)
      · obtain ⟨rfl, hs⟩ : q = [] ∧ e.2 = s := by simpa using hq
        exact Or.inr (Or.inl ⟨hnone, Prod.ext (by simpa using hpath) hs⟩)
    · intro hcase
      rcases hcase with ⟨u, q, hu, hq, -⟩ | ⟨-, rfl⟩ | he
      · exact absurd ⟨q, hq.symm⟩ (hnone _ hu)
      · exact Or.inr ⟨[], by simp, by simp⟩
      · exact Or.inl he

/-! ### Layering is faithful -/

@[simp] theorem apply_empty (t : PathTree κ α) : (∅ : Overlay κ α).apply t = t := rfl

/-- Below a leaf of the overlay stands what that leaf holds. -/
theorem subtree_apply_of_mem {o : Overlay κ α} {r : List κ} {u : PathTree κ α}
    (h : (r, u) ∈ o.leaves) (t : PathTree κ α) : (o.apply t).subtree r = u := by
  ext ⟨q, v⟩
  rw [mem_subtree, mem_apply]
  constructor
  · intro hcase
    rcases hcase with ⟨-, hall⟩ | ⟨e, he, q', hq', hpath⟩
    · exact absurd (List.prefix_append r q) (hall _ h).1
    · have hsame : e = (r, u) := by
        rcases List.prefix_or_prefix_of_prefix ⟨q', hpath.symm⟩ (List.prefix_append r q) with h' | h'
        · exact o.eq_of_prefix he h h'
        · exact (o.eq_of_prefix h he h').symm
      subst hsame
      rwa [List.append_cancel_left hpath]
  · intro hq
    exact Or.inr ⟨(r, u), h, q, hq, rfl⟩

/-- A leaf with none strictly above it can be put last. -/
theorem apply_graft_leaf {o : Overlay κ α} {p : List κ} (h : ∀ e ∈ o.leaves, e.1 <+: p → e.1 = p)
    (s t : PathTree κ α) : apply (o.graft p (leaf s)) t = (o.apply t).graft p s := by
  have hleaf : ∀ {e : List κ × PathTree κ α}, e ∈ (o.graft p (leaf s)).leaves ↔
      (e ∈ o.leaves ∧ Incomparable p e.1) ∨ e = (p, s) := fun {e} => by
    simp [mem_graft, Prod.ext_iff, and_comm]
  ext x
  rw [mem_graft, mem_apply, mem_apply]
  simp only [hleaf]
  constructor
  · intro hcase
    rcases hcase with ⟨hx, hall⟩ | ⟨e, ⟨he, hinc⟩ | rfl, q, hq, hpath⟩
    · refine Or.inl ⟨Or.inl ⟨hx, fun e he => ?_⟩, hall _ (Or.inr rfl)⟩
      by_cases hpe : p <+: e.1
      · exact (hall (p, s) (Or.inr rfl)).of_prefix_left hpe
      · exact hall e (Or.inl ⟨he, hpe, fun hep => hpe (by rw [h e he hep])⟩)
    · exact Or.inl ⟨Or.inr ⟨e, he, q, hq, hpath⟩, hinc.of_prefix_right ⟨q, hpath.symm⟩⟩
    · exact Or.inr ⟨q, hq, hpath⟩
  · intro hcase
    rcases hcase with ⟨⟨hx, hall⟩ | ⟨e, he, q, hq, hpath⟩, hinc⟩ | ⟨q, hq, hpath⟩
    · refine Or.inl ⟨hx, fun e he => ?_⟩
      rcases he with ⟨he, -⟩ | rfl
      · exact hall e he
      · exact hinc
    · refine Or.inr ⟨e, Or.inl ⟨he, fun hpe => hinc.1 (hpe.trans ⟨q, hpath.symm⟩), fun hep => ?_⟩,
        q, hq, hpath⟩
      exact hinc.1 (by rw [← h e he hep]; exact ⟨q, hpath.symm⟩)
    · exact Or.inr ⟨(p, s), Or.inr rfl, q, hq, hpath⟩

/-- **Layering.** Applying a change that was layered over others is making it after them. -/
theorem apply_add (o : Overlay κ α) (p : List κ) (s t : PathTree κ α) :
    (o.add p s).apply t = (o.apply t).graft p s := by
  unfold add
  split
  · next r u hroot =>
    obtain ⟨hr, ⟨q, rfl⟩⟩ := of_rootMost_eq_some hroot
    have honly : ∀ e ∈ o.leaves, e.1 <+: r → e.1 = r := fun e he h => by
      rw [o.eq_of_prefix he hr h]
    rw [List.drop_left, apply_graft_leaf honly, graft_append, subtree_apply_of_mem hr]
  · next hroot =>
    have hnone := not_prefix_of_rootMost_eq_none hroot
    exact apply_graft_leaf (fun e he h => absurd h (hnone e he)) s t

/-- **Locality.** Below `p` the overlay does what the overlay below `p` does. -/
theorem subtree_apply (o : Overlay κ α) (p : List κ) (t : PathTree κ α) :
    (o.apply t).subtree p = (o.below p).apply (t.subtree p) := by
  unfold below
  split
  · next r u hroot =>
    obtain ⟨hr, ⟨q, rfl⟩⟩ := of_rootMost_eq_some hroot
    rw [← subtree_subtree, subtree_apply_of_mem hr, List.drop_left]
    simp [apply]
  · next hroot =>
    have hnone := not_prefix_of_rootMost_eq_none hroot
    ext ⟨x, v⟩
    simp only [mem_subtree, mem_apply]
    constructor
    · intro hcase
      rcases hcase with ⟨hx, hall⟩ | ⟨e, he, q, hq, hpath⟩
      · exact Or.inl ⟨hx, fun e he => by simpa using hall (p ++ e.1, e.2) (mem_subtree.mp he)⟩
      · rcases List.prefix_or_prefix_of_prefix ⟨q, hpath.symm⟩ (List.prefix_append p x) with h | h
        · exact absurd h (hnone e he)
        · obtain ⟨r, hr⟩ := h
          rw [← hr, List.append_assoc] at hpath
          exact Or.inr ⟨(r, e.2), mem_subtree.mpr (by rwa [hr]), q, hq, List.append_cancel_left hpath⟩
    · intro hcase
      rcases hcase with ⟨hx, hall⟩ | ⟨e, he, q, hq, rfl⟩
      · refine Or.inl ⟨hx, fun e he => ?_⟩
        by_cases hp : p <+: e.1
        · obtain ⟨r, hr⟩ := hp
          have hinc := hall (r, e.2) (mem_subtree.mpr (by rwa [hr]))
          rw [← hr]
          exact Incomparable.append_left.mpr hinc
        · exact Incomparable.of_prefix_right ⟨hnone e he, hp⟩ (List.prefix_append p x)
      · exact Or.inr ⟨(p ++ e.1, e.2), mem_subtree.mp he, q, hq, by rw [List.append_assoc]⟩

@[simp] theorem add_nil (o : Overlay κ α) (s : PathTree κ α) : o.add [] s = leaf s := by
  unfold add
  split
  · next r u hroot =>
    obtain rfl : r = [] := List.prefix_nil.mp (of_rootMost_eq_some hroot).2
    simp
  · rw [graft_nil]

@[simp] theorem below_nil (o : Overlay κ α) : o.below [] = o := by
  unfold below
  split
  · next r u hroot =>
    obtain ⟨hr, hnil⟩ := of_rootMost_eq_some hroot
    obtain rfl : r = [] := List.prefix_nil.mp hnil
    ext e
    simp only [List.length_nil, List.drop_zero, subtree_nil, leaves_leaf, List.mem_singleton]
    refine ⟨?_, fun he => (o.eq_of_prefix hr he List.nil_prefix).symm⟩
    rintro rfl
    exact hr
  · rw [subtree_nil]

/-! ### What is hidden -/

/-- Nothing hides `p` in the overlay below `r` exactly when nothing hides `r ++ p`. -/
theorem rootMost_below_eq_none_iff {o : Overlay κ α} {r p : List κ} :
    (o.below r).rootMost p = none ↔ o.rootMost (r ++ p) = none := by
  simp only [rootMost_eq_none_iff]
  unfold below
  split
  · next q u hroot =>
    obtain ⟨hmem, hqr⟩ := of_rootMost_eq_some hroot
    refine iff_of_false (fun h => h ([], u.subtree (r.drop q.length)) (by simp) List.nil_prefix) ?_
    exact fun h => h _ hmem (hqr.trans (List.prefix_append r p))
  · next hroot =>
    have hnone := not_prefix_of_rootMost_eq_none hroot
    constructor
    · intro h e he hep
      rcases List.prefix_or_prefix_of_prefix hep (List.prefix_append r p) with her | ⟨q, hq⟩
      · exact hnone e he her
      · refine h (q, e.2) (mem_subtree.mpr (by rwa [hq])) ?_
        rwa [← hq, List.prefix_append_right_inj] at hep
    · rintro h ⟨q, u⟩ hmem hq
      exact h _ (mem_subtree.mp hmem) ((List.prefix_append_right_inj r).mpr hq)

/-- A change at or above the root of what is below. -/
theorem below_of_mem {o : Overlay κ α} {r q : List κ} {u : PathTree κ α} (h : (r, u) ∈ o.leaves) :
    o.below (r ++ q) = leaf (u.subtree q) := by
  have hroot : o.rootMost (r ++ q) = some (r, u) :=
    rootMost_eq_some_iff.mpr ⟨h, List.prefix_append r q⟩
  rw [below, hroot]
  simp

theorem below_of_rootMost_eq_none {o : Overlay κ α} {p : List κ} (h : o.rootMost p = none) :
    o.below p = o.subtree p := by
  rw [below, h]

/-- Without a change strictly above the path, those at and below it are there. -/
theorem below_eq_subtree {o : Overlay κ α} {p : List κ} (h : ClearAbove o p) : o.below p = o.subtree p := by
  cases hroot : o.rootMost p with
  | none => exact below_of_rootMost_eq_none hroot
  | some e =>
      obtain ⟨hmem, hep⟩ := of_rootMost_eq_some hroot
      obtain ⟨r, u⟩ := e
      obtain rfl : r = p := h _ hmem hep
      have hbelow := below_of_mem (q := []) hmem
      rw [List.append_nil, subtree_nil] at hbelow
      rw [hbelow]
      ext ⟨q, v⟩
      rw [mem_subtree, leaves_leaf, List.mem_singleton]
      constructor
      · intro heq
        obtain ⟨rfl, rfl⟩ := Prod.mk.inj heq
        rwa [List.append_nil]
      · intro hq
        have hsame := o.eq_of_prefix hmem hq (List.prefix_append r q)
        simpa using hsame.symm

/-- What is below `p` below `r`. -/
theorem below_below (o : Overlay κ α) (r p : List κ) : (o.below r).below p = o.below (r ++ p) := by
  cases hroot : o.rootMost r with
  | some e =>
      obtain ⟨hmem, ⟨q, rfl⟩⟩ := of_rootMost_eq_some hroot
      have hleaf := below_of_mem (q := p) (show ([], e.2.subtree q) ∈
        (leaf (e.2.subtree q) : Overlay κ α).leaves by simp)
      rw [below_of_mem hmem, List.append_assoc, below_of_mem hmem]
      simpa using hleaf
  | none =>
      rw [below_of_rootMost_eq_none hroot]
      cases hroot' : o.rootMost (r ++ p) with
      | none =>
          have hbelow : rootMost (o.subtree r) p = none := by
            rw [← below_of_rootMost_eq_none hroot]
            exact rootMost_below_eq_none_iff.mpr hroot'
          rw [below_of_rootMost_eq_none hbelow, below_of_rootMost_eq_none hroot', subtree_subtree]
      | some e =>
          obtain ⟨hmem, hep⟩ := of_rootMost_eq_some hroot'
          rcases List.prefix_or_prefix_of_prefix hep (List.prefix_append r p) with her | ⟨q, hq⟩
          · exact absurd her (not_prefix_of_rootMost_eq_none hroot e hmem)
          · rw [← hq, List.prefix_append_right_inj] at hep
            obtain ⟨q', rfl⟩ := hep
            have hsub : (q, e.2) ∈ (o.subtree r).leaves := mem_subtree.mpr (by rwa [hq])
            have hmem' : (r ++ q, e.2) ∈ o.leaves := by rwa [hq]
            rw [below_of_mem hsub, ← List.append_assoc, below_of_mem hmem']

/-- Applying an overlay changes its paths only. -/
theorem agreeOutside_apply (o : Overlay κ α) (t : PathTree κ α) :
    AgreeOutside (o.leaves.map Prod.fst) (o.apply t) t := agreeOutside_graftAll t o.leaves_incomparable

/-- Trees that agree beside `p` still do after applying an overlay. -/
theorem agreeBeside_apply (o : Overlay κ α) {p : List κ} {s t : PathTree κ α}
    (h : AgreeBeside p s t) : AgreeBeside p (o.apply s) (o.apply t) := by
  intro x hx
  rw [mem_apply, mem_apply, h x hx]

/-- Where a change hides `p`, what is there makes no difference. -/
theorem apply_congr_of_hidden {o : Overlay κ α} {p : List κ} {s t : PathTree κ α}
    (hp : o.rootMost p ≠ none) (h : AgreeBeside p s t) : o.apply s = o.apply t := by
  obtain ⟨e, he⟩ := Option.ne_none_iff_exists'.mp hp
  obtain ⟨hmem, hep⟩ := of_rootMost_eq_some he
  ext x
  rw [mem_apply, mem_apply]
  refine or_congr_left (and_congr_left fun hall => h x ?_)
  exact (hall e hmem).of_prefix_left hep

theorem clearAbove_apply {o : Overlay κ α} {p : List κ} {s : PathTree κ α}
    (hp : o.rootMost p = none) (hs : s.ClearAbove p) : (o.apply s).ClearAbove p := by
  intro x hx hxp
  rcases mem_apply.mp hx with ⟨hx, -⟩ | ⟨e, he, q, -, hpath⟩
  · exact hs x hx hxp
  · have hex : e.1 <+: x.1 := ⟨q, hpath.symm⟩
    exact absurd (hex.trans hxp) (not_prefix_of_rootMost_eq_none hp e he)

/-- **Updates reach through.** Where nothing hides `p`, a change of the base tree at `p`
shows as a change at `p`. -/
theorem apply_graft {o : Overlay κ α} {p : List κ} (hp : o.rootMost p = none)
    (s u : PathTree κ α) :
    o.apply (s.graft p u) = (o.apply s).graft p ((o.below p).apply u) := by
  have hbeside : AgreeBeside p (o.apply (s.graft p u)) ((o.apply s).graft p ((o.below p).apply u)) :=
    (agreeBeside_apply o (AgreeBeside.of_graft s p u)).trans (AgreeBeside.of_graft _ p _).symm
  refine hbeside.eq ?_ (clearAbove_apply hp (clearAbove_graft s u p)) (clearAbove_graft _ _ p)
  rw [subtree_apply, subtree_graft_self, subtree_graft_self]

/-- A change at the root hides everything. -/
theorem rootMost_ne_none_of_nil {o : Overlay κ α} (h : o.rootMost [] ≠ none) (p : List κ) :
    o.rootMost p ≠ none := by
  obtain ⟨e, he⟩ := Option.ne_none_iff_exists'.mp h
  obtain ⟨hmem, hnil⟩ := of_rootMost_eq_some he
  exact fun hnone => not_prefix_of_rootMost_eq_none hnone e hmem (hnil.trans List.nil_prefix)

/-- Changes that delete nothing leave something behind. -/
theorem apply_ne_empty {o : Overlay κ α} (ho : ∀ e ∈ o.leaves, e.2 ≠ ∅) {t : PathTree κ α}
    (ht : o ≠ ∅ ∨ t ≠ ∅) : o.apply t ≠ ∅ := by
  by_cases hnil : o = ∅
  · rw [hnil, apply_empty]
    exact ht.resolve_left fun hne => hne hnil
  · obtain ⟨e, he⟩ := ne_empty_iff.mp hnil
    intro hempty
    exact ho e he (by rw [← subtree_apply_of_mem he t, hempty, subtree_empty])

/-! ### How changes compose -/

/-- A change covers the earlier ones at or below its path. -/
theorem add_shadowed {o : Overlay κ α} {p r : List κ} {s u : PathTree κ α} (h : r <+: p) :
    (o.add p s).add r u = o.add r u := by
  ext e
  simp only [mem_add]
  constructor
  · intro hcase
    rcases hcase with ⟨w, q, ⟨w', q', hw', hp, rfl⟩ | ⟨hnone, he⟩ | ⟨hw, hinc⟩, hr, hs⟩ | ⟨hnone, rfl⟩ |
      ⟨⟨w, q, hw, hp, hs⟩ | ⟨-, rfl⟩ | ⟨he, -⟩, hinc⟩
    · -- `p` went into the leaf that `r` goes into
      refine Or.inl ⟨w', q, hw', hr, ?_⟩
      rw [hs, graft_graft_of_prefix]
      rw [hr, hp] at h
      exact (List.prefix_append_right_inj e.1).mp h
    · obtain ⟨hep, rfl⟩ := Prod.mk.inj he
      obtain rfl : r = p := h.eq_of_length_le (by rw [hr, ← hep]; simp)
      obtain rfl : q = [] := by simpa [hep] using hr
      exact Or.inr (Or.inl ⟨hnone, Prod.ext hep (by simpa using hs)⟩)
    · exact absurd ((List.prefix_append e.1 q).trans (hr ▸ h)) hinc.2
    · refine Or.inr (Or.inl ⟨fun f hf hfr => ?_, rfl⟩)
      obtain ⟨q, hq⟩ := hfr.trans h
      exact hnone (f.1, f.2.graft q s) (Or.inl ⟨f.2, q, hf, hq.symm, rfl⟩) hfr
    · exact absurd (List.prefix_or_prefix_of_prefix h ⟨q, hp.symm⟩) (not_or.mpr hinc)
    · exact absurd h hinc.1
    · exact Or.inr (Or.inr ⟨he, hinc⟩)
  · intro hcase
    rcases hcase with ⟨w, q, hw, hr, hs⟩ | ⟨hnone, rfl⟩ | ⟨he, hinc⟩
    · obtain ⟨q', rfl⟩ := h
      refine Or.inl ⟨w.graft (q ++ q') s, q, Or.inl ⟨w, q ++ q', hw, by rw [hr, List.append_assoc], rfl⟩,
        hr, ?_⟩
      rw [hs, graft_graft_of_prefix (List.prefix_append q q')]
    · by_cases hroot : ∀ f ∈ o.leaves, ¬ f.1 <+: p
      · by_cases hpr : p = r
        · subst hpr
          exact Or.inl ⟨s, [], Or.inr (Or.inl ⟨hroot, rfl⟩), by simp, by simp⟩
        · refine Or.inr (Or.inl ⟨fun f hf hfr => ?_, rfl⟩)
          rcases hf with ⟨w, q, hw, -, -⟩ | ⟨-, rfl⟩ | ⟨hf, -⟩
          · exact hnone _ hw hfr
          · exact hpr (hfr.eq_of_length_le h.length_le)
          · exact hnone f hf hfr
      · refine Or.inr (Or.inl ⟨fun f hf hfr => ?_, rfl⟩)
        rcases hf with ⟨w, q, hw, -, -⟩ | ⟨hroot', -⟩ | ⟨hf, -⟩
        · exact hnone _ hw hfr
        · exact hroot hroot'
        · exact hnone f hf hfr
    · exact Or.inr (Or.inr ⟨Or.inr (Or.inr ⟨he, hinc.of_prefix_left h⟩), hinc⟩)

/-- Changes at incomparable paths commute. -/
theorem add_comm {o : Overlay κ α} {p q : List κ} {s u : PathTree κ α} (h : Incomparable p q) :
    (o.add p s).add q u = (o.add q u).add p s := by
  have hle : ∀ {p q : List κ} {s u : PathTree κ α} {e : List κ × PathTree κ α}, Incomparable p q →
      e ∈ ((o.add p s).add q u).leaves → e ∈ ((o.add q u).add p s).leaves := by
    intro p q s u e h he
    simp only [mem_add] at he ⊢
    rcases he with ⟨w, r, ⟨w', r', hw', hp, rfl⟩ | ⟨-, he⟩ | ⟨hw, hinc⟩, hq, hs⟩ | ⟨hnone, rfl⟩ |
      ⟨⟨w, r, hw, hp, hs⟩ | ⟨hnone, rfl⟩ | ⟨he, hincp⟩, hincq⟩
    · refine Or.inl ⟨w'.graft r u, r', Or.inl ⟨w', r, hw', hq, rfl⟩, hp, ?_⟩
      rw [hp, hq, Incomparable.append_left] at h
      rw [hs, graft_comm h]
    · obtain ⟨he, -⟩ := Prod.mk.inj he
      exact absurd ⟨r, by rw [hq, he]⟩ h.1
    · exact Or.inr (Or.inr ⟨Or.inl ⟨w, r, hw, hq, hs⟩, hinc⟩)
    · refine Or.inr (Or.inr ⟨Or.inr (Or.inl ⟨fun f hf hfq => ?_, rfl⟩), h⟩)
      by_cases hfp : f.1 <+: p
      · obtain ⟨r, hr⟩ := hfp
        exact hnone (f.1, f.2.graft r s) (Or.inl ⟨f.2, r, hf, hr.symm, rfl⟩) hfq
      · exact hnone f (Or.inr (Or.inr ⟨hf, fun hpf => h.1 (hpf.trans hfq), hfp⟩)) hfq
    · exact Or.inl ⟨w, r, Or.inr (Or.inr ⟨hw, hincq⟩), hp, hs⟩
    · refine Or.inr (Or.inl ⟨fun f hf hfp => ?_, rfl⟩)
      rcases hf with ⟨w, r, hw, -, -⟩ | ⟨-, rfl⟩ | ⟨hf, -⟩
      · exact hnone _ hw hfp
      · exact h.2 hfp
      · exact hnone f hf hfp
    · exact Or.inr (Or.inr ⟨Or.inr (Or.inr ⟨he, hincq⟩), hincp⟩)
  ext e
  exact ⟨hle h, hle h.symm⟩

/-- Taking back is untouched by a change elsewhere. -/
theorem remove_add_of_incomparable {o : Overlay κ α} {p q : List κ} {s : PathTree κ α}
    (h : Incomparable p q) : (o.add q s).remove p = (o.remove p).add q s := by
  have habove : ∀ {r : List κ}, r <+: q → ¬ p <+: r := fun hr hp => h.1 (hp.trans hr)
  ext e
  simp only [mem_remove, mem_add]
  constructor
  · intro hcase
    rcases hcase with ⟨⟨w, r, hw, hq, hs⟩ | ⟨hnone, he⟩ | ⟨he, hinc⟩, hp⟩
    · exact Or.inl ⟨w, r, ⟨hw, hp⟩, hq, hs⟩
    · exact Or.inr (Or.inl ⟨fun f hf => hnone f hf.1, he⟩)
    · exact Or.inr (Or.inr ⟨⟨he, hp⟩, hinc⟩)
  · intro hcase
    rcases hcase with ⟨w, r, ⟨hw, hp⟩, hq, hs⟩ | ⟨hnone, rfl⟩ | ⟨⟨he, hp⟩, hinc⟩
    · exact ⟨Or.inl ⟨w, r, hw, hq, hs⟩, hp⟩
    · exact ⟨Or.inr (Or.inl ⟨fun f hf hfq => hnone f ⟨hf, habove hfq⟩ hfq, rfl⟩), h.1⟩
    · exact ⟨Or.inr (Or.inr ⟨he, hinc⟩), hp⟩

/-- A change that met no other one is taken back without trace. -/
theorem remove_add_self {o : Overlay κ α} {p : List κ} {s : PathTree κ α}
    (h : ∀ e ∈ o.leaves, Incomparable p e.1) : (o.add p s).remove p = o := by
  ext e
  simp only [mem_remove, mem_add]
  constructor
  · intro hcase
    rcases hcase with ⟨⟨w, r, hw, hp, -⟩ | ⟨-, rfl⟩ | ⟨he, -⟩, hpe⟩
    · exact absurd ⟨r, hp.symm⟩ (h _ hw).2
    · exact absurd (List.prefix_refl p) hpe
    · exact he
  · intro he
    exact ⟨Or.inr (Or.inr ⟨he, h e he⟩), (h e he).1⟩

/-! ### Layering a list of changes -/

/-- The changes of a list, the later over the earlier. -/
def addAll (o : Overlay κ α) (ws : List (List κ × PathTree κ α)) : Overlay κ α :=
  ws.foldl (fun o w => o.add w.1 w.2) o

/-- The overlay that consists of the given changes. -/
def ofWrites (ws : List (List κ × PathTree κ α)) : Overlay κ α := addAll ∅ ws

/-- Take back the changes at several paths. -/
def removeAll (o : Overlay κ α) (ps : List (List κ)) : Overlay κ α := ps.foldl remove o

@[simp] theorem addAll_nil (o : Overlay κ α) : o.addAll [] = o := rfl

@[simp] theorem addAll_cons (o : Overlay κ α) (w : List κ × PathTree κ α)
    (ws : List (List κ × PathTree κ α)) : o.addAll (w :: ws) = (o.add w.1 w.2).addAll ws := rfl

theorem addAll_append (o : Overlay κ α) (ws vs : List (List κ × PathTree κ α)) :
    o.addAll (ws ++ vs) = (o.addAll ws).addAll vs := List.foldl_append

@[simp] theorem removeAll_nil (o : Overlay κ α) : o.removeAll [] = o := rfl

@[simp] theorem removeAll_cons (o : Overlay κ α) (p : List κ) (ps : List (List κ)) :
    o.removeAll (p :: ps) = (o.remove p).removeAll ps := rfl

theorem apply_addAll (o : Overlay κ α) (ws : List (List κ × PathTree κ α)) (t : PathTree κ α) :
    (o.addAll ws).apply t = (o.apply t).graftAll ws := by
  induction ws generalizing o with
  | nil => rfl
  | cons w ws ih => rw [addAll_cons, ih, apply_add, graftAll_cons]

/-- Applying a layered list is making its changes in order. -/
theorem apply_ofWrites (ws : List (List κ × PathTree κ α)) (t : PathTree κ α) :
    (ofWrites ws).apply t = t.graftAll ws := apply_addAll ∅ ws t

/-- Every leaf of a layered list is at the path of one of its changes. -/
theorem exists_write_of_mem_addAll {o : Overlay κ α} {ws : List (List κ × PathTree κ α)}
    {e : List κ × PathTree κ α} (h : e ∈ (o.addAll ws).leaves) :
    (∃ f ∈ o.leaves, f.1 = e.1) ∨ ∃ w ∈ ws, w.1 = e.1 := by
  induction ws generalizing o with
  | nil => exact Or.inl ⟨e, h, rfl⟩
  | cons w ws ih =>
      rcases ih h with ⟨f, hf, hfe⟩ | ⟨v, hv, hve⟩
      · rcases mem_add.mp hf with ⟨u, q, hu, -, -⟩ | ⟨-, rfl⟩ | ⟨hf, -⟩
        · exact Or.inl ⟨_, hu, hfe⟩
        · exact Or.inr ⟨w, List.mem_cons_self, hfe⟩
        · exact Or.inl ⟨f, hf, hfe⟩
      · exact Or.inr ⟨v, List.mem_cons_of_mem w hv, hve⟩

/-- What hides a path is a change at or above it. -/
theorem rootMost_add_ne_none_iff {o : Overlay κ α} {p q : List κ} {s : PathTree κ α} :
    (o.add q s).rootMost p ≠ none ↔ o.rootMost p ≠ none ∨ q <+: p := by
  simp only [Ne, rootMost_eq_none_iff]
  push Not
  constructor
  · rintro ⟨e, he, hep⟩
    rcases mem_add.mp he with ⟨u, r, hu, -, -⟩ | ⟨-, rfl⟩ | ⟨he, -⟩
    · exact Or.inl ⟨_, hu, hep⟩
    · exact Or.inr hep
    · exact Or.inl ⟨e, he, hep⟩
  · have hcovered : q <+: p → ∃ e ∈ (o.add q s).leaves, e.1 <+: p := by
      intro hqp
      by_cases hroot : ∃ f ∈ o.leaves, f.1 <+: q
      · obtain ⟨f, hf, r, hr⟩ := hroot
        exact ⟨(f.1, f.2.graft r s), mem_add.mpr (Or.inl ⟨f.2, r, hf, hr.symm, rfl⟩),
          (show f.1 <+: q from ⟨r, hr⟩).trans hqp⟩
      · push Not at hroot
        exact ⟨(q, s), mem_add.mpr (Or.inr (Or.inl ⟨hroot, rfl⟩)), hqp⟩
    rintro (⟨e, he, hep⟩ | hqp)
    · by_cases heq : e.1 <+: q
      · obtain ⟨r, hr⟩ := heq
        exact ⟨(e.1, e.2.graft r s), mem_add.mpr (Or.inl ⟨e.2, r, he, hr.symm, rfl⟩), hep⟩
      · by_cases hqe : q <+: e.1
        · exact hcovered (hqe.trans hep)
        · exact ⟨e, mem_add.mpr (Or.inr (Or.inr ⟨he, hqe, heq⟩)), hep⟩
    · exact hcovered hqp

theorem rootMost_addAll_ne_none_iff {o : Overlay κ α} {p : List κ}
    {ws : List (List κ × PathTree κ α)} :
    (o.addAll ws).rootMost p ≠ none ↔ o.rootMost p ≠ none ∨ ∃ w ∈ ws, w.1 <+: p := by
  induction ws generalizing o with
  | nil => simp
  | cons w ws ih =>
      rw [addAll_cons, ih, rootMost_add_ne_none_iff, or_assoc]
      simp

theorem exists_write_of_mem {ws : List (List κ × PathTree κ α)} {e : List κ × PathTree κ α}
    (h : e ∈ (ofWrites ws).leaves) : ∃ w ∈ ws, w.1 = e.1 := by
  rcases exists_write_of_mem_addAll h with ⟨f, hf, -⟩ | h
  · simp at hf
  · exact h

/-- Overlays that a change at `r` makes equal stay so under a further change. -/
theorem add_congr {o o' : Overlay κ α} {r q : List κ} {s u : PathTree κ α}
    (h : o.add r s = o'.add r s) : (o.add q u).add r s = (o'.add q u).add r s := by
  by_cases hrq : r <+: q
  · rw [add_shadowed hrq, add_shadowed hrq, h]
  by_cases hqr : q <+: r
  · -- the further change covers `r`, hence all of the difference
    have : o.add q u = o'.add q u := by
      rw [← add_shadowed (s := s) hqr, h, add_shadowed hqr]
    rw [this]
  · rw [add_comm ⟨hqr, hrq⟩, h, add_comm ⟨hrq, hqr⟩]

/-- A change that a later one covers has left no trace. -/
theorem addAll_drop_shadowed {o : Overlay κ α} {w : List κ × PathTree κ α}
    {bs : List (List κ × PathTree κ α)} (h : ∃ c ∈ bs, c.1 <+: w.1) :
    (o.add w.1 w.2).addAll bs = o.addAll bs := by
  obtain ⟨c, hc, hcw⟩ := h
  obtain ⟨bs₁, bs₂, rfl⟩ := List.append_of_mem hc
  rw [addAll_append, addAll_append, addAll_cons, addAll_cons]
  congr 1
  have hstart : (o.add w.1 w.2).add c.1 c.2 = o.add c.1 c.2 := add_shadowed hcw
  generalize o.add w.1 w.2 = o' at hstart
  induction bs₁ generalizing o o' with
  | nil => exact hstart
  | cons b bs₁ ih => exact ih (by simp) _ (add_congr hstart)

/-- Changes each of which a later one covers have left no trace. -/
theorem addAll_drop_all_shadowed {o : Overlay κ α} {ws bs : List (List κ × PathTree κ α)}
    (h : ∀ w ∈ ws, ∃ c ∈ bs, c.1 <+: w.1) : (o.addAll ws).addAll bs = o.addAll bs := by
  induction ws generalizing o with
  | nil => rfl
  | cons w ws ih =>
      obtain ⟨hw, hws⟩ := List.forall_mem_cons.mp h
      rw [addAll_cons, ih hws, addAll_drop_shadowed hw]

theorem remove_addAll_of_incomparable {o : Overlay κ α} {p : List κ}
    {bs : List (List κ × PathTree κ α)} (h : ∀ b ∈ bs, Incomparable p b.1) :
    (o.addAll bs).remove p = (o.remove p).addAll bs := by
  induction bs generalizing o with
  | nil => rfl
  | cons b bs ih =>
      obtain ⟨hb, hbs⟩ := List.forall_mem_cons.mp h
      rw [addAll_cons, ih hbs, remove_add_of_incomparable hb, addAll_cons]

/-- Changes incomparable with each other and with all the rest are taken back exactly. -/
theorem removeAll_addAll {o : Overlay κ α} {ws bs : List (List κ × PathTree κ α)}
    (hws : ws.Pairwise fun w v => Incomparable w.1 v.1)
    (ho : ∀ w ∈ ws, ∀ e ∈ o.leaves, Incomparable w.1 e.1)
    (hbs : ∀ w ∈ ws, ∀ b ∈ bs, Incomparable w.1 b.1) :
    ((o.addAll ws).addAll bs).removeAll (ws.map Prod.fst) = o.addAll bs := by
  induction ws generalizing o with
  | nil => rfl
  | cons w ws ih =>
      obtain ⟨how, hows⟩ := List.forall_mem_cons.mp ho
      obtain ⟨hbw, hbws⟩ := List.forall_mem_cons.mp hbs
      obtain ⟨hw, hws⟩ := List.pairwise_cons.mp hws
      rw [addAll_cons, List.map_cons, removeAll_cons, remove_addAll_of_incomparable hbw,
        remove_addAll_of_incomparable hw, remove_add_self how]
      exact ih hws hows hbws

end Overlay
