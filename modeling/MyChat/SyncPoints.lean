import MyChat.SyncTree

/-!
# MyChat.SyncPoints

The tree of sync points as a map from paths to views. Unlike the trees of pending writes
it has values at any node. As long as the children are sorted (`Keyed`), `setValue:` and
`removeValueAtPath:` update the map, and the functions that go through the tree say what
it holds: along a path (`mem_forEachOnPath`), one level down (`mem_childValues`), or at
the topmost places (`mem_topmost`).
-/

namespace MyChat

open SortedList FUtilities PathTree

namespace FImmutableTree

variable {α : Type} {t : FImmutableTree α} {S : String → Prop} {k j : String} {p q : Path} {v : α}

@[simp] theorem valueAtPath_empty (p : Path) : (empty : FImmutableTree α).valueAtPath p = none := by
  cases p <;> rfl

@[simp] theorem valueAtPath_nil (t : FImmutableTree α) : t.valueAtPath [] = t.value := by
  cases t
  rfl

theorem valueAtPath_cons (t : FImmutableTree α) (k : String) (p : Path) :
    t.valueAtPath (k :: p) = (t.child k).valueAtPath p := by
  cases t with
  | node value children =>
      rw [valueAtPath, child, FImmutableTree.children]
      cases get stringComparator k children with
      | none => exact (valueAtPath_empty p).symm
      | some child => rfl

/-! ### Sorted trees -/

/-- The children are sorted throughout, and have keys of a kind. -/
inductive Keyed (S : String → Prop) : FImmutableTree α → Prop
  | mk {value : Option α} {children : List (String × FImmutableTree α)}
      (sorted : Sorted stringComparator children) (keys : ∀ x ∈ children, S x.1)
      (keyed : ∀ x ∈ children, Keyed S x.2) : Keyed S (.node value children)

theorem keyed_empty : (empty : FImmutableTree α).Keyed S := .mk sorted_nil (by simp) (by simp)

theorem Keyed.child (h : t.Keyed S) (k : String) : (t.child k).Keyed S := by
  cases h with
  | @mk value children sorted keys keyed =>
      rw [FImmutableTree.child, FImmutableTree.children]
      cases hget : get stringComparator k children with
      | none => exact keyed_empty
      | some child =>
          obtain ⟨k', -, hmem⟩ := exists_mem_of_get hget
          exact keyed _ hmem

theorem Keyed.subtreeAtPath (h : t.Keyed S) (p : Path) : (t.subtreeAtPath p).Keyed S := by
  induction p generalizing t with
  | nil => simpa using h
  | cons k p ih => rw [subtreeAtPath_cons]; exact ih (h.child k)

theorem valueAtPath_subtreeAtPath (t : FImmutableTree α) (p q : Path) :
    (t.subtreeAtPath p).valueAtPath q = t.valueAtPath (p ++ q) := by
  induction p generalizing t with
  | nil => rw [subtreeAtPath_nil, List.nil_append]
  | cons k p ih => rw [subtreeAtPath_cons, ih, List.cons_append, valueAtPath_cons]

/-- The children of a sorted tree. -/
theorem Keyed.mem_children (h : t.Keyed S) {x : String × FImmutableTree α} (hx : x ∈ t.children) :
    t.child x.1 = x.2 := by
  cases h with
  | mk sorted keys keyed => exact child_of_mem sorted hx

theorem Keyed.of_mem_children (h : t.Keyed S) {x : String × FImmutableTree α} (hx : x ∈ t.children) :
    S x.1 ∧ x.2.Keyed S := by
  cases h with
  | mk sorted keys keyed => exact ⟨keys x hx, keyed x hx⟩

theorem Keyed.mem_of_value (h : t.Keyed S) (hv : (t.child k).valueAtPath p = some v) :
    (k, t.child k) ∈ t.children := by
  cases h with
  | @mk value children sorted keys keyed =>
      refine mem_of_child sorted ?_
      by_contra hempty
      rw [Bool.not_eq_false, isEmpty_iff] at hempty
      have hchild : (FImmutableTree.node value children).child k = empty := hempty
      rw [hchild, valueAtPath_empty] at hv
      cases hv

theorem forEach_node (value : Option α) (children : List (String × FImmutableTree α)) :
    (node value children).forEach = forEachChild children ++ (value.map fun v => ([], v)).toList := by
  rw [forEach]

/-- `forEach:` goes through all values. -/
theorem Keyed.mem_forEach (h : t.Keyed S) {x : Path × α} :
    x ∈ t.forEach ↔ t.valueAtPath x.1 = some x.2 := by
  induction h generalizing x with
  | @mk value children sorted keys keyed ih =>
      have hkeyed : (node value children).Keyed S := .mk sorted keys keyed
      obtain ⟨p, v⟩ := x
      rw [forEach_node, List.mem_append, forEachChild_eq, List.mem_flatMap]
      cases p with
      | nil =>
          rw [valueAtPath_nil]
          constructor
          · rintro (⟨e, -, he⟩ | hroot)
            · obtain ⟨y, -, hy⟩ := List.mem_map.mp he
              cases hy
            · simpa [FImmutableTree.value] using hroot
          · intro hv
            exact Or.inr (by simpa [FImmutableTree.value] using hv)
      | cons k p =>
          rw [valueAtPath_cons]
          constructor
          · rintro (⟨e, he, hmem⟩ | hroot)
            · obtain ⟨y, hy, heq⟩ := List.mem_map.mp hmem
              cases heq
              rw [hkeyed.mem_children he]
              exact (ih e he).mp hy
            · simp at hroot
          · intro hv
            have hmem := hkeyed.mem_of_value hv
            exact Or.inl ⟨_, hmem, List.mem_map.mpr ⟨(p, v), (ih _ hmem).mpr hv, rfl⟩⟩

/-- Every place is there once. -/
theorem Keyed.nodup_forEach (h : t.Keyed S) : (t.forEach.map Prod.fst).Nodup := by
  induction h with
  | @mk value children sorted keys keyed ih =>
      rw [forEach_node, List.map_append, forEachChild_eq, List.map_flatMap]
      refine List.nodup_append'.mpr ⟨List.nodup_flatMap.mpr ⟨fun x hx => ?_, ?_⟩, ?_, fun p hp hq => ?_⟩
      · have hsame : ((x.2.forEach.map fun y => (x.1 :: y.1, y.2)).map Prod.fst) =
            (x.2.forEach.map Prod.fst).map (x.1 :: ·) := by simp
        rw [hsame]
        exact (ih x hx).map fun _ _ heq => (List.cons.inj heq).2
      · refine sorted.ne.imp fun {x y} hne p hx hy => ?_
        obtain ⟨q, hq, rfl⟩ := List.mem_map.mp hx
        obtain ⟨r, hr, heq⟩ := List.mem_map.mp hy
        obtain ⟨q', -, rfl⟩ := List.mem_map.mp hq
        obtain ⟨r', -, rfl⟩ := List.mem_map.mp hr
        exact hne (List.cons.inj heq).1.symm
      · cases value <;> simp
      · -- the root's place is empty, those of the children are not
        obtain ⟨x, -, hx⟩ := List.mem_flatMap.mp hp
        obtain ⟨y, hy, rfl⟩ := List.mem_map.mp hx
        obtain ⟨z, -, rfl⟩ := List.mem_map.mp hy
        cases value <;> simp at hq

theorem Keyed.valueAtPath_ne_none_iff (h : t.Keyed S) :
    t.valueAtPath p ≠ none ↔ p ∈ t.forEach.map Prod.fst := by
  rw [Option.ne_none_iff_exists', List.mem_map]
  constructor
  · rintro ⟨v, hv⟩
    exact ⟨(p, v), h.mem_forEach.mpr hv, rfl⟩
  · rintro ⟨x, hx, rfl⟩
    exact ⟨x.2, h.mem_forEach.mp hx⟩

/-- The keys on the way to a value. -/
theorem Keyed.of_valueAtPath (h : t.Keyed S) (hv : t.valueAtPath p = some v) : ∀ k ∈ p, S k := by
  induction p generalizing t with
  | nil => simp
  | cons k p ih =>
      rw [valueAtPath_cons] at hv
      refine List.forall_mem_cons.mpr ⟨(h.of_mem_children (h.mem_of_value hv)).1, ih (h.child k) hv⟩

/-! ### Updates -/

theorem setValue_nil (t : FImmutableTree α) (v : α) : t.setValue v [] = node (some v) t.children := by
  cases t
  rfl

theorem setValue_cons (value : Option α) (children : List (String × FImmutableTree α)) (v : α)
    (k : String) (p : Path) : (node value children).setValue v (k :: p) =
      node value (insert stringComparator k (((node value children).child k).setValue v p) children) := rfl

theorem child_insert {value : Option α} {children : List (String × FImmutableTree α)}
    (sorted : Sorted stringComparator children) (front j : String) (newChild : FImmutableTree α) :
    (node value (insert stringComparator front newChild children)).child j =
      if front = j then newChild else (node value children).child j := by
  rw [FImmutableTree.child, FImmutableTree.children,
    get_insert (stringComparator_separates fun _ => True) sorted (keysIn_true children) trivial trivial]
  split <;> rfl

theorem Keyed.insert {value : Option α} {children : List (String × FImmutableTree α)}
    (h : (node value children).Keyed S) (hk : S k) {newChild : FImmutableTree α}
    (hnew : newChild.Keyed S) :
    (node value (SortedList.insert stringComparator k newChild children)).Keyed S := by
  cases h with
  | mk sorted keys keyed =>
      refine .mk (sorted_insert sorted) (fun x hx => ?_) fun x hx => ?_
      · rcases (mem_insert sorted).mp hx with rfl | ⟨hx, -⟩
        · exact hk
        · exact keys x hx
      · rcases (mem_insert sorted).mp hx with rfl | ⟨hx, -⟩
        · exact hnew
        · exact keyed x hx

theorem Keyed.setValue (h : t.Keyed S) (hp : ∀ k ∈ p, S k) (v : α) : (t.setValue v p).Keyed S := by
  induction p generalizing t with
  | nil =>
      cases h with
      | mk sorted keys keyed => exact .mk sorted keys keyed
  | cons k p ih =>
      obtain ⟨hk, hp⟩ := List.forall_mem_cons.mp hp
      cases t with
      | node value children => exact h.insert hk (ih (h.child k) hp)

theorem Keyed.valueAtPath_setValue (h : t.Keyed S) (v : α) (p q : Path) :
    (t.setValue v p).valueAtPath q = if q = p then some v else t.valueAtPath q := by
  induction p generalizing t q with
  | nil =>
      rw [setValue_nil]
      cases q with
      | nil => simp [FImmutableTree.value]
      | cons k q =>
          rw [valueAtPath_cons, valueAtPath_cons, if_neg (by simp)]
          rfl
  | cons k p ih =>
      cases t with
      | node value children =>
          rw [setValue_cons]
          cases q with
          | nil =>
              rw [if_neg (by simp)]
              rfl
          | cons j q =>
              cases h with
              | mk sorted keys keyed =>
                  have hkeyed : (FImmutableTree.node value children).Keyed S := .mk sorted keys keyed
                  rw [valueAtPath_cons, child_insert sorted, valueAtPath_cons]
                  by_cases hkj : k = j
                  · subst hkj
                    rw [if_pos rfl, ih (hkeyed.child k)]
                    simp
                  · rw [if_neg hkj, if_neg (by simp [Ne.symm hkj])]

theorem removeValueAtPath_cons (value : Option α) (children : List (String × FImmutableTree α))
    (k : String) (p : Path) : (node value children).removeValueAtPath (k :: p) =
      match get stringComparator k children with
      | some child => node value (replaceChild children k (child.removeValueAtPath p))
      | none => node value children := rfl

theorem Keyed.replaceChild {value : Option α} {children : List (String × FImmutableTree α)}
    (h : (node value children).Keyed S) (hk : S k) {newChild : FImmutableTree α}
    (hnew : newChild.Keyed S) : (node value (replaceChild children k newChild)).Keyed S := by
  unfold FImmutableTree.replaceChild
  split
  · cases h with
    | mk sorted keys keyed =>
        have hsub : erase stringComparator k children ⊆ children := (sublist_erase k children).subset
        exact .mk (sorted_erase sorted) (fun x hx => keys x (hsub hx)) fun x hx => keyed x (hsub hx)
  · exact h.insert hk hnew

theorem Keyed.removeValueAtPath (h : t.Keyed S) (p : Path) : (t.removeValueAtPath p).Keyed S := by
  induction p generalizing t with
  | nil =>
      cases h with
      | mk sorted keys keyed => exact .mk sorted keys keyed
  | cons k p ih =>
      cases t with
      | node value children =>
          rw [removeValueAtPath_cons]
          cases hget : get stringComparator k children with
          | none => exact h
          | some child =>
              have hchild : (FImmutableTree.node value children).child k = child := by
                rw [FImmutableTree.child, FImmutableTree.children, hget]
                rfl
              obtain ⟨k', hk', hmem⟩ := exists_mem_of_get hget
              obtain rfl : k = k' := literalCompare_eq_iff.mp hk'
              exact h.replaceChild (h.of_mem_children hmem).1 (ih (hchild ▸ h.child k))

theorem Keyed.valueAtPath_removeValueAtPath (h : t.Keyed S) (p q : Path) :
    (t.removeValueAtPath p).valueAtPath q = if q = p then none else t.valueAtPath q := by
  induction p generalizing t q with
  | nil =>
      cases t with
      | node value children =>
          cases q with
          | nil => rfl
          | cons k q =>
              rw [valueAtPath_cons, valueAtPath_cons, if_neg (by simp)]
              rfl
  | cons k p ih =>
      cases t with
      | node value children =>
          rw [removeValueAtPath_cons]
          cases hget : get stringComparator k children with
          | none =>
              have hchild : (FImmutableTree.node value children).child k = empty := by
                rw [FImmutableTree.child, FImmutableTree.children, hget]
                rfl
              dsimp only
              by_cases hq : q = k :: p
              · rw [if_pos hq, hq, valueAtPath_cons, hchild, valueAtPath_empty]
              · rw [if_neg hq]
          | some child =>
              have hchild : (FImmutableTree.node value children).child k = child := by
                rw [FImmutableTree.child, FImmutableTree.children, hget]
                rfl
              cases q with
              | nil =>
                  rw [if_neg (by simp)]
                  rfl
              | cons j q =>
                  have hkeyed := h.child k
                  cases h with
                  | mk sorted keys keyed =>
                      rw [valueAtPath_cons, child_replaceChild sorted, valueAtPath_cons]
                      by_cases hkj : k = j
                      · subst hkj
                        rw [if_pos rfl, ← hchild, ih hkeyed]
                        simp
                      · rw [if_neg hkj, if_neg (by simp [Ne.symm hkj])]

/-! ### Values side by side -/

/-- Where nothing is above or below, a value is a tree of its own. -/
theorem setValue_eq_setTree {P : α → Prop} (h : t.WellFormed P)
    (hfree : ∀ x ∈ t.toTree.leaves, Incomparable p x.1) (v : α) :
    t.setValue v p = t.setTree (ofValue v) p := by
  induction p generalizing t with
  | nil =>
      have hempty : t.isEmpty = true := by
        rw [← h.toTree_eq_empty_iff]
        ext x
        refine ⟨fun hx => absurd List.nil_prefix (hfree x hx).1, fun hx => ?_⟩
        rw [leaves_empty] at hx
        cases hx
      rw [isEmpty_iff.mp hempty]
      rfl
  | cons k p ih =>
      obtain ⟨value, children⟩ := t
      have hchild := ih (h.child k) fun x hx => by
        have hinc := hfree (k :: x.1, x.2) (h.mem_toTree_cons.mpr hx)
        exact (Incomparable.append_left (c := [k])).mp hinc
      rw [setValue_cons, setTree_cons, ← hchild, FImmutableTree.replaceChild,
        if_neg (by rw [isEmpty_setValue]; simp)]

theorem setValue_spec {P : α → Prop} (h : t.WellFormed P) (hv : P v)
    (hfree : ∀ x ∈ t.toTree.leaves, Incomparable p x.1) :
    (t.setValue v p).WellFormed P ∧
      ∀ x, x ∈ (t.setValue v p).toTree.leaves ↔ x ∈ t.toTree.leaves ∨ x = (p, v) := by
  have habove : t.NoValueAbove p := fun x hx hp => absurd hp (hfree x hx).2
  rw [setValue_eq_setTree h hfree]
  refine ⟨h.setTree (wellFormed_ofValue hv) habove, fun x => ?_⟩
  rw [toTree_setTree h (wellFormed_ofValue hv) habove, toTree_ofValue, mem_graft]
  constructor
  · rintro (⟨hx, -⟩ | ⟨q, hq, hpath⟩)
    · exact Or.inl hx
    · obtain ⟨rfl, rfl⟩ : q = [] ∧ x.2 = v := by simpa using hq
      exact Or.inr (Prod.ext (by simpa using hpath) rfl)
  · rintro (hx | rfl)
    · exact Or.inl ⟨hx, hfree x hx⟩
    · exact Or.inr ⟨[], by simp, by simp⟩

/-- The tree of one value at several places. -/
theorem foldl_setValue_spec {β : Type} {P : α → Prop} (h : t.WellFormed P) (hv : P v)
    {xs : List (Path × β)} (hpair : xs.Pairwise fun x y => Incomparable x.1 y.1)
    (hfree : ∀ y ∈ xs, ∀ x ∈ t.toTree.leaves, Incomparable y.1 x.1) :
    (xs.foldl (fun t x => t.setValue v x.1) t).WellFormed P ∧
      ∀ x, x ∈ (xs.foldl (fun t x => t.setValue v x.1) t).toTree.leaves ↔
        x ∈ t.toTree.leaves ∨ ∃ y ∈ xs, x = (y.1, v) := by
  induction xs generalizing t with
  | nil => exact ⟨h, by simp⟩
  | cons y xs ih =>
      obtain ⟨hy, hpair⟩ := List.pairwise_cons.mp hpair
      obtain ⟨hfreeHead, hfree⟩ := List.forall_mem_cons.mp hfree
      obtain ⟨hwf, hmem⟩ := setValue_spec h hv hfreeHead
      obtain ⟨hwf', hmem'⟩ := ih hwf hpair fun z hz x hx => by
        rcases (hmem x).mp hx with hx | rfl
        · exact hfree z hz x hx
        · exact (hy z hz).symm
      refine ⟨hwf', fun x => ?_⟩
      rw [List.foldl_cons, hmem', hmem, or_assoc]
      simp

/-! ### Going through the tree -/

theorem forEachOnPath_cons (t : FImmutableTree α) (k : String) (p : Path) :
    t.forEachOnPath (k :: p) =
      (t.value.map fun v => (v, k :: p)).toList ++ (t.child k).forEachOnPath p := by
  have hempty : (empty : FImmutableTree α).forEachOnPath p = [] := by cases p <;> rfl
  cases t with
  | node value children =>
      rw [forEachOnPath, FImmutableTree.child, FImmutableTree.children]
      cases get stringComparator k children with
      | none => exact congrArg _ hempty.symm
      | some child => rfl

/-- `forEachOnPath:` finds the values above the path and at it. -/
theorem mem_forEachOnPath {x : α × Path} :
    x ∈ t.forEachOnPath p ↔ ∃ q, q ++ x.2 = p ∧ t.valueAtPath q = some x.1 := by
  induction p generalizing t with
  | nil =>
      have hnil : t.forEachOnPath [] = (t.value.map fun v => (v, [])).toList := by
        cases t
        rfl
      rw [hnil, Option.mem_toList, Option.map_eq_some_iff]
      constructor
      · rintro ⟨v, hv, rfl⟩
        exact ⟨[], rfl, by rw [valueAtPath_nil, hv]⟩
      · rintro ⟨q, hq, hv⟩
        obtain ⟨rfl, hnil⟩ := List.append_eq_nil_iff.mp hq
        exact ⟨x.1, by rwa [valueAtPath_nil] at hv, Prod.ext rfl hnil.symm⟩
  | cons k p ih =>
      rw [forEachOnPath_cons, List.mem_append, ih, Option.mem_toList, Option.map_eq_some_iff]
      constructor
      · rintro (⟨v, hv, rfl⟩ | ⟨q, rfl, hv⟩)
        · exact ⟨[], rfl, by rw [valueAtPath_nil, hv]⟩
        · exact ⟨k :: q, rfl, by rw [valueAtPath_cons, hv]⟩
      · rintro ⟨q, hq, hv⟩
        cases q with
        | nil =>
            rw [valueAtPath_nil] at hv
            exact Or.inl ⟨x.1, hv, Prod.ext rfl hq.symm⟩
        | cons j q =>
            obtain ⟨rfl, hq'⟩ := List.cons.inj hq
            rw [valueAtPath_cons] at hv
            exact Or.inr ⟨q, hq', hv⟩

/-- `forEachChild:` finds the values one level down. -/
theorem Keyed.mem_childValues (h : t.Keyed S) {x : String × α} :
    x ∈ t.childValues ↔ t.valueAtPath [x.1] = some x.2 := by
  rw [childValues, List.mem_filterMap, valueAtPath_cons, valueAtPath_nil]
  constructor
  · rintro ⟨e, he, hx⟩
    obtain ⟨v, hv, rfl⟩ := Option.map_eq_some_iff.mp hx
    rw [h.mem_children he, hv]
  · intro hv
    refine ⟨_, h.mem_of_value (p := []) (by rw [valueAtPath_nil, hv]), ?_⟩
    exact Option.map_eq_some_iff.mpr ⟨x.2, hv, rfl⟩

theorem topmostBelow_eq (children : List (String × FImmutableTree α)) :
    topmostBelow children = children.flatMap fun x => x.2.topmost.map (x.1 :: ·) := by
  induction children with
  | nil => rfl
  | cons x children ih => rw [topmostBelow, ih, List.flatMap_cons]

/-- There is a value at the path, and none above it. -/
def IsTopmost (t : FImmutableTree α) (p : Path) : Prop :=
  t.valueAtPath p ≠ none ∧ ∀ q, q <+: p → t.valueAtPath q ≠ none → q = p

theorem isTopmost_cons_iff (hroot : t.value = none) :
    t.IsTopmost (k :: p) ↔ (t.child k).IsTopmost p := by
  constructor
  · rintro ⟨hv, htop⟩
    refine ⟨by rwa [valueAtPath_cons] at hv, fun q hq hv' => ?_⟩
    have := htop (k :: q) (List.cons_prefix_cons.mpr ⟨rfl, hq⟩) (by rwa [valueAtPath_cons])
    exact (List.cons.inj this).2
  · rintro ⟨hv, htop⟩
    refine ⟨by rwa [valueAtPath_cons], fun q hq hv' => ?_⟩
    cases q with
    | nil =>
        rw [valueAtPath_nil] at hv'
        exact absurd hroot hv'
    | cons j q =>
        obtain ⟨rfl, hq'⟩ := List.cons_prefix_cons.mp hq
        rw [valueAtPath_cons] at hv'
        rw [htop q hq' hv']

/-- The places that `collectDistinctViewsForSubTree:` collects. -/
theorem Keyed.mem_topmost (h : t.Keyed S) : p ∈ t.topmost ↔ t.IsTopmost p := by
  induction h generalizing p with
  | @mk value children sorted keys keyed ih =>
      have hkeyed : (node value children).Keyed S := .mk sorted keys keyed
      cases value with
      | some v =>
          rw [topmost, List.mem_singleton]
          have hroot : (node (some v) children).valueAtPath [] ≠ none := by
            rw [valueAtPath_nil]
            simp [FImmutableTree.value]
          constructor
          · rintro rfl
            exact ⟨hroot, fun q hq _ => List.prefix_nil.mp hq⟩
          · exact fun htop => (htop.2 [] List.nil_prefix hroot).symm
      | none =>
          rw [topmost, topmostBelow_eq, List.mem_flatMap]
          cases p with
          | nil =>
              refine iff_of_false (fun hmem => ?_) fun htop => htop.1 ?_
              · obtain ⟨x, -, hx⟩ := hmem
                obtain ⟨y, -, hy⟩ := List.mem_map.mp hx
                cases hy
              · rw [valueAtPath_nil]
                rfl
          | cons k p =>
              rw [isTopmost_cons_iff rfl]
              constructor
              · rintro ⟨x, hx, hp⟩
                obtain ⟨y, hy, heq⟩ := List.mem_map.mp hp
                cases heq
                rw [hkeyed.mem_children hx]
                exact (ih x hx).mp hy
              · intro htop
                obtain ⟨v, hv⟩ := Option.ne_none_iff_exists'.mp htop.1
                have hmem := hkeyed.mem_of_value hv
                exact ⟨_, hmem, List.mem_map.mpr ⟨p, (ih _ hmem).mpr htop, rfl⟩⟩

theorem Keyed.nodup_topmost (h : t.Keyed S) : t.topmost.Nodup := by
  induction h with
  | @mk value children sorted keys keyed ih =>
      cases value with
      | some v => simp [topmost]
      | none =>
          rw [topmost, topmostBelow_eq, List.nodup_flatMap]
          refine ⟨fun x hx => (ih x hx).map fun _ _ heq => (List.cons.inj heq).2, ?_⟩
          refine sorted.ne.imp fun {x y} hne p hx hy => ?_
          obtain ⟨q, -, rfl⟩ := List.mem_map.mp hx
          obtain ⟨r, -, heq⟩ := List.mem_map.mp hy
          exact hne (List.cons.inj heq).1.symm

end FImmutableTree

end MyChat
