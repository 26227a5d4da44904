import MyChat.Node
import Mathlib.Data.Fintype.EquivFin

/-!
# MyChat.CompoundWrite

`FImmutableTree`, the client's tree with optional values at its nodes, and
`FCompoundWrite`, the set of pending writes that is kept in one: the value at a path is
the node to be written there.

In a compound write no value stands below another one, so the tree of its values is an
overlay (`overlay`), and the operations are those of overlays: `addWrite:atPath:`
layers a write (`overlay_addWrite`), `removeWriteAtPath:` takes back
(`overlay_removeWriteAtPath`), and `applyToNode:` applies the overlay to the tree of
the node (`data_applyToNode`). As for nodes, deleting below a leaf is excluded: the
pending writes are not empty.
-/

namespace MyChat

open SortedList FUtilities PathTree

/-- A value or none, and the subtrees under their keys. -/
inductive FImmutableTree (α : Type)
  | node (value : Option α) (children : List (String × FImmutableTree α))

namespace FImmutableTree

variable {α : Type}

/-! ### Operations -/

def value : FImmutableTree α → Option α
  | .node value _ => value

def children : FImmutableTree α → List (String × FImmutableTree α)
  | .node _ children => children

/-- `empty`. -/
def empty : FImmutableTree α := .node none []

/-- `initWithValue:`. -/
def ofValue (value : α) : FImmutableTree α := .node (some value) []

/-- `isEmpty`. -/
def isEmpty : FImmutableTree α → Bool
  | .node value children => value.isNone && children.isEmpty

/-- `findRootMostValueAndPath:`. -/
def findRootMostValueAndPath : FImmutableTree α → Path → Option (Path × α)
  | .node (some value) _, _ => some ([], value)
  | .node none _, [] => none
  | .node none children, front :: path =>
      match get stringComparator front children with
      | some child => (child.findRootMostValueAndPath path).map fun x => (front :: x.1, x.2)
      | none => none

/-- `subtreeAtPath:`. -/
def subtreeAtPath : FImmutableTree α → Path → FImmutableTree α
  | tree, [] => tree
  | .node _ children, front :: path =>
      match get stringComparator front children with
      | some child => child.subtreeAtPath path
      | none => empty

/-- `setValue:atPath:`. -/
def setValue : FImmutableTree α → α → Path → FImmutableTree α
  | .node _ children, newValue, [] => .node (some newValue) children
  | .node value children, newValue, front :: path =>
      let child := (get stringComparator front children).getD empty
      .node value (insert stringComparator front (child.setValue newValue path) children)

/-- `setTree:atPath:`. -/
def setTree : FImmutableTree α → FImmutableTree α → Path → FImmutableTree α
  | _, newTree, [] => newTree
  | .node value children, newTree, front :: path =>
      let child := (get stringComparator front children).getD empty
      let newChild := child.setTree newTree path
      .node value
        (if newChild.isEmpty then erase stringComparator front children
         else insert stringComparator front newChild children)

mutual

/-- The calls that `forEach:` makes of its block. -/
def forEach : FImmutableTree α → List (Path × α)
  | .node value children => forEachChild children ++ (value.map fun v => ([], v)).toList

def forEachChild : List (String × FImmutableTree α) → List (Path × α)
  | [] => []
  | (childKey, childTree) :: children =>
      childTree.forEach.map (fun x => (childKey :: x.1, x.2)) ++ forEachChild children

end

/-- The subtree under a key, empty if there is none. -/
def child (tree : FImmutableTree α) (k : String) : FImmutableTree α :=
  (get stringComparator k tree.children).getD empty

@[simp] theorem isEmpty_empty : (empty : FImmutableTree α).isEmpty = true := rfl
@[simp] theorem isEmpty_ofValue (v : α) : (ofValue v).isEmpty = false := rfl
@[simp] theorem child_empty (k : String) : (empty : FImmutableTree α).child k = empty := rfl
@[simp] theorem child_ofValue (v : α) (k : String) : (ofValue v).child k = empty := rfl
@[simp] theorem findRootMost_empty (p : Path) :
    (empty : FImmutableTree α).findRootMostValueAndPath p = none := by cases p <;> rfl

theorem isEmpty_iff {tree : FImmutableTree α} : tree.isEmpty ↔ tree = empty := by
  cases tree
  simp [isEmpty, empty]

@[simp] theorem subtreeAtPath_nil (tree : FImmutableTree α) : tree.subtreeAtPath [] = tree := by
  cases tree
  rfl

@[simp] theorem setTree_nil (tree newTree : FImmutableTree α) : tree.setTree newTree [] = newTree := by
  cases tree
  rfl

@[simp] theorem subtreeAtPath_empty (p : Path) :
    (empty : FImmutableTree α).subtreeAtPath p = empty := by cases p <;> rfl

theorem subtreeAtPath_cons (tree : FImmutableTree α) (k : String) (p : Path) :
    tree.subtreeAtPath (k :: p) = (tree.child k).subtreeAtPath p := by
  cases tree with
  | node value children =>
      rw [subtreeAtPath, child, FImmutableTree.children]
      cases get stringComparator k children with
      | none => exact (subtreeAtPath_empty p).symm
      | some child => rfl

theorem findRootMost_cons {tree : FImmutableTree α} (h : tree.value = none) (k : String) (p : Path) :
    tree.findRootMostValueAndPath (k :: p) =
      ((tree.child k).findRootMostValueAndPath p).map fun x => (k :: x.1, x.2) := by
  cases tree with
  | node value children =>
      obtain rfl : value = none := h
      rw [findRootMostValueAndPath, child, FImmutableTree.children]
      cases get stringComparator k children with
      | none => simp
      | some child => rfl

theorem findRootMost_of_value {tree : FImmutableTree α} {v : α} (h : tree.value = some v) (p : Path) :
    tree.findRootMostValueAndPath p = some ([], v) := by
  cases tree with
  | node value children =>
      obtain rfl : value = some v := h
      simp [findRootMostValueAndPath]

/-! ### Well-formed trees -/

/-- Values satisfy `P` and have nothing below them; subtrees are sorted and not empty. -/
inductive WellFormed (P : α → Prop) : FImmutableTree α → Prop
  | value {v : α} (hv : P v) : WellFormed P (.node (some v) [])
  | children {children : List (String × FImmutableTree α)}
      (sorted : Sorted stringComparator children)
      (nonempty : ∀ e ∈ children, e.2.isEmpty = false)
      (wf : ∀ e ∈ children, WellFormed P e.2) : WellFormed P (.node none children)

variable {P : α → Prop} {t newTree : FImmutableTree α} {k j : String} {p : Path}

theorem wellFormed_empty : (empty : FImmutableTree α).WellFormed P :=
  .children sorted_nil (by simp) (by simp)

theorem wellFormed_ofValue {v : α} (hv : P v) : (ofValue v).WellFormed P := .value hv

theorem WellFormed.child (h : t.WellFormed P) (k : String) : (t.child k).WellFormed P := by
  cases h with
  | value hv => exact wellFormed_empty
  | @children children sorted nonempty wf =>
      rw [FImmutableTree.child, FImmutableTree.children]
      cases hget : get stringComparator k children with
      | none => exact wellFormed_empty
      | some child =>
          obtain ⟨k', -, hmem⟩ := exists_mem_of_get hget
          exact wf _ hmem

theorem WellFormed.subtreeAtPath (h : t.WellFormed P) (p : Path) :
    (t.subtreeAtPath p).WellFormed P := by
  induction p generalizing t with
  | nil => simpa using h
  | cons k p ih => rw [subtreeAtPath_cons]; exact ih (h.child k)

/-! ### The values as a tree -/

/-- The values, at their paths. -/
def toTree (t : FImmutableTree α) : PathTree String α := PathTree.ofLeaves t.forEach

theorem forEachChild_eq (children : List (String × FImmutableTree α)) :
    forEachChild children =
      children.flatMap fun e => e.2.forEach.map fun x => (e.1 :: x.1, x.2) := by
  induction children with
  | nil => rfl
  | cons e children ih => rw [forEachChild, ih, List.flatMap_cons]

theorem WellFormed.forEach_incomparable (h : t.WellFormed P) :
    t.forEach.Pairwise fun x y => Incomparable x.1 y.1 := by
  induction h with
  | value hv => simp [forEach, forEachChild]
  | @children children sorted nonempty wf ih =>
      rw [forEach, forEachChild_eq]
      simpa using incomparable_flatMap sorted.ne ih

theorem WellFormed.mem_toTree (h : t.WellFormed P) {x : Path × α} :
    x ∈ t.toTree.leaves ↔ x ∈ t.forEach := mem_ofLeaves h.forEach_incomparable

@[simp] theorem toTree_empty : (empty : FImmutableTree α).toTree = ∅ := rfl

@[simp] theorem forEach_ofValue (v : α) : (ofValue v).forEach = [([], v)] := rfl

@[simp] theorem toTree_ofValue (v : α) : (ofValue v).toTree = PathTree.leaf v := by
  simp [FImmutableTree.toTree, ofValue, forEach, forEachChild, ofLeaves]

theorem WellFormed.get_toTree_nil (h : t.WellFormed P) : t.toTree.get [] = t.value := by
  ext v
  rw [PathTree.get_eq_some_iff, h.mem_toTree]
  cases h with
  | value hv => simp [forEach, forEachChild, FImmutableTree.value, eq_comm]
  | @children children sorted nonempty wf =>
      simp [forEach, forEachChild_eq, FImmutableTree.value]

theorem child_of_mem {children : List (String × FImmutableTree α)}
    (sorted : Sorted stringComparator children) {e : String × FImmutableTree α} (he : e ∈ children) :
    (node none children).child e.1 = e.2 := by
  have hget := (get_eq_some_iff (stringComparator_separates fun _ => True) sorted
    (keysIn_true children) trivial).mpr he
  rw [FImmutableTree.child, FImmutableTree.children, hget]
  rfl

theorem mem_of_child {children : List (String × FImmutableTree α)}
    (sorted : Sorted stringComparator children)
    (hne : ((node none children).child k).isEmpty = false) :
    (k, (node none children).child k) ∈ children := by
  rw [FImmutableTree.child, FImmutableTree.children] at hne ⊢
  cases hget : get stringComparator k children with
  | none => simp [hget] at hne
  | some child =>
      exact (get_eq_some_iff (stringComparator_separates fun _ => True) sorted
        (keysIn_true children) trivial).mp hget

/-- Below a key stand the values of the subtree under it. -/
theorem WellFormed.subtree_toTree (h : t.WellFormed P) (k : String) :
    t.toTree.subtree [k] = (t.child k).toTree := by
  ext ⟨q, v⟩
  rw [mem_subtree, h.mem_toTree, (h.child k).mem_toTree]
  cases h with
  | value hv =>
      simp [forEach, forEachChild, FImmutableTree.child, FImmutableTree.children, empty]
  | @children children sorted nonempty wf =>
      have hmem : ([k] ++ q, v) ∈ (node none children).forEach ↔
          ∃ e ∈ children, (q, v) ∈ e.2.forEach ∧ e.1 = k := by
        simp [forEach, forEachChild_eq, and_comm, and_left_comm]
      rw [hmem]
      constructor
      · rintro ⟨e, he, hq, rfl⟩
        rwa [child_of_mem sorted he]
      · intro hq
        refine ⟨_, mem_of_child sorted ?_, hq, rfl⟩
        by_contra hempty
        rw [Bool.not_eq_false, isEmpty_iff] at hempty
        simp [hempty, empty, forEach, forEachChild] at hq

/-! ### The operations on that tree -/

theorem toTree_subtreeAtPath (h : t.WellFormed P) (p : Path) :
    (t.subtreeAtPath p).toTree = t.toTree.subtree p := by
  induction p generalizing t with
  | nil => simp
  | cons k p ih =>
      rw [subtreeAtPath_cons, ih (h.child k), ← h.subtree_toTree, subtree_subtree,
        List.singleton_append]

theorem WellFormed.of_mem_forEach (h : t.WellFormed P) {x : Path × α} (hx : x ∈ t.forEach) : P x.2 := by
  induction h generalizing x with
  | value hv =>
      obtain rfl : x = ([], _) := by simpa [forEach, forEachChild] using hx
      exact hv
  | @children children sorted nonempty wf ih =>
      obtain ⟨e, he, y, hy, rfl⟩ : ∃ e ∈ children, ∃ y ∈ e.2.forEach, (e.1 :: y.1, y.2) = x := by
        simpa [forEach, forEachChild_eq] using hx
      show P y.2
      exact ih e he hy

theorem WellFormed.mem_toTree_nil (h : t.WellFormed P) {v : α} :
    ([], v) ∈ t.toTree.leaves ↔ t.value = some v := by
  rw [← PathTree.get_eq_some_iff, h.get_toTree_nil]

theorem WellFormed.eq_ofValue (h : t.WellFormed P) {v : α} (hv : t.value = some v) : t = ofValue v := by
  cases h with
  | value hv' =>
      cases hv
      rfl
  | children sorted nonempty wf => cases hv

theorem WellFormed.mem_toTree_cons (h : t.WellFormed P) {q : Path} {v : α} :
    (k :: q, v) ∈ t.toTree.leaves ↔ (q, v) ∈ (t.child k).toTree.leaves := by
  rw [← h.subtree_toTree, mem_subtree, List.singleton_append]

/-- Only the empty tree holds nothing. -/
theorem WellFormed.exists_leaf (h : t.WellFormed P) (hne : t.isEmpty = false) :
    ∃ x, x ∈ t.toTree.leaves := by
  induction h with
  | @value v hv => exact ⟨([], v), (WellFormed.value hv).mem_toTree_nil.mpr rfl⟩
  | @children children sorted nonempty wf ih =>
      cases hc : children with
      | nil => simp [hc, isEmpty] at hne
      | cons e es =>
          have he : e ∈ children := hc ▸ List.mem_cons_self
          obtain ⟨x, hx⟩ := ih e he (nonempty e he)
          rw [← hc]
          refine ⟨(e.1 :: x.1, x.2), (WellFormed.children sorted nonempty wf).mem_toTree_cons.mpr ?_⟩
          rwa [child_of_mem sorted he]

theorem WellFormed.toTree_eq_empty_iff (h : t.WellFormed P) : t.toTree = ∅ ↔ t.isEmpty := by
  constructor
  · intro hempty
    by_contra hne
    obtain ⟨x, hx⟩ := h.exists_leaf (by simpa using hne)
    simp [hempty] at hx
  · intro hempty
    rw [isEmpty_iff.mp hempty, toTree_empty]

/-- `findRootMostValueAndPath:` finds the value at or above the path. -/
theorem findRootMost_eq_some_iff (h : t.WellFormed P) {x : Path × α} :
    t.findRootMostValueAndPath p = some x ↔ x ∈ t.toTree.leaves ∧ x.1 <+: p := by
  induction p generalizing t x with
  | nil =>
      have hnil : t.findRootMostValueAndPath [] = t.value.map fun v => ([], v) := by
        rcases t with ⟨_ | v, children⟩ <;> rfl
      rw [hnil, Option.map_eq_some_iff, List.prefix_nil]
      constructor
      · rintro ⟨v, hv, rfl⟩
        exact ⟨h.mem_toTree_nil.mpr hv, rfl⟩
      · obtain ⟨r, v⟩ := x
        rintro ⟨hmem, rfl⟩
        exact ⟨v, h.mem_toTree_nil.mp hmem, rfl⟩
  | cons k p ih =>
      cases hv : t.value with
      | some v =>
          have hroot := h.mem_toTree_nil.mpr hv
          rw [findRootMost_of_value hv, Option.some.injEq]
          refine ⟨?_, fun hx => t.toTree.eq_of_prefix hroot hx.1 List.nil_prefix⟩
          rintro rfl
          exact ⟨hroot, List.nil_prefix⟩
      | none =>
          rw [findRootMost_cons hv, Option.map_eq_some_iff]
          constructor
          · rintro ⟨y, hy, rfl⟩
            obtain ⟨hmem, hr⟩ := (ih (h.child k)).mp hy
            exact ⟨h.mem_toTree_cons.mpr hmem, List.cons_prefix_cons.mpr ⟨rfl, hr⟩⟩
          · obtain ⟨r, v⟩ := x
            rintro ⟨hmem, hr⟩
            cases r with
            | nil => simp [h.mem_toTree_nil.mp hmem] at hv
            | cons j r =>
                obtain ⟨rfl, hrp⟩ := List.cons_prefix_cons.mp hr
                exact ⟨(r, v), (ih (h.child j)).mpr ⟨h.mem_toTree_cons.mp hmem, hrp⟩, rfl⟩

/-- The children after one of them was replaced, dropping it when empty. -/
def replaceChild (children : List (String × FImmutableTree α)) (front : String)
    (newChild : FImmutableTree α) : List (String × FImmutableTree α) :=
  if newChild.isEmpty then erase stringComparator front children
  else insert stringComparator front newChild children

theorem child_replaceChild {children : List (String × FImmutableTree α)} {value : Option α}
    (sorted : Sorted stringComparator children) (front j : String) (newChild : FImmutableTree α) :
    (node value (replaceChild children front newChild)).child j =
      if front = j then newChild else (node value children).child j := by
  have hsep := stringComparator_separates fun _ => True
  rw [FImmutableTree.child, FImmutableTree.children, replaceChild]
  split
  · next hempty =>
    rw [get_erase hsep sorted (keysIn_true children) trivial trivial]
    split
    · exact (isEmpty_iff.mp hempty).symm
    · rfl
  · rw [get_insert hsep sorted (keysIn_true children) trivial trivial]
    split <;> rfl

theorem wellFormed_replaceChild {children : List (String × FImmutableTree α)} {front : String}
    {newChild : FImmutableTree α} (h : (node none children).WellFormed P)
    (hnew : newChild.WellFormed P) :
    (node none (replaceChild children front newChild)).WellFormed P := by
  cases h with
  | children sorted nonempty wf =>
      unfold replaceChild
      split
      · have hsub : erase stringComparator front children ⊆ children :=
          (sublist_erase front children).subset
        exact .children (sorted_erase sorted) (fun e he => nonempty e (hsub he))
          fun e he => wf e (hsub he)
      · next hne =>
        refine .children (sorted_insert sorted) ?_ ?_
        · intro e he
          rcases (mem_insert sorted).mp he with rfl | ⟨he, -⟩
          · simpa using hne
          · exact nonempty e he
        · intro e he
          rcases (mem_insert sorted).mp he with rfl | ⟨he, -⟩
          · exact hnew
          · exact wf e he

theorem setTree_cons (value : Option α) (children : List (String × FImmutableTree α))
    (newTree : FImmutableTree α) (k : String) (p : Path) :
    (node value children).setTree newTree (k :: p) =
      node value (replaceChild children k (((node value children).child k).setTree newTree p)) := rfl

/-- No value stands strictly above the path. -/
def NoValueAbove (t : FImmutableTree α) (path : Path) : Prop :=
  ∀ x ∈ t.toTree.leaves, x.1 <+: path → x.1 = path

theorem NoValueAbove.child (h : t.WellFormed P) (habove : t.NoValueAbove (k :: p)) :
    (t.child k).NoValueAbove p := fun x hx hp => by
  have := habove (k :: x.1, x.2) (h.mem_toTree_cons.mpr hx) (List.cons_prefix_cons.mpr ⟨rfl, hp⟩)
  exact (List.cons.inj this).2

theorem NoValueAbove.value_eq_none (h : t.WellFormed P) (habove : t.NoValueAbove (k :: p)) :
    t.value = none := by
  cases hv : t.value with
  | none => rfl
  | some v => simpa using habove _ (h.mem_toTree_nil.mpr hv) List.nil_prefix

theorem WellFormed.setTree (h : t.WellFormed P) (hnew : newTree.WellFormed P)
    (habove : t.NoValueAbove p) : (t.setTree newTree p).WellFormed P := by
  induction p generalizing t with
  | nil => simpa using hnew
  | cons k p ih =>
      have hv := habove.value_eq_none h
      obtain ⟨value, children⟩ := t
      obtain rfl : value = none := hv
      rw [setTree_cons]
      exact wellFormed_replaceChild h (ih (h.child k) (habove.child h))

/-- Trees without a value at the root agree when the subtrees under each key do. -/
theorem toTree_eq_of_child {u : PathTree String α} (h : t.WellFormed P) (hv : t.value = none)
    (hu : u.get [] = none) (hchild : ∀ j, (t.child j).toTree = u.subtree [j]) : t.toTree = u := by
  refine ext_children ?_ hu fun j => by rw [h.subtree_toTree, hchild]
  rw [h.get_toTree_nil, hv]

theorem get_graft_cons_nil {u s : PathTree String α} : (u.graft (k :: p) s).get [] = none := by
  rw [← Option.not_isSome_iff_eq_none, Option.isSome_iff_exists]
  rintro ⟨v, hv⟩
  rcases mem_graft.mp (PathTree.get_eq_some_iff.mp hv) with ⟨-, hinc⟩ | ⟨q, -, hpath⟩
  · exact hinc.2 List.nil_prefix
  · simp at hpath

/-- `setTree:atPath:` grafts. -/
theorem toTree_setTree (h : t.WellFormed P) (hnew : newTree.WellFormed P)
    (habove : t.NoValueAbove p) : (t.setTree newTree p).toTree = t.toTree.graft p newTree.toTree := by
  induction p generalizing t with
  | nil => simp
  | cons k p ih =>
      have hv := habove.value_eq_none h
      have hwf := h.setTree hnew habove
      obtain ⟨value, children⟩ := t
      obtain rfl : value = none := hv
      rw [setTree_cons] at hwf ⊢
      refine toTree_eq_of_child hwf rfl get_graft_cons_nil fun j => ?_
      have sorted : Sorted stringComparator children := by
        cases h
        assumption
      rw [child_replaceChild sorted]
      split
      · next hkj =>
        subst hkj
        rw [ih (h.child k) (habove.child h), ← h.subtree_toTree, ← subtree_graft_append,
          List.singleton_append]
      · next hkj =>
        have hinc : Incomparable (k :: p) [j] :=
          ⟨fun hpre => hkj (List.cons_prefix_cons.mp hpre).1,
            fun hpre => hkj (List.cons_prefix_cons.mp hpre).1.symm⟩
        rw [subtree_graft_of_incomparable hinc, h.subtree_toTree]

theorem setTree_empty_empty (p : Path) : (empty : FImmutableTree α).setTree empty p = empty := by
  induction p with
  | nil => rfl
  | cons k p ih =>
      rw [empty, setTree_cons]
      show node none (replaceChild [] k ((empty : FImmutableTree α).setTree empty p)) = empty
      rw [ih]
      rfl

/-- Setting the empty tree drops the values at or below the path, and keeps the tree
well formed. -/
theorem toTree_setTree_empty (h : t.WellFormed P) (p : Path) :
    (t.setTree empty p).WellFormed P ∧ (t.setTree empty p).toTree = t.toTree.prune p := by
  induction p generalizing t with
  | nil => simpa using wellFormed_empty
  | cons k p ih =>
      obtain ⟨hwf, htree⟩ := ih (h.child k)
      rw [← h.subtree_toTree, ← subtree_prune_append, List.singleton_append] at htree
      cases h with
      | @value v hv =>
          have hsame : (node (some v) []).setTree empty (k :: p) = node (some v) [] := by
            rw [setTree_cons]
            show node (some v) (replaceChild [] k ((empty : FImmutableTree α).setTree empty p)) = _
            rw [setTree_empty_empty]
            rfl
          rw [hsame]
          refine ⟨.value hv, ?_⟩
          ext x
          have hleaf : (node (some v) []).toTree = PathTree.leaf v := toTree_ofValue v
          rw [mem_prune, hleaf]
          simp only [leaves_leaf, List.mem_singleton]
          exact ⟨fun hx => ⟨hx, by simp [hx]⟩, And.left⟩
      | @children children sorted nonempty wf =>
          have h : (node none children).WellFormed P := .children sorted nonempty wf
          rw [setTree_cons]
          have hwf' : (node none (replaceChild children k _)).WellFormed P :=
            wellFormed_replaceChild h hwf
          refine ⟨hwf', toTree_eq_of_child hwf' rfl ?_ fun j => ?_⟩
          · rw [← Option.not_isSome_iff_eq_none, Option.isSome_iff_exists]
            rintro ⟨v, hv⟩
            have hmem := (mem_prune.mp (PathTree.get_eq_some_iff.mp hv)).1
            cases h.mem_toTree_nil.mp hmem
          · rw [child_replaceChild sorted]
            split
            · next hkj =>
              subst hkj
              exact htree
            · next hkj =>
              have hinc : Incomparable (k :: p) [j] :=
                ⟨fun hpre => hkj (List.cons_prefix_cons.mp hpre).1,
                  fun hpre => hkj (List.cons_prefix_cons.mp hpre).1.symm⟩
              rw [subtree_prune_of_incomparable hinc, h.subtree_toTree]

theorem isEmpty_setValue (t : FImmutableTree α) (v : α) (p : Path) :
    (t.setValue v p).isEmpty = false := by
  obtain ⟨value, children⟩ := t
  cases p with
  | nil => rfl
  | cons k p =>
      rw [setValue, isEmpty, List.isEmpty_eq_false_iff.mpr (insert_ne_nil _ _ _), Bool.and_false]

/-- Setting a value where there is one replaces it. -/
theorem toTree_setValue (h : t.WellFormed P) {v v' : α} (hv : P v)
    (hmem : (p, v') ∈ t.toTree.leaves) :
    (t.setValue v p).WellFormed P ∧ (t.setValue v p).toTree = t.toTree.graft p (PathTree.leaf v) := by
  induction p generalizing t with
  | nil =>
      cases h with
      | value hv' =>
          refine ⟨.value hv, ?_⟩
          rw [graft_nil]
          exact toTree_ofValue v
      | children sorted nonempty wf =>
          cases (WellFormed.children sorted nonempty wf).mem_toTree_nil.mp hmem
  | cons k p ih =>
      rw [h.mem_toTree_cons] at hmem
      obtain ⟨hwf, htree⟩ := ih (h.child k) hmem
      cases h with
      | value hv' => simp [FImmutableTree.child, FImmutableTree.children] at hmem
      | @children children sorted nonempty wf =>
          have h : (node none children).WellFormed P := .children sorted nonempty wf
          have hset : (node none children).setValue v (k :: p) =
              node none (replaceChild children k (((node none children).child k).setValue v p)) := by
            rw [replaceChild, if_neg (by simp [isEmpty_setValue])]
            rfl
          rw [hset]
          have hwf' : (node none (replaceChild children k _)).WellFormed P :=
            wellFormed_replaceChild h hwf
          refine ⟨hwf', toTree_eq_of_child hwf' rfl get_graft_cons_nil fun j => ?_⟩
          rw [child_replaceChild sorted]
          split
          · next hkj =>
            subst hkj
            rw [htree, ← h.subtree_toTree, ← subtree_graft_append, List.singleton_append]
          · next hkj =>
            have hinc : Incomparable (k :: p) [j] :=
              ⟨fun hpre => hkj (List.cons_prefix_cons.mp hpre).1,
                fun hpre => hkj (List.cons_prefix_cons.mp hpre).1.symm⟩
            rw [subtree_graft_of_incomparable hinc, h.subtree_toTree]

end FImmutableTree

/-! ### Compound writes -/

/-- `FCompoundWrite`: its `writeTree`. -/
abbrev FCompoundWrite := FImmutableTree FNode

namespace FCompoundWrite

open FImmutableTree (empty ofValue)

/-- `emptyWrite`. -/
def emptyWrite : FCompoundWrite := empty

/-- `addWrite:atPath:`. -/
def addWrite (write : FCompoundWrite) (node : FNode) (path : Path) : FCompoundWrite :=
  if path = [] then ofValue node
  else
    match write.findRootMostValueAndPath path with
    | some rootMost =>
        let relativePath := path.drop rootMost.1.length
        write.setValue (rootMost.2.updateChild relativePath node) rootMost.1
    | none => write.setTree (ofValue node) path

/-- `addCompoundWrite:atPath:`. -/
def addCompoundWrite (write compoundWrite : FCompoundWrite) (path : Path) : FCompoundWrite :=
  compoundWrite.forEach.foldl (fun newWrite x => addWrite newWrite x.2 (path ++ x.1)) write

/-- `removeWriteAtPath:`. -/
def removeWriteAtPath (write : FCompoundWrite) (path : Path) : FCompoundWrite :=
  if path = [] then emptyWrite else write.setTree empty path

/-- `completeNodeAtPath:`. -/
def completeNodeAtPath (write : FCompoundWrite) (path : Path) : Option FNode :=
  match write.findRootMostValueAndPath path with
  | some rootMost => some (rootMost.2.getChild (path.drop rootMost.1.length))
  | none => none

/-- `hasCompleteWriteAtPath:`. -/
def hasCompleteWriteAtPath (write : FCompoundWrite) (path : Path) : Bool :=
  (completeNodeAtPath write path).isSome

/-- `childCompoundWriteAtPath:`. -/
def childCompoundWriteAtPath (write : FCompoundWrite) (path : Path) : FCompoundWrite :=
  if path = [] then write
  else
    match completeNodeAtPath write path with
    | some shadowingNode => ofValue shadowingNode
    | none => write.subtreeAtPath path

mutual

/-- `applySubtreeWrite:atPath:toNode:`. -/
def applySubtreeWrite : FImmutableTree FNode → Path → FNode → FNode
  | .node (some value) _, relativePath, node => node.updateChild relativePath value
  | .node none children, relativePath, node => applyChildren children relativePath node

def applyChildren : List (String × FImmutableTree FNode) → Path → FNode → FNode
  | [], _, node => node
  | (childKey, childTree) :: children, relativePath, node =>
      applyChildren children relativePath
        (applySubtreeWrite childTree (relativePath ++ [childKey]) node)

end

/-- `applyToNode:`. -/
def applyToNode (write : FCompoundWrite) (node : FNode) : FNode := applySubtreeWrite write [] node

/-! ### The overlay of a compound write -/

/-- The pending writes, with the trees they write. -/
def overlay (write : FCompoundWrite) : Overlay String Scalar := write.toTree.map FNode.data

/-- Well-formed nodes at plain paths. -/
structure Placed (write : FCompoundWrite) : Prop where
  wf : write.WellFormed FNode.WellFormed
  plain : ∀ x ∈ write.toTree.leaves, PlainPath x.1

/-- What the client's compound writes satisfy besides: only a write at the root may be
empty. -/
structure Valid (write : FCompoundWrite) : Prop extends Placed write where
  nonempty : ∀ x ∈ write.toTree.leaves, x.2.isEmpty = false ∨ x.1 = []

variable {write : FCompoundWrite} {target : FNode} {path : Path}

theorem Placed.wellFormed (h : Placed write) {x : Path × FNode} (hx : x ∈ write.toTree.leaves) :
    x.2.WellFormed := h.wf.of_mem_forEach (h.wf.mem_toTree.mp hx)

/-- The children of a compound write are compound writes. -/
theorem Placed.child (h : Placed write) {x : String × FCompoundWrite} (hx : x ∈ write.children) :
    Plain x.1 ∧ Placed x.2 := by
  obtain ⟨value, children⟩ := write
  have hwf := h.wf
  cases hwf with
  | value hv => cases hx
  | children sorted nonempty wf =>
      have hmem : ∀ {y}, y ∈ x.2.toTree.leaves → PlainPath (x.1 :: y.1) := fun {y} hy => by
        refine h.plain (x.1 :: y.1, y.2) (h.wf.mem_toTree_cons.mpr ?_)
        rwa [FImmutableTree.child_of_mem sorted hx]
      obtain ⟨y, hy⟩ := (wf x hx).exists_leaf (nonempty x hx)
      exact ⟨(plainPath_cons.mp (hmem hy)).1, wf x hx, fun z hz => (plainPath_cons.mp (hmem hz)).2⟩

theorem valid_emptyWrite : Valid emptyWrite :=
  ⟨⟨FImmutableTree.wellFormed_empty, by simp [emptyWrite]⟩, by simp [emptyWrite]⟩

theorem valid_ofValue (h : target.WellFormed) : Valid (ofValue target) :=
  ⟨⟨FImmutableTree.wellFormed_ofValue h, by simp⟩, by simp⟩

@[simp] theorem overlay_emptyWrite : overlay emptyWrite = ∅ := rfl

@[simp] theorem overlay_ofValue (n : FNode) : overlay (ofValue n) = leaf n.data := by
  rw [overlay, FImmutableTree.toTree_ofValue, map_leaf]

theorem mem_overlay {e : Path × Snapshot} :
    e ∈ (overlay write).leaves ↔ ∃ n, (e.1, n) ∈ write.toTree.leaves ∧ n.data = e.2 := mem_map

theorem rootMost_overlay (h : Valid write) (path : Path) :
    (overlay write).rootMost path =
      (write.findRootMostValueAndPath path).map fun x => (x.1, x.2.data) := by
  ext e
  rw [Overlay.rootMost_eq_some_iff, mem_overlay, Option.map_eq_some_iff]
  simp only [FImmutableTree.findRootMost_eq_some_iff h.wf]
  constructor
  · rintro ⟨⟨n, hmem, hn⟩, hp⟩
    exact ⟨(e.1, n), ⟨hmem, hp⟩, Prod.ext rfl hn⟩
  · rintro ⟨x, ⟨hmem, hp⟩, rfl⟩
    exact ⟨⟨x.2, hmem, rfl⟩, hp⟩

/-! ### Writes are layered -/

/-- What is written where, when one value is replaced. -/
theorem mem_toTree_of_graft {write' : FCompoundWrite} {p : Path} {n : FNode}
    (htree : write'.toTree = write.toTree.graft p (leaf n)) {x : Path × FNode}
    (hx : x ∈ write'.toTree.leaves) : x ∈ write.toTree.leaves ∨ x = (p, n) := by
  rw [htree, mem_graft] at hx
  rcases hx with ⟨hx, -⟩ | ⟨q, hq, hpath⟩
  · exact Or.inl hx
  · obtain ⟨rfl, hv⟩ : q = [] ∧ x.2 = n := by simpa using hq
    exact Or.inr (Prod.ext (by simpa using hpath) hv)

theorem Placed.of_graft (h : Placed write) {write' : FCompoundWrite} {p : Path} {n : FNode}
    (hwf : write'.WellFormed FNode.WellFormed) (hp : PlainPath p)
    (htree : write'.toTree = write.toTree.graft p (leaf n)) : Placed write' := by
  refine ⟨hwf, fun x hx => ?_⟩
  rcases mem_toTree_of_graft htree hx with hx | rfl
  · exact h.plain x hx
  · exact hp

theorem Valid.of_graft (h : Valid write) {write' : FCompoundWrite} {p : Path} {n : FNode}
    (hplaced : Placed write') (hn : n.isEmpty = false)
    (htree : write'.toTree = write.toTree.graft p (leaf n)) : Valid write' := by
  refine ⟨hplaced, fun x hx => ?_⟩
  rcases mem_toTree_of_graft htree hx with hx | rfl
  · exact h.nonempty x hx
  · exact Or.inl hn

/-- `addWrite:atPath:` puts the write into the value at or above the path, or where there
is none at the path. -/
theorem toTree_addWrite (h : Placed write) (htarget : target.WellFormed) (hp : PlainPath path) :
    Placed (addWrite write target path) ∧
      (addWrite write target path).toTree = match write.findRootMostValueAndPath path with
        | some rootMost => write.toTree.graft rootMost.1
            (leaf (rootMost.2.updateChild (path.drop rootMost.1.length) target))
        | none => write.toTree.graft path (leaf target) := by
  unfold addWrite
  split
  · next hnil =>
    subst hnil
    refine ⟨(valid_ofValue htarget).toPlaced, ?_⟩
    rw [FImmutableTree.toTree_ofValue]
    cases hroot : write.findRootMostValueAndPath [] with
    | some rootMost =>
        obtain ⟨-, hnil⟩ := (FImmutableTree.findRootMost_eq_some_iff h.wf).mp hroot
        simp [List.prefix_nil.mp hnil, FNode.updateChild]
    | none => simp
  · cases hroot : write.findRootMostValueAndPath path with
    | some rootMost =>
        obtain ⟨hmem, ⟨q, rfl⟩⟩ := (FImmutableTree.findRootMost_eq_some_iff h.wf).mp hroot
        obtain ⟨hpr, hpq⟩ := plainPath_append.mp hp
        simp only [List.drop_left]
        obtain ⟨hwf, htree⟩ := FImmutableTree.toTree_setValue h.wf
          ((h.wellFormed hmem).updateChild hpq htarget) hmem
        exact ⟨h.of_graft hwf hpr htree, htree⟩
    | none =>
        have habove : write.NoValueAbove path := fun x hx hxp => by
          have := (FImmutableTree.findRootMost_eq_some_iff h.wf).mpr ⟨hx, hxp⟩
          simp [hroot] at this
        have hnew := FImmutableTree.wellFormed_ofValue htarget
        have htree := FImmutableTree.toTree_setTree h.wf hnew habove
        rw [FImmutableTree.toTree_ofValue] at htree
        exact ⟨h.of_graft (h.wf.setTree hnew habove) hp htree, htree⟩

/-- **`addWrite:atPath:` layers the write over the others.** -/
theorem overlay_addWrite (h : Valid write) (htarget : target.WellFormed)
    (hne : target.isEmpty = false) (hp : PlainPath path) :
    Valid (addWrite write target path) ∧
      overlay (addWrite write target path) = (overlay write).add path target.data := by
  obtain ⟨hplaced, htree⟩ := toTree_addWrite h.toPlaced htarget hp
  rw [Overlay.add, rootMost_overlay h]
  cases hroot : write.findRootMostValueAndPath path with
  | some rootMost =>
      rw [hroot] at htree
      obtain ⟨hmem, ⟨q, rfl⟩⟩ := (FImmutableTree.findRootMost_eq_some_iff h.wf).mp hroot
      simp only [List.drop_left, Option.map_some] at htree ⊢
      refine ⟨h.of_graft hplaced (FNode.isEmpty_updateChild hne) htree, ?_⟩
      rw [overlay, htree, map_graft, map_leaf,
        FNode.data_updateChild (h.wellFormed hmem) (plainPath_append.mp hp).2 htarget (Or.inl hne)]
      rfl
  | none =>
      rw [hroot] at htree
      refine ⟨h.of_graft hplaced hne htree, ?_⟩
      simp only [Option.map_none]
      rw [overlay, htree, map_graft, map_leaf]
      rfl

/-- What a compound write writes, at which paths, below `path`. -/
def changes (write : FCompoundWrite) (path : Path) : List (Path × Snapshot) :=
  write.forEach.map fun x => (path ++ x.1, x.2.data)

theorem changes_ne_nil (h : Placed write) (hne : write.isEmpty = false) (path : Path) :
    changes write path ≠ [] := by
  obtain ⟨x, hx⟩ := h.wf.exists_leaf hne
  rw [changes, Ne, List.map_eq_nil_iff]
  exact List.ne_nil_of_mem (h.wf.mem_toTree.mp hx)

theorem changes_incomparable (h : Valid write) (path : Path) :
    (changes write path).Pairwise fun x y => Incomparable x.1 y.1 :=
  List.pairwise_map.mpr (h.wf.forEach_incomparable.imp Incomparable.append_left.mpr)

/-- Writes added one after another are layered. -/
theorem overlay_foldl_addWrite {β : Type} {f : β → Path × FNode} {xs : List β} (h : Valid write)
    (hxs : ∀ x ∈ xs, (f x).2.WellFormed ∧ (f x).2.isEmpty = false ∧ PlainPath (f x).1) :
    Valid (xs.foldl (fun write x => addWrite write (f x).2 (f x).1) write) ∧
      overlay (xs.foldl (fun write x => addWrite write (f x).2 (f x).1) write) =
        (overlay write).addAll (xs.map fun x => ((f x).1, (f x).2.data)) := by
  induction xs generalizing write with
  | nil => exact ⟨h, rfl⟩
  | cons x xs ih =>
      obtain ⟨⟨hx, hxne, hxp⟩, hxs⟩ := List.forall_mem_cons.mp hxs
      obtain ⟨hvalid, hoverlay⟩ := overlay_addWrite h hx hxne hxp
      rw [List.foldl_cons, List.map_cons, Overlay.addAll_cons, ← hoverlay]
      exact ih hvalid hxs

/-- **`addCompoundWrite:atPath:` layers its writes one after another.** -/
theorem overlay_addCompoundWrite (h : Valid write) {compoundWrite : FCompoundWrite}
    (hcompound : Valid compoundWrite) (hne : ∀ x ∈ compoundWrite.forEach, x.2.isEmpty = false)
    (hp : PlainPath path) :
    Valid (addCompoundWrite write compoundWrite path) ∧
      overlay (addCompoundWrite write compoundWrite path) =
        (overlay write).addAll (changes compoundWrite path) := by
  refine overlay_foldl_addWrite (f := fun x : Path × FNode => (path ++ x.1, x.2)) h fun x hx => ?_
  have hmem := hcompound.wf.mem_toTree.mpr hx
  have hwf := hcompound.wellFormed hmem
  exact ⟨hwf, hne x hx, plainPath_append.mpr ⟨hp, hcompound.plain x hmem⟩⟩

/-- **`removeWriteAtPath:` takes back the writes at or below the path.** -/
theorem overlay_removeWriteAtPath (h : Valid write) (path : Path) :
    Valid (removeWriteAtPath write path) ∧
      overlay (removeWriteAtPath write path) = (overlay write).remove path := by
  unfold removeWriteAtPath
  split
  · next hnil =>
    subst hnil
    refine ⟨valid_emptyWrite, ?_⟩
    rw [overlay_emptyWrite, Overlay.remove, prune_nil]
  · obtain ⟨hwf, htree⟩ := FImmutableTree.toTree_setTree_empty h.wf path
    have hsub : ∀ {x}, x ∈ (write.setTree empty path).toTree.leaves → x ∈ write.toTree.leaves :=
      fun hx => (mem_prune.mp (htree ▸ hx)).1
    refine ⟨⟨⟨hwf, fun x hx => h.plain x (hsub hx)⟩, fun x hx => h.nonempty x (hsub hx)⟩, ?_⟩
    rw [overlay, htree, map_prune]
    rfl

/-! ### Writes are applied -/

/-- Applying a compound write updates the node at each path it writes. -/
theorem applySubtreeWrite_eq {t : FImmutableTree FNode} (h : t.WellFormed FNode.WellFormed)
    (p : Path) (n : FNode) :
    applySubtreeWrite t p n = t.forEach.foldl (fun n x => n.updateChild (p ++ x.1) x.2) n := by
  induction h generalizing p n with
  | value hv => simp [applySubtreeWrite, FImmutableTree.forEach, FImmutableTree.forEachChild]
  | @children children sorted nonempty wf ih =>
      rw [applySubtreeWrite, FImmutableTree.forEach, Option.map_none, Option.toList_none,
        List.append_nil]
      clear sorted nonempty wf
      induction children generalizing n with
      | nil => rfl
      | cons e children ihc =>
          obtain ⟨ihe, ihs⟩ := List.forall_mem_cons.mp ih
          rw [applyChildren, ihc ihs, ihe, FImmutableTree.forEachChild, List.foldl_append,
            List.foldl_map]
          simp only [List.append_assoc, List.singleton_append]

theorem Placed.of_mem_forEach (h : Placed write) {x : Path × FNode} (hx : x ∈ write.forEach) :
    x.2.WellFormed ∧ PlainPath x.1 :=
  ⟨h.wellFormed (h.wf.mem_toTree.mpr hx), h.plain x (h.wf.mem_toTree.mpr hx)⟩

theorem wellFormed_applyToNode (h : Placed write) (htarget : target.WellFormed) :
    (applyToNode write target).WellFormed := by
  have hall : ∀ x ∈ write.forEach, x.2.WellFormed ∧ PlainPath x.1 := fun x hx => h.of_mem_forEach hx
  rw [applyToNode, applySubtreeWrite_eq h.wf]
  simp only [List.nil_append]
  generalize write.forEach = xs at hall
  induction xs generalizing target with
  | nil => exact htarget
  | cons x xs ih =>
      obtain ⟨⟨hx, hxp⟩, hxs⟩ := List.forall_mem_cons.mp hall
      exact ih (htarget.updateChild hxp hx) hxs

/-- The overlay makes the changes of the write. -/
theorem apply_overlay (h : Valid write) (t : Snapshot) :
    (overlay write).apply t = t.graftAll (changes write []) := by
  have hmem : ∀ w, w ∈ (overlay write).leaves ↔ w ∈ changes write [] := by
    intro w
    rw [mem_overlay, changes, List.mem_map]
    constructor
    · rintro ⟨n, hmem, hn⟩
      exact ⟨(w.1, n), h.wf.mem_toTree.mp hmem, Prod.ext rfl hn⟩
    · rintro ⟨x, hx, rfl⟩
      exact ⟨x.2, h.wf.mem_toTree.mpr hx, rfl⟩
  exact graftAll_congr (Overlay.leaves_incomparable _) (changes_incomparable h []) hmem

/-- **`applyToNode:` applies the overlay.** -/
theorem data_applyToNode (h : Valid write) (htarget : target.WellFormed) :
    (applyToNode write target).WellFormed ∧
      (applyToNode write target).data = (overlay write).apply target.data := by
  refine ⟨wellFormed_applyToNode h.toPlaced htarget, ?_⟩
  have hall : ∀ x ∈ write.forEach,
      (x.2.WellFormed ∧ PlainPath x.1) ∧ (x.2.isEmpty = false ∨ x.1 = []) := fun x hx =>
    ⟨h.of_mem_forEach hx, h.nonempty x (h.wf.mem_toTree.mpr hx)⟩
  have hfold : ∀ (xs : List (Path × FNode)) {n : FNode}, n.WellFormed →
      (∀ x ∈ xs, (x.2.WellFormed ∧ PlainPath x.1) ∧ (x.2.isEmpty = false ∨ x.1 = [])) →
      (xs.foldl (fun n x => n.updateChild x.1 x.2) n).data =
        n.data.graftAll (xs.map fun x => (x.1, x.2.data)) := by
    intro xs
    induction xs with
    | nil => exact fun _ _ => rfl
    | cons x xs ih =>
        intro n hn hall
        obtain ⟨⟨⟨hx, hxp⟩, hxne⟩, hxs⟩ := List.forall_mem_cons.mp hall
        have hleaf : x.2.isEmpty = false ∨ n.NoLeafAbove x.1 :=
          hxne.imp_right fun hnil q hq hqne => absurd (by rw [hnil] at hq ⊢; exact List.prefix_nil.mp hq) hqne
        rw [List.foldl_cons, ih (hn.updateChild hxp hx) hxs, FNode.data_updateChild hn hxp hx hleaf]
        rfl
  rw [applyToNode, applySubtreeWrite_eq h.wf]
  simp only [List.nil_append]
  rw [hfold write.forEach htarget hall, apply_overlay h]
  rfl

theorem completeNodeAtPath_eq_some (h : Valid write) (hp : PlainPath path) {n : FNode}
    (hn : completeNodeAtPath write path = some n) :
    n.WellFormed ∧ (overlay write).below path = leaf n.data := by
  unfold completeNodeAtPath at hn
  cases hroot : write.findRootMostValueAndPath path with
  | none => simp [hroot] at hn
  | some rootMost =>
      obtain ⟨hmem, ⟨q, rfl⟩⟩ := (FImmutableTree.findRootMost_eq_some_iff h.wf).mp hroot
      obtain rfl : rootMost.2.getChild q = n := by simpa [hroot] using hn
      have hvalue := h.wellFormed hmem
      refine ⟨hvalue.getChild q, ?_⟩
      rw [Overlay.below, rootMost_overlay h, hroot]
      simp only [Option.map_some, List.drop_left]
      rw [FNode.data_getChild hvalue (plainPath_append.mp hp).2]

theorem completeNodeAtPath_eq_none (h : Valid write)
    (hn : completeNodeAtPath write path = none) :
    (overlay write).below path = (overlay write).subtree path := by
  unfold completeNodeAtPath at hn
  cases hroot : write.findRootMostValueAndPath path with
  | none => rw [Overlay.below, rootMost_overlay h, hroot]; rfl
  | some rootMost => simp [hroot] at hn

/-- **`childCompoundWriteAtPath:` is the overlay below the path.** -/
theorem overlay_childCompoundWriteAtPath (h : Valid write) (hp : PlainPath path) :
    Valid (childCompoundWriteAtPath write path) ∧
      overlay (childCompoundWriteAtPath write path) = (overlay write).below path := by
  unfold childCompoundWriteAtPath
  split
  · next hnil =>
    subst hnil
    exact ⟨h, (Overlay.below_nil _).symm⟩
  · next hnil =>
    cases hcomplete : completeNodeAtPath write path with
    | some n =>
        obtain ⟨hwf, hbelow⟩ := completeNodeAtPath_eq_some h hp hcomplete
        exact ⟨valid_ofValue hwf, by rw [hbelow, overlay_ofValue]⟩
    | none =>
        have htree := FImmutableTree.toTree_subtreeAtPath h.wf path
        have hsub : ∀ {x}, x ∈ (write.subtreeAtPath path).toTree.leaves →
            (path ++ x.1, x.2) ∈ write.toTree.leaves := fun hx => by
          rw [htree] at hx
          exact mem_subtree.mp hx
        refine ⟨⟨⟨h.wf.subtreeAtPath path, fun x hx => ?_⟩, fun x hx => ?_⟩, ?_⟩
        · exact (plainPath_append.mp (h.plain _ (hsub hx))).2
        · exact (h.nonempty _ (hsub hx)).imp_right fun hx => (List.append_eq_nil_iff.mp hx).2
        · rw [overlay, htree, map_subtree, completeNodeAtPath_eq_none h hcomplete]
          rfl

theorem overlay_eq_empty_iff (h : Placed write) : overlay write = ∅ ↔ write.isEmpty := by
  rw [← h.wf.toTree_eq_empty_iff, overlay, eq_empty_iff, eq_empty_iff, List.eq_nil_iff_forall_not_mem,
    List.eq_nil_iff_forall_not_mem]
  constructor
  · exact fun hnone x hx => hnone (x.1, x.2.data) (mem_map.mpr ⟨x.2, hx, rfl⟩)
  · rintro hnone x hx
    obtain ⟨n, hn, -⟩ := mem_map.mp hx
    exact hnone _ hn

/-- A child is what the overlay has below its key, and it is not empty. -/
theorem overlay_child (h : Valid write) {x : String × FCompoundWrite} (hx : x ∈ write.children) :
    Plain x.1 ∧ Valid x.2 ∧ overlay x.2 = (overlay write).subtree [x.1] ∧ overlay x.2 ≠ ∅ ∧
      (overlay write).below [x.1] = (overlay write).subtree [x.1] := by
  obtain ⟨hk, hplaced⟩ := h.toPlaced.child hx
  obtain ⟨value, children⟩ := write
  have hwf := h.wf
  cases hwf with
  | value hv => cases hx
  | children sorted nonempty wf =>
      have htree : x.2.toTree = (FImmutableTree.node none children).toTree.subtree [x.1] := by
        rw [h.wf.subtree_toTree, FImmutableTree.child_of_mem sorted hx]
      refine ⟨hk, ⟨hplaced, fun y hy => ?_⟩, ?_, ?_, Overlay.below_eq_subtree ?_⟩
      · rw [htree] at hy
        exact Or.inl ((h.nonempty _ (mem_subtree.mp hy)).resolve_right (by simp))
      · rw [overlay, htree, map_subtree]
        rfl
      · rw [Ne, overlay_eq_empty_iff hplaced]
        simp [nonempty x hx]
      · -- a value at the root would leave no children
        intro e he hprefix
        obtain ⟨n, hn, -⟩ := mem_overlay.mp he
        rcases List.prefix_cons_iff.mp hprefix with hnil | ⟨q, hq, hqnil⟩
        · rw [hnil] at hn
          exact absurd (h.wf.mem_toTree_nil.mp hn) (by simp [FImmutableTree.value])
        · rw [hq, List.prefix_nil.mp hqnil]

/-- Without a value at the root, nothing is deleted. -/
theorem Valid.ne_empty_of_mem_overlay (h : Valid write) (hvalue : write.value = none)
    {e : Path × Snapshot} (he : e ∈ (overlay write).leaves) : e.2 ≠ ∅ := by
  obtain ⟨n, hn, hdata⟩ := mem_overlay.mp he
  rw [← hdata, Ne, (h.wellFormed hn).data_eq_empty_iff, Bool.not_eq_true]
  refine (h.nonempty _ hn).resolve_right fun hnil => ?_
  obtain ⟨q, s⟩ := e
  obtain rfl : q = [] := hnil
  simp [h.wf.mem_toTree_nil.mp hn] at hvalue

/-- Without a value at the root, every write is below a child. -/
theorem exists_child_of_mem_overlay (h : Valid write) (hvalue : write.value = none)
    {e : Path × Snapshot} (he : e ∈ (overlay write).leaves) : ∃ x ∈ write.children, [x.1] <+: e.1 := by
  obtain ⟨n, hn, -⟩ := mem_overlay.mp he
  obtain ⟨q, s⟩ := e
  cases q with
  | nil => simp [h.wf.mem_toTree_nil.mp hn] at hvalue
  | cons k q =>
      rw [h.wf.mem_toTree_cons] at hn
      obtain ⟨value, children⟩ := write
      have hwf := h.wf
      cases hwf with
      | value hv => cases hvalue
      | children sorted nonempty wf =>
          have hchild : ((FImmutableTree.node none children).child k).isEmpty = false := by
            by_contra hempty
            rw [Bool.not_eq_false, FImmutableTree.isEmpty_iff] at hempty
            rw [hempty] at hn
            cases hn
          exact ⟨_, FImmutableTree.mem_of_child sorted hchild, ⟨q, rfl⟩⟩

theorem completeNodeAtPath_eq_none_iff (h : Valid write) :
    completeNodeAtPath write path = none ↔ (overlay write).rootMost path = none := by
  rw [rootMost_overlay h, completeNodeAtPath]
  cases write.findRootMostValueAndPath path <;> simp

/-- There is a complete write at a path exactly when one stands at or above it. -/
theorem hasCompleteWriteAtPath_iff (h : Valid write) :
    hasCompleteWriteAtPath write path ↔ ∃ e ∈ (overlay write).leaves, e.1 <+: path := by
  rw [hasCompleteWriteAtPath, Option.isSome_iff_ne_none, Ne, completeNodeAtPath_eq_none_iff h,
    Overlay.rootMost_eq_none_iff]
  push Not
  rfl

theorem hasCompleteWriteAtPath_childCompoundWriteAtPath (h : Valid write) (hp : PlainPath path) :
    hasCompleteWriteAtPath (childCompoundWriteAtPath write path) [] =
      hasCompleteWriteAtPath write path := by
  obtain ⟨hvalid, hoverlay⟩ := overlay_childCompoundWriteAtPath h hp
  rw [Bool.eq_iff_iff, hasCompleteWriteAtPath_iff hvalid, hoverlay, hasCompleteWriteAtPath_iff h]
  simp only [List.prefix_nil]
  unfold Overlay.below
  cases hroot : (overlay write).rootMost path with
  | some e =>
      obtain ⟨he, hpe⟩ := Overlay.of_rootMost_eq_some hroot
      exact iff_of_true ⟨([], e.2.subtree (path.drop e.1.length)), by simp, rfl⟩ ⟨e, he, hpe⟩
  | none =>
      have hnone := Overlay.not_prefix_of_rootMost_eq_none hroot
      refine iff_of_false ?_ (by push Not; exact hnone)
      rintro ⟨⟨q, s⟩, hmem, rfl⟩
      have hmem := mem_subtree.mp hmem
      exact hnone _ hmem (by simp)

/-- A plain key that is none of finitely many. -/
theorem exists_plain_notMem (ks : List String) : ∃ k, Plain k ∧ k ∉ ks := by
  obtain ⟨n, hn⟩ := Infinite.exists_notMem_finset (ks.map fun k => k.toList.length).toFinset
  refine ⟨String.ofList (List.replicate n 'a'), fun m _ _ h => ?_, fun hmem => hn ?_⟩
  · -- a minus sign is no `a`
    have hlist := String.ofList_injective h
    cases n <;> simp [List.replicate_succ] at hlist
  · exact List.mem_toFinset.mpr (List.mem_map.mpr ⟨_, hmem, by simp⟩)

theorem getChild_applyToNode_of_complete (h : Valid write) (hp : PlainPath path) {n node : FNode}
    (hn : completeNodeAtPath write path = some n) (hnode : node.WellFormed) :
    (applyToNode write node).getChild path = n := by
  obtain ⟨hwf, hdata⟩ := data_applyToNode h hnode
  obtain ⟨hn', hbelow⟩ := completeNodeAtPath_eq_some h hp hn
  refine (hwf.getChild path).eq_of_data hn' ?_
  rw [FNode.data_getChild hwf hp, hdata, Overlay.subtree_apply, hbelow]
  simp [Overlay.apply, graftAll]

/-- Where no write is complete there is a place that no write reaches. -/
theorem exists_unreached (h : Valid write)
    (hn : completeNodeAtPath write path = none) :
    ∃ k, Plain k ∧ ∀ e ∈ (overlay write).leaves, Incomparable e.1 (path ++ [k]) := by
  obtain ⟨k, hk, hnew⟩ := exists_plain_notMem ((overlay write).leaves.flatMap Prod.fst)
  have hfresh : ∀ e ∈ (overlay write).leaves, k ∉ e.1 := fun e he hmem =>
    hnew (List.mem_flatMap.mpr ⟨e, he, hmem⟩)
  have habove := Overlay.not_prefix_of_rootMost_eq_none ((completeNodeAtPath_eq_none_iff h).mp hn)
  refine ⟨k, hk, fun e he => ⟨fun hpre => ?_, fun hpre => hfresh e he (hpre.subset (by simp))⟩⟩
  rcases List.prefix_concat_iff.mp hpre with heq | hpre
  · exact hfresh e he (by rw [heq]; simp)
  · exact habove e he hpre

end FCompoundWrite

end MyChat
