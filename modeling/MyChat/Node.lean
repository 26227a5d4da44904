import MyChat.Firebase
import MyChat.Keys
import MyChat.Lib.Overlay

/-!
# MyChat.Node

The nodes of the Firebase client, `FLeafNode` and `FChildrenNode`: what a write
carries, what the server sends and what an observer is handed. Children are kept in
the order of `keyComparator`. Priorities are left out: a path that `child:` accepts has
no piece `.priority`, and the app sets none.

A node is well formed when its children are sorted, plain and not empty; every
operation keeps that. The tree a well-formed node stands for is `data`, and the
operations on nodes are the operations on trees (`data_getChild`, `data_updateChild`),
with one exception: deleting below a leaf leaves the leaf where it is, while storing
`null` there on the server makes it give way. `NoLeafAbove` excludes that.
-/

namespace MyChat

open SortedList FUtilities PathTree

/-- A leaf, or the children under their keys. -/
inductive FNode
  | leaf (value : Scalar)
  | children (entries : List (String × FNode))

namespace FNode

/-! ### Operations -/

/-- `[FEmptyNode emptyNode]`. -/
def emptyNode : FNode := .children []

/-- `isEmpty`. -/
def isEmpty : FNode → Bool
  | .leaf _ => false
  | .children entries => entries.isEmpty

/-- `isLeafNode`, with the value. -/
def leafValue : FNode → Option Scalar
  | .leaf value => some value
  | .children _ => none

/-- `getImmediateChild:`. -/
def getImmediateChild : FNode → String → FNode
  | .leaf _, _ => emptyNode
  | .children entries, childName => (get keyComparator childName entries).getD emptyNode

/-- `getChild:`. -/
def getChild : FNode → Path → FNode
  | node, [] => node
  | .leaf _, _ :: _ => emptyNode
  | node, front :: path => (node.getImmediateChild front).getChild path

/-- `updateImmediateChild:withNewChild:` of an `FChildrenNode`. -/
def updateEntries (entries : List (String × FNode)) (childName : String) (newChildNode : FNode) :
    FNode :=
  if newChildNode.isEmpty then .children (erase keyComparator childName entries)
  else .children (SortedList.insert keyComparator childName newChildNode entries)

/-- `updateImmediateChild:withNewChild:`. -/
def updateImmediateChild : FNode → String → FNode → FNode
  | .leaf value, childName, newChildNode =>
      if newChildNode.isEmpty then .leaf value else updateEntries [] childName newChildNode
  | .children entries, childName, newChildNode => updateEntries entries childName newChildNode

/-- `updateChild:withNewChild:`. -/
def updateChild : FNode → Path → FNode → FNode
  | _, [], newChildNode => newChildNode
  | .leaf value, front :: path, newChildNode =>
      -- deleting below a leaf deletes nothing
      if newChildNode.isEmpty then .leaf value
      else (leaf value).updateImmediateChild front (emptyNode.updateChild path newChildNode)
  | .children entries, front :: path, newChildNode =>
      (children entries).updateImmediateChild front
        (((children entries).getImmediateChild front).updateChild path newChildNode)

/-- The value found at a path, if a leaf is there. -/
def valueAt (node : FNode) (path : Path) : Option Scalar := (node.getChild path).leafValue

@[simp] theorem isEmpty_emptyNode : emptyNode.isEmpty = true := rfl
@[simp] theorem isEmpty_leaf (value : Scalar) : (leaf value).isEmpty = false := rfl
@[simp] theorem getChild_nil (node : FNode) : node.getChild [] = node := by cases node <;> rfl
@[simp] theorem valueAt_nil (node : FNode) : node.valueAt [] = node.leafValue := by simp [valueAt]

theorem isEmpty_iff {node : FNode} : node.isEmpty ↔ node = emptyNode := by
  cases node <;> simp [isEmpty, emptyNode]

@[simp] theorem getImmediateChild_leaf (value : Scalar) (k : String) :
    (leaf value).getImmediateChild k = emptyNode := rfl

@[simp] theorem getImmediateChild_emptyNode (k : String) : emptyNode.getImmediateChild k = emptyNode := rfl

@[simp] theorem getChild_emptyNode (path : Path) : emptyNode.getChild path = emptyNode := by
  induction path with
  | nil => rfl
  | cons k path ih => exact ih

theorem getChild_cons (node : FNode) (k : String) (path : Path) :
    node.getChild (k :: path) = (node.getImmediateChild k).getChild path := by
  cases node with
  | leaf value => exact (getChild_emptyNode path).symm
  | children entries => rfl

theorem getChild_append (node : FNode) (p q : Path) :
    node.getChild (p ++ q) = (node.getChild p).getChild q := by
  induction p generalizing node with
  | nil => rw [getChild_nil]; rfl
  | cons k p ih => rw [List.cons_append, getChild_cons, getChild_cons, ih]

theorem valueAt_cons (node : FNode) (k : String) (path : Path) :
    node.valueAt (k :: path) = (node.getImmediateChild k).valueAt path := by
  rw [valueAt, getChild_cons, valueAt]

@[simp] theorem valueAt_emptyNode (path : Path) : emptyNode.valueAt path = none := by
  rw [valueAt, getChild_emptyNode]
  rfl

/-! ### Well-formed nodes -/

/-- Children are sorted, under plain keys, and none of them is empty. -/
inductive WellFormed : FNode → Prop
  | leaf (value : Scalar) : WellFormed (.leaf value)
  | children {entries : List (String × FNode)} (sorted : Sorted keyComparator entries)
      (plain : KeysIn Plain entries) (nonempty : ∀ e ∈ entries, e.2.isEmpty = false)
      (wf : ∀ e ∈ entries, WellFormed e.2) : WellFormed (.children entries)

theorem wellFormed_emptyNode : emptyNode.WellFormed :=
  .children sorted_nil (by simp [KeysIn]) (by simp) (by simp)

end FNode

/-- All pieces are plain keys. -/
def PlainPath (path : Path) : Prop := ∀ k ∈ path, Plain k

instance (path : Path) : Decidable (PlainPath path) :=
  inferInstanceAs (Decidable (∀ k ∈ path, Plain k))

@[simp] theorem plainPath_nil : PlainPath [] := by simp [PlainPath]

@[simp] theorem plainPath_cons {k : String} {path : Path} :
    PlainPath (k :: path) ↔ Plain k ∧ PlainPath path := by simp [PlainPath]

@[simp] theorem plainPath_append {p q : Path} :
    PlainPath (p ++ q) ↔ PlainPath p ∧ PlainPath q := List.forall_mem_append

namespace FNode

variable {node newChildNode : FNode} {entries : List (String × FNode)} {k : String} {p : Path}

theorem WellFormed.getImmediateChild (h : node.WellFormed) (k : String) :
    (node.getImmediateChild k).WellFormed := by
  cases h with
  | leaf value => exact wellFormed_emptyNode
  | @children entries sorted plain nonempty wf =>
      rw [FNode.getImmediateChild]
      cases hget : get keyComparator k entries with
      | none => exact wellFormed_emptyNode
      | some child =>
          obtain ⟨k', -, hmem⟩ := exists_mem_of_get hget
          exact wf _ hmem

theorem WellFormed.getChild (h : node.WellFormed) (p : Path) : (node.getChild p).WellFormed := by
  induction p generalizing node with
  | nil => simpa using h
  | cons k p ih => rw [getChild_cons]; exact ih (h.getImmediateChild k)

theorem wellFormed_updateEntries (h : (children entries).WellFormed) (hk : Plain k)
    (hnew : newChildNode.WellFormed) : (updateEntries entries k newChildNode).WellFormed := by
  cases h with
  | children sorted plain nonempty wf =>
      unfold updateEntries
      split
      · have hsub : erase keyComparator k entries ⊆ entries := (sublist_erase k entries).subset
        exact .children (sorted_erase sorted) plain.erase (fun e he => nonempty e (hsub he))
          fun e he => wf e (hsub he)
      · next hne =>
        refine .children (sorted_insert sorted) (plain.insert sorted hk) ?_ ?_
        · intro e he
          rcases (mem_insert sorted).mp he with rfl | ⟨he, -⟩
          · simpa using hne
          · exact nonempty e he
        · intro e he
          rcases (mem_insert sorted).mp he with rfl | ⟨he, -⟩
          · exact hnew
          · exact wf e he

theorem WellFormed.updateImmediateChild (h : node.WellFormed) (hk : Plain k)
    (hnew : newChildNode.WellFormed) : (node.updateImmediateChild k newChildNode).WellFormed := by
  cases node with
  | leaf value =>
      rw [FNode.updateImmediateChild]
      split
      · exact h
      · exact wellFormed_updateEntries wellFormed_emptyNode hk hnew
  | children entries => exact wellFormed_updateEntries h hk hnew

theorem WellFormed.updateChild (h : node.WellFormed) (hp : PlainPath p)
    (hnew : newChildNode.WellFormed) : (node.updateChild p newChildNode).WellFormed := by
  induction p generalizing node with
  | nil => simpa [FNode.updateChild] using hnew
  | cons k p ih =>
      obtain ⟨hk, hp⟩ := plainPath_cons.mp hp
      cases node with
      | leaf value =>
          rw [FNode.updateChild]
          split
          · exact h
          · exact h.updateImmediateChild hk (ih wellFormed_emptyNode hp)
      | children entries =>
          exact h.updateImmediateChild hk (ih (h.getImmediateChild k) hp)

/-! ### The tree a node stands for -/

mutual

/-- The leaves below a node, with the paths that lead to them. -/
def leaves : FNode → List (Path × Scalar)
  | .leaf value => [([], value)]
  | .children entries => leavesOf entries

def leavesOf : List (String × FNode) → List (Path × Scalar)
  | [] => []
  | (k, child) :: entries => child.leaves.map (fun x => (k :: x.1, x.2)) ++ leavesOf entries

end

/-- The tree a node stands for. -/
def data (node : FNode) : Snapshot := PathTree.ofLeaves node.leaves

theorem leavesOf_eq (entries : List (String × FNode)) :
    leavesOf entries = entries.flatMap fun e => e.2.leaves.map fun x => (e.1 :: x.1, x.2) := by
  induction entries with
  | nil => rfl
  | cons e entries ih => rw [leavesOf, ih, List.flatMap_cons]

theorem mem_leavesOf {x : Path × Scalar} :
    x ∈ leavesOf entries ↔ ∃ e ∈ entries, ∃ q, (q, x.2) ∈ e.2.leaves ∧ x.1 = e.1 :: q := by
  rw [leavesOf_eq, List.mem_flatMap]
  refine exists_congr fun e => and_congr_right fun _ => ?_
  constructor
  · intro h
    obtain ⟨y, hy, rfl⟩ := List.mem_map.mp h
    exact ⟨y.1, hy, rfl⟩
  · rintro ⟨q, hq, hpath⟩
    exact List.mem_map.mpr ⟨(q, x.2), hq, Prod.ext hpath.symm rfl⟩

/-- What a child is found under, in a well-formed node. -/
theorem getImmediateChild_of_mem (h : (children entries).WellFormed) {e : String × FNode}
    (he : e ∈ entries) : (children entries).getImmediateChild e.1 = e.2 := by
  cases h with
  | children sorted plain nonempty wf =>
      rw [getImmediateChild, (get_eq_some_iff keyComparator_separates sorted plain (plain e he)).mpr he]
      rfl

theorem mem_of_getImmediateChild (h : (children entries).WellFormed) (hk : Plain k)
    (hne : ((children entries).getImmediateChild k).isEmpty = false) :
    (k, (children entries).getImmediateChild k) ∈ entries := by
  cases h with
  | children sorted plain nonempty wf =>
      rw [getImmediateChild] at hne ⊢
      cases hget : get keyComparator k entries with
      | none => simp [hget] at hne
      | some child => exact (get_eq_some_iff keyComparator_separates sorted plain hk).mp hget

/-- The leaves are what is found along plain paths. -/
theorem WellFormed.mem_leaves (h : node.WellFormed) {q : Path} {v : Scalar} :
    (q, v) ∈ node.leaves ↔ PlainPath q ∧ node.valueAt q = some v := by
  induction h generalizing q with
  | leaf value =>
      cases q with
      | nil => simp [leaves, leafValue, eq_comm]
      | cons k q => simp [leaves, valueAt_cons]
  | @children entries sorted plain nonempty wf ih =>
      have hwf : (FNode.children entries).WellFormed := .children sorted plain nonempty wf
      rw [leaves, mem_leavesOf]
      constructor
      · intro hcase
        obtain ⟨e, he, q, hq, rfl⟩ := hcase
        obtain ⟨hplain, hval⟩ := (ih e he).mp hq
        rw [plainPath_cons, valueAt_cons, getImmediateChild_of_mem hwf he]
        exact ⟨⟨plain e he, hplain⟩, hval⟩
      · rintro ⟨hplain, hval⟩
        cases q with
        | nil => simp [leafValue] at hval
        | cons k q =>
            obtain ⟨hk, hq⟩ := plainPath_cons.mp hplain
            rw [valueAt_cons] at hval
            have hne : ((FNode.children entries).getImmediateChild k).isEmpty = false := by
              by_contra hempty
              rw [Bool.not_eq_false, isEmpty_iff] at hempty
              simp [hempty] at hval
            have hmem := mem_of_getImmediateChild hwf hk hne
            exact ⟨_, hmem, q, (ih _ hmem).mpr ⟨hq, hval⟩, rfl⟩

theorem WellFormed.leaves_incomparable (h : node.WellFormed) :
    node.leaves.Pairwise fun x y => Incomparable x.1 y.1 := by
  induction h with
  | leaf value => simp [leaves]
  | @children entries sorted plain nonempty wf ih =>
      rw [leaves, leavesOf_eq]
      exact incomparable_flatMap sorted.ne ih

theorem WellFormed.mem_data (h : node.WellFormed) {q : Path} {v : Scalar} :
    (q, v) ∈ node.data.leaves ↔ PlainPath q ∧ node.valueAt q = some v := by
  rw [data, mem_ofLeaves h.leaves_incomparable, h.mem_leaves]

/-- Along plain paths a node and its tree hold the same values. -/
theorem WellFormed.get_data (h : node.WellFormed) (hp : PlainPath p) :
    node.data.get p = node.valueAt p := by
  ext v
  rw [PathTree.get_eq_some_iff, h.mem_data]
  exact and_iff_right hp

@[simp] theorem data_leaf (value : Scalar) : (leaf value).data = PathTree.leaf value := by
  simp [data, leaves, ofLeaves]

@[simp] theorem data_emptyNode : emptyNode.data = ∅ := rfl

/-- Reading a child is reading the subtree. -/
theorem data_getChild (h : node.WellFormed) (hp : PlainPath p) :
    (node.getChild p).data = node.data.subtree p := by
  ext ⟨q, v⟩
  rw [(h.getChild p).mem_data, mem_subtree, h.mem_data, plainPath_append, valueAt, valueAt,
    getChild_append]
  simp [hp]

theorem data_getImmediateChild (h : node.WellFormed) (hk : Plain k) :
    (node.getImmediateChild k).data = node.data.subtree [k] := by
  rw [← data_getChild h (by simpa using hk), getChild_cons, getChild_nil]

/-- A well-formed node without leaves is empty. -/
theorem WellFormed.exists_valueAt (h : node.WellFormed) (hne : node.isEmpty = false) :
    ∃ q v, PlainPath q ∧ node.valueAt q = some v := by
  induction h with
  | leaf value => exact ⟨[], value, plainPath_nil, rfl⟩
  | @children entries sorted plain nonempty wf ih =>
      have hwf : (FNode.children entries).WellFormed := .children sorted plain nonempty wf
      obtain ⟨e, he⟩ : ∃ e, e ∈ entries := by
        cases entries with
        | nil => cases hne
        | cons e entries => exact ⟨e, List.mem_cons_self⟩
      obtain ⟨q, v, hq, hv⟩ := ih e he (nonempty e he)
      refine ⟨e.1 :: q, v, plainPath_cons.mpr ⟨plain e he, hq⟩, ?_⟩
      rw [valueAt_cons, getImmediateChild_of_mem hwf he, hv]

theorem WellFormed.data_eq_empty_iff (h : node.WellFormed) : node.data = ∅ ↔ node.isEmpty := by
  constructor
  · intro hdata
    by_contra hne
    obtain ⟨q, v, hq, hv⟩ := h.exists_valueAt (by simpa using hne)
    have hmem := h.mem_data.mpr ⟨hq, hv⟩
    simp [hdata] at hmem
  · intro hempty
    rw [isEmpty_iff.mp hempty, data_emptyNode]

/-- **Canonicity.** Well-formed nodes that stand for the same tree are the same. -/
theorem WellFormed.eq_of_data {node other : FNode} (h : node.WellFormed) (h' : other.WellFormed)
    (hdata : node.data = other.data) : node = other := by
  have hval : ∀ q, PlainPath q → node.valueAt q = other.valueAt q := fun q hq => by
    rw [← h.get_data hq, ← h'.get_data hq, hdata]
  clear hdata
  induction h generalizing other with
  | leaf value =>
      have hroot := hval [] plainPath_nil
      cases other with
      | leaf value' => simpa [leafValue] using hroot
      | children entries' => simp [leafValue] at hroot
  | @children entries sorted plain nonempty wf ih =>
      have hwf : (FNode.children entries).WellFormed := .children sorted plain nonempty wf
      cases h' with
      | leaf value => simpa [leafValue] using hval [] plainPath_nil
      | @children entries' sorted' plain' nonempty' wf' =>
          have hwf' : (FNode.children entries').WellFormed := .children sorted' plain' nonempty' wf'
          congr 1
          have hchild : ∀ k, Plain k → ∀ q, PlainPath q →
              ((FNode.children entries).getImmediateChild k).valueAt q =
                ((FNode.children entries').getImmediateChild k).valueAt q := fun k hk q hq => by
            simpa only [valueAt_cons] using hval (k :: q) (plainPath_cons.mpr ⟨hk, hq⟩)
          refine sorted.ext sorted' fun e => ⟨fun he => ?_, fun he => ?_⟩
          · have hk := plain e he
            have hsame := ih e he (hwf'.getImmediateChild e.1) fun q hq => by
              rw [← hchild e.1 hk q hq, getImmediateChild_of_mem hwf he]
            have hmem := mem_of_getImmediateChild hwf' hk (by rw [← hsame]; exact nonempty e he)
            rwa [← hsame] at hmem
          · have hk := plain' e he
            have hne : ((FNode.children entries).getImmediateChild e.1).isEmpty = false := by
              obtain ⟨q, v, hq, hv⟩ := (wf' e he).exists_valueAt (nonempty' e he)
              by_contra hempty
              rw [Bool.not_eq_false, isEmpty_iff] at hempty
              have := hchild e.1 hk q hq
              rw [hempty, getImmediateChild_of_mem hwf' he, hv] at this
              simp at this
            have hmem := mem_of_getImmediateChild hwf hk hne
            have hsame : (FNode.children entries).getImmediateChild e.1 = e.2 :=
              ih _ hmem (wf' e he) fun q hq => by
                rw [hchild e.1 hk q hq, getImmediateChild_of_mem hwf' he]
            rw [hsame] at hmem
            exact hmem

/-! ### Writing -/

/-- No leaf stands strictly above the path. -/
def NoLeafAbove (node : FNode) (path : Path) : Prop :=
  ∀ q, q <+: path → q ≠ path → node.valueAt q = none

theorem getImmediateChild_updateEntries (h : (children entries).WellFormed)
    (hk : Plain k) {j : String} (hj : Plain j) :
    (updateEntries entries k newChildNode).getImmediateChild j =
      if k = j then newChildNode else (children entries).getImmediateChild j := by
  cases h with
  | children sorted plain nonempty wf =>
      unfold updateEntries
      split
      · next hempty =>
        rw [getImmediateChild, get_erase keyComparator_separates sorted plain hk hj]
        split
        · rw [isEmpty_iff.mp hempty]
          rfl
        · rfl
      · rw [getImmediateChild, get_insert keyComparator_separates sorted plain hk hj]
        split <;> rfl

theorem updateEntries_leafValue : (updateEntries entries k newChildNode).leafValue = none := by
  unfold updateEntries
  split <;> rfl

theorem isEmpty_updateEntries (hnew : newChildNode.isEmpty = false) :
    (updateEntries entries k newChildNode).isEmpty = false := by
  rw [updateEntries, if_neg (by simp [hnew])]
  exact List.isEmpty_eq_false_iff.mpr (insert_ne_nil k newChildNode entries)

/-- What was written is there. -/
theorem isEmpty_updateChild (hnew : newChildNode.isEmpty = false) :
    (node.updateChild p newChildNode).isEmpty = false := by
  induction p generalizing node with
  | nil => simpa [updateChild] using hnew
  | cons k p ih =>
      cases node with
      | leaf value =>
          rw [updateChild, if_neg (by simp [hnew]), updateImmediateChild, if_neg (by simp [ih])]
          exact isEmpty_updateEntries ih
      | children entries => exact isEmpty_updateEntries ih

/-- After a write one level down is what was written, and elsewhere what was there
before. Deleting below a leaf is excluded. -/
theorem getImmediateChild_updateChild (h : node.WellFormed) (hk : Plain k) {j : String}
    (hj : Plain j) (hnew : newChildNode.isEmpty = false ∨ node.leafValue = none) :
    (node.updateChild (k :: p) newChildNode).getImmediateChild j =
      if k = j then (node.getImmediateChild k).updateChild p newChildNode
      else node.getImmediateChild j := by
  cases node with
  | leaf value =>
      have hne : newChildNode.isEmpty = false := by simpa [leafValue] using hnew
      rw [updateChild, if_neg (by simp [hne]), updateImmediateChild,
        if_neg (by simp [isEmpty_updateChild hne]),
        getImmediateChild_updateEntries wellFormed_emptyNode hk hj]
      rfl
  | children entries =>
      rw [updateChild, updateImmediateChild, getImmediateChild_updateEntries h hk hj]

theorem leafValue_updateChild (hnew : newChildNode.isEmpty = false ∨ node.leafValue = none) :
    (node.updateChild (k :: p) newChildNode).leafValue = none := by
  cases node with
  | leaf value =>
      have hne : newChildNode.isEmpty = false := by simpa [leafValue] using hnew
      rw [updateChild, if_neg (by simp [hne]), updateImmediateChild,
        if_neg (by simp [isEmpty_updateChild hne])]
      exact updateEntries_leafValue
  | children entries => exact updateEntries_leafValue

theorem get_data_nil (h : node.WellFormed) : node.data.get [] = node.leafValue := by
  rw [h.get_data plainPath_nil, valueAt_nil]

/-- **Writing.** `updateChild` grafts, unless it deletes below a leaf. -/
theorem data_updateChild (h : node.WellFormed) (hp : PlainPath p) (hnew : newChildNode.WellFormed)
    (hleaf : newChildNode.isEmpty = false ∨ node.NoLeafAbove p) :
    (node.updateChild p newChildNode).data = node.data.graft p newChildNode.data := by
  induction p generalizing node with
  | nil => simp [updateChild]
  | cons k p ih =>
      obtain ⟨hk, hp'⟩ := plainPath_cons.mp hp
      have hroot : newChildNode.isEmpty = false ∨ node.leafValue = none :=
        hleaf.imp_right fun habove => by simpa using habove [] List.nil_prefix (by simp)
      have hchild : newChildNode.isEmpty = false ∨ (node.getImmediateChild k).NoLeafAbove p :=
        hleaf.imp_right fun habove q hq hne => by
          rw [← valueAt_cons]
          exact habove (k :: q) ((List.cons_prefix_cons).mpr ⟨rfl, hq⟩) (by simpa using hne)
      have hwf := h.updateChild hp hnew
      refine ext_children ?_ ?_ fun j => ?_
      · rw [get_data_nil hwf, leafValue_updateChild hroot]
      · rw [← Option.not_isSome_iff_eq_none, Option.isSome_iff_exists]
        rintro ⟨v, hv⟩
        rcases mem_graft.mp (PathTree.get_eq_some_iff.mp hv) with ⟨-, hinc⟩ | ⟨q, -, hpath⟩
        · exact hinc.2 List.nil_prefix
        · simp at hpath
      by_cases hj : Plain j
      · rw [← data_getImmediateChild hwf hj, getImmediateChild_updateChild h hk hj hroot]
        split
        · next hkj =>
          subst hkj
          rw [ih (h.getImmediateChild k) hp' hchild, data_getImmediateChild h hk,
            ← subtree_graft_append, List.singleton_append]
        · next hkj =>
          have hinc : Incomparable (k :: p) [j] :=
            ⟨fun hpre => hkj (List.cons_prefix_cons.mp hpre).1,
              fun hpre => hkj (List.cons_prefix_cons.mp hpre).1.symm⟩
          rw [subtree_graft_of_incomparable hinc, data_getImmediateChild h hj]
      · -- nothing is stored under a key that is not plain
        have hnone : ∀ {n : FNode}, n.WellFormed → n.data.subtree [j] = ∅ := fun hn => by
          rw [eq_empty_iff, List.eq_nil_iff_forall_not_mem]
          rintro ⟨q, v⟩ hmem
          exact hj ((hn.mem_data.mp (mem_subtree.mp hmem)).1 j (by simp))
        have hinc : Incomparable (k :: p) [j] :=
          ⟨fun hpre => hj ((List.cons_prefix_cons.mp hpre).1 ▸ hk),
            fun hpre => hj ((List.cons_prefix_cons.mp hpre).1 ▸ hk)⟩
        rw [hnone hwf, subtree_graft_of_incomparable hinc, hnone h]

theorem WellFormed.noLeafAbove (h : node.WellFormed) (hp : PlainPath p) (hclear : node.data.ClearAbove p) :
    node.NoLeafAbove p := by
  intro q hq hne
  by_contra hsome
  obtain ⟨v, hv⟩ := Option.ne_none_iff_exists'.mp hsome
  have hmem := h.mem_data.mpr ⟨fun k hk => hp k (hq.subset hk), hv⟩
  exact hne (hclear (q, v) hmem hq)

theorem data_updateChild_of_clearAbove (h : node.WellFormed) (hp : PlainPath p)
    (hnew : newChildNode.WellFormed) (hclear : newChildNode.data ≠ ∅ ∨ node.data.ClearAbove p) :
    (node.updateChild p newChildNode).data = node.data.graft p newChildNode.data := by
  refine data_updateChild h hp hnew (hclear.imp (fun hne => ?_) (h.noLeafAbove hp))
  rw [Ne, hnew.data_eq_empty_iff] at hne
  simpa using hne

/-- The node for a tree: its leaves, written one by one. -/
def ofTree (tree : Snapshot) : FNode :=
  tree.leaves.foldl (fun node x => node.updateChild x.1 (leaf x.2)) emptyNode

/-- Every tree with plain keys is the tree of a well-formed node. -/
theorem data_ofTree {tree : Snapshot} (h : ∀ x ∈ tree.leaves, PlainPath x.1) :
    (ofTree tree).WellFormed ∧ (ofTree tree).data = tree := by
  have hfold : ∀ (xs : List (Path × Scalar)) (node : FNode), (∀ x ∈ xs, PlainPath x.1) →
      node.WellFormed →
        (xs.foldl (fun node x => node.updateChild x.1 (leaf x.2)) node).WellFormed ∧
        (xs.foldl (fun node x => node.updateChild x.1 (leaf x.2)) node).data =
          node.data.graftAll (xs.map fun x => (x.1, PathTree.leaf x.2)) := by
    intro xs
    induction xs with
    | nil => exact fun node _ hwf => ⟨hwf, rfl⟩
    | cons x xs ih =>
        intro node hplain hwf
        obtain ⟨hx, hxs⟩ := List.forall_mem_cons.mp hplain
        obtain ⟨hwf', hdata⟩ := ih _ hxs (hwf.updateChild hx (.leaf x.2))
        refine ⟨hwf', ?_⟩
        rw [List.foldl_cons, hdata, data_updateChild hwf hx (.leaf x.2) (Or.inl rfl), data_leaf]
        rfl
  obtain ⟨hwf, hdata⟩ := hfold tree.leaves emptyNode h wellFormed_emptyNode
  refine ⟨hwf, ?_⟩
  rw [ofTree, hdata, data_emptyNode]
  ext x
  exact mem_ofLeaves (tree.ordered.imp Incomparable.of_before)

/-- `isLeafNode`. -/
def isLeafNode (node : FNode) : Bool := node.leafValue.isSome

/-- `hasChild:`. -/
def hasChild (node : FNode) (childName : String) : Bool := ¬ (node.getImmediateChild childName).isEmpty

/-- `enumerateChildrenUsingBlock:`: the children, in key order. -/
def enumerateChildren : FNode → List (String × FNode)
  | .leaf _ => []
  | .children entries => entries

mutual

/-- `isEqual:`. The children are compared the other way round in the source. -/
def isEqual : FNode → FNode → Bool
  | .leaf value, .leaf otherValue => value = otherValue
  | .children entries, .children otherEntries =>
      entries.length = otherEntries.length && isEqualChildren entries (.children otherEntries)
  | _, _ => false

def isEqualChildren : List (String × FNode) → FNode → Bool
  | [], _ => true
  | (key, node) :: entries, other =>
      node.isEqual (other.getImmediateChild key) && isEqualChildren entries other

end

theorem isEqualChildren_iff {other : FNode} :
    isEqualChildren entries other ↔ ∀ e ∈ entries, e.2.isEqual (other.getImmediateChild e.1) := by
  induction entries with
  | nil => simp [isEqualChildren]
  | cons e entries ih => simp [isEqualChildren, ih]

/-- Entries that are among others, and as many as these, are all of them. -/
theorem mem_of_subset_of_length {entries others : List (String × FNode)}
    (h : (children entries).WellFormed) (hsub : ∀ e ∈ entries, e ∈ others)
    (hlen : entries.length = others.length) : ∀ e ∈ others, e ∈ entries := by
  cases h with
  | children sorted plain nonempty wf =>
      have hnodup : entries.Nodup := sorted.ne.imp fun hne heq => hne (by rw [heq])
      have hperm := (List.subperm_of_subset hnodup hsub).perm_of_length_le hlen.ge
      exact fun e he => hperm.mem_iff.mpr he

/-- `isEqual:` is equality of well-formed nodes. -/
theorem isEqual_iff {other : FNode} (h : node.WellFormed) (h' : other.WellFormed) :
    node.isEqual other ↔ node = other := by
  induction h generalizing other with
  | leaf value => cases other <;> simp [isEqual]
  | @children entries sorted plain nonempty wf ih =>
      cases other with
      | leaf value => simp [isEqual]
      | children others =>
          have hwf : (children entries).WellFormed := .children sorted plain nonempty wf
          simp only [isEqual, Bool.and_eq_true, decide_eq_true_eq, isEqualChildren_iff, children.injEq]
          constructor
          · rintro ⟨hlen, hall⟩
            have hsub : ∀ e ∈ entries, e ∈ others := fun e he => by
              have heq := (ih e he (h'.getImmediateChild e.1)).mp (hall e he)
              have hne := nonempty e he
              rw [heq] at hne
              have hmem := mem_of_getImmediateChild h' (plain e he) hne
              rwa [← heq] at hmem
            have hsup := mem_of_subset_of_length hwf hsub hlen
            cases h' with
            | children sorted' plain' nonempty' wf' =>
                exact sorted.ext sorted' fun e => ⟨hsub e, hsup e⟩
          · rintro rfl
            refine ⟨rfl, fun e he => (ih e he (h'.getImmediateChild e.1)).mpr ?_⟩
            exact (getImmediateChild_of_mem hwf he).symm

theorem mem_enumerateChildren (h : node.WellFormed) {e : String × FNode} :
    e ∈ node.enumerateChildren ↔
      Plain e.1 ∧ node.getImmediateChild e.1 = e.2 ∧ e.2.isEmpty = false := by
  cases node with
  | leaf value =>
      simp only [enumerateChildren, List.not_mem_nil, getImmediateChild_leaf, false_iff]
      rintro ⟨-, heq, hne⟩
      rw [← heq] at hne
      cases hne
  | children entries =>
      constructor
      · intro he
        refine ⟨?_, getImmediateChild_of_mem h he, ?_⟩
        · cases h with
          | children sorted plain nonempty wf => exact plain e he
        · cases h with
          | children sorted plain nonempty wf => exact nonempty e he
      · rintro ⟨hk, heq, hne⟩
        have hmem := mem_of_getImmediateChild h hk (heq ▸ hne)
        rwa [heq] at hmem

theorem hasChild_iff {k : String} : node.hasChild k ↔ (node.getImmediateChild k).isEmpty = false := by
  simp [hasChild]

/-- Well-formed nodes that are no leaves are equal when all their children are. -/
theorem WellFormed.eq_of_children {other : FNode} (h : node.WellFormed) (h' : other.WellFormed)
    (hleaf : node.leafValue = other.leafValue)
    (hchild : ∀ k, Plain k → node.getImmediateChild k = other.getImmediateChild k) : node = other := by
  refine h.eq_of_data h' ?_
  ext ⟨q, v⟩
  rw [h.mem_data, h'.mem_data]
  refine and_congr_right fun hq => ?_
  cases q with
  | nil => rw [valueAt_nil, valueAt_nil, hleaf]
  | cons k q => rw [valueAt_cons, valueAt_cons, hchild k (plainPath_cons.mp hq).1]

end FNode

end MyChat
