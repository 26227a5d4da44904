import MyChat.LLRBRemove
import MyChat.Node

/-!
# MyChat.SortedDictionary

`FImmutableSortedDictionary`, which holds the children of a node. Up to
`sizeThreshold` entries it is an `FArraySortedDictionary`, which looks for a key from
the front; an insertion beyond that builds an `FTreeSortedDictionary` from what is
there, and it stays one. A tree is built from its sorted keys by `rootFrom12List`: the
number of keys is written with the digits one and two, and every digit is a chain of that
many pennants, a key with a perfect tree to its right.

Whichever it is, a dictionary is read as the sorted list of its entries, and its operations are
those of `SortedList` (`run_entries`), so that a node can be modelled by the list
(`updateEntries_eq`). The two kinds differ only where the comparator calls two keys equal that are
not: an insertion into the array puts the new key in the place of the old one, and one into the
tree keeps the old one. The keys are therefore taken from a set that it separates.
-/

namespace MyChat

open SortedList FLLRBColor FLLRBNode

variable {κ β : Type*}

/-! ### Sorting the keys -/

/-- `sortUsingComparator:`. -/
def sortUsingComparator (comparator : κ → κ → Ordering) (entries : List (κ × β)) : List (κ × β) :=
  entries.mergeSort fun e f => (comparator e.1 f.1).isLE

/-- Each key is below the next. -/
def ascending (comparator : κ → κ → Ordering) : List (κ × β) → Bool
  | e :: f :: entries => comparator e.1 f.1 = .lt && ascending comparator (f :: entries)
  | _ => true

section Sorting

variable {comparator : κ → κ → Ordering} [Std.TransCmp comparator] {dictionary entries : List (κ × β)}

theorem ascending_iff : ascending comparator entries = true ↔ Sorted comparator entries := by
  induction entries with
  | nil => simp [ascending]
  | cons e entries ih =>
      cases entries with
      | nil => simp [ascending]
      | cons f entries =>
          rw [ascending, Bool.and_eq_true, decide_eq_true_iff, ih]
          constructor
          · intro hsorted
            obtain ⟨hef, hs⟩ := hsorted
            refine sorted_cons.mpr ⟨fun g hg => ?_, hs⟩
            rcases List.mem_cons.mp hg with rfl | hg
            · exact hef
            · exact Std.TransCmp.lt_trans hef ((sorted_cons.mp hs).1 g hg)
          · exact fun hs => ⟨(sorted_cons.mp hs).1 f List.mem_cons_self, (sorted_cons.mp hs).2⟩

theorem isLE_or_isLE (e f : κ × β) :
    ((comparator e.1 f.1).isLE || (comparator f.1 e.1).isLE) = true := by
  cases h : comparator e.1 f.1 with
  | lt => rfl
  | eq => rfl
  | gt => simp [Std.OrientedCmp.lt_of_gt h]

theorem perm_sortUsingComparator (comparator : κ → κ → Ordering) (dictionary : List (κ × β)) :
    (sortUsingComparator comparator dictionary).Perm dictionary := List.mergeSort_perm dictionary _

/-- Sorting brings different keys into their order, and only different ones. -/
theorem sorted_sortUsingComparator_iff :
    Sorted comparator (sortUsingComparator comparator dictionary) ↔
      dictionary.Pairwise fun e f => comparator e.1 f.1 ≠ .eq := by
  have hne := (perm_sortUsingComparator comparator dictionary).pairwise_iff
    (R := fun e f => comparator e.1 f.1 ≠ .eq) fun h heq => h (Std.OrientedCmp.eq_symm heq)
  have hle : (sortUsingComparator comparator dictionary).Pairwise
      fun e f => (comparator e.1 f.1).isLE = true :=
    List.pairwise_mergeSort (fun _ _ _ => Std.TransCmp.isLE_trans) isLE_or_isLE dictionary
  refine ⟨fun hs => hne.mp (hs.imp fun h => by simp [h]), fun h => ?_⟩
  exact (hle.and (hne.mpr h)).imp fun {e f} ⟨hle, hne⟩ =>
    (Ordering.isLE_iff_eq_lt_or_eq_eq.mp hle).resolve_right hne

theorem sortUsingComparator_eq (hs : Sorted comparator entries) (hperm : dictionary.Perm entries) :
    sortUsingComparator comparator dictionary = entries := by
  have hperm' := (perm_sortUsingComparator comparator dictionary).trans hperm
  have hsort : Sorted comparator (sortUsingComparator comparator dictionary) :=
    sorted_sortUsingComparator_iff.mpr
      ((hperm.pairwise_iff fun h heq => h (Std.OrientedCmp.eq_symm heq)).mpr
        (hs.imp fun h => by simp [h]))
  exact hsort.ext hs fun e => hperm'.mem_iff

end Sorting

/-! ### The tree -/

namespace FTreeSortedDictionary

/-- The loop of `get:`. -/
def get (comparator : κ → κ → Ordering) (key : κ) : FLLRBNode κ β → Option β
  | emptyNode => none
  | valueNode nodeKey value _ left right =>
      match comparator key nodeKey with
      | .eq => some value
      | .lt => get comparator key left
      | .gt => get comparator key right

/-- The loop of `getPredecessorKey:`. -/
def getPredecessorKey (comparator : κ → κ → Ordering) (key : κ) :
    Option κ → FLLRBNode κ β → Except String (Option κ)
  | _, emptyNode => throw "getPredecessorKey called with nonexistent key."
  | rightParent, valueNode nodeKey _ _ left right =>
      match comparator key nodeKey with
      | .eq => return if left.isEmpty then rightParent else left.maxKey
      | .lt => getPredecessorKey comparator key rightParent left
      | .gt => getPredecessorKey comparator key (some nodeKey) right

/-- `insertKey:withValue:`. -/
def insertKey (comparator : κ → κ → Ordering) (aKey : κ) (aValue : β) (root : FLLRBNode κ β) :
    FLLRBNode κ β :=
  (root.insertKey comparator aKey aValue).copyWith none none (some BLACK) none none

/-- `removeKey:`. -/
def removeKey (comparator : κ → κ → Ordering) (aKey : κ) (root : FLLRBNode κ β) :
    FLLRBNode κ β :=
  if (get comparator aKey root).isNone then root
  else (root.remove comparator aKey).copyWith none none (some BLACK) none none

/-- `buildBalancedTree:dictionary:subArrayStartIndex:length:`. -/
def buildBalancedTree (keys : List (κ × β)) (startIndex length : Nat) : FLLRBNode κ β :=
  let length' := Min.min (keys.length - startIndex) length
  if length' = 0 then emptyNode
  else if length' = 1 then
    match keys[startIndex]? with
    | some (key, value) => valueNode key value BLACK emptyNode emptyNode
    | none => emptyNode
  else
    let middle := length' / 2
    let left := buildBalancedTree keys startIndex middle
    let right := buildBalancedTree keys (startIndex + middle + 1) middle
    match keys[startIndex + middle]? with
    | some (key, value) => valueNode key value BLACK left right
    | none => emptyNode
termination_by length
decreasing_by
  all_goals
    have hle : length' ≤ length := Nat.min_le_right _ _
    omega

/-- The block `buildPennant` of `rootFrom12List:keyList:dictionary:`. What is built next hangs at its
left. -/
def buildPennant (keyList : List (κ × β)) (color : FLLRBColor) (chunkSize index : Nat)
    (next : FLLRBNode κ β) : FLLRBNode κ β :=
  let startIndex := index - chunkSize + 1
  let childTree := buildBalancedTree keyList startIndex (chunkSize - 1)
  match keyList[index - chunkSize]? with
  | some (key, value) => valueNode key value color next childTree
  | none => next

/-- The loop of `rootFrom12List:keyList:dictionary:`, from the bit `current` of the list down. -/
def rootFrom12List (bits : Nat) (keyList : List (κ × β)) : Nat → Nat → FLLRBNode κ β
  | 0, _ => emptyNode
  | current + 1, index =>
      let isOne := !bits.testBit current
      let chunkSize := 2 ^ current
      if isOne then
        buildPennant keyList BLACK chunkSize index
          (rootFrom12List bits keyList current (index - chunkSize))
      else
        buildPennant keyList BLACK chunkSize index
          (buildPennant keyList RED chunkSize (index - chunkSize)
            (rootFrom12List bits keyList current (index - chunkSize - chunkSize)))

/-- `fromDictionary:withComparator:`, with the entries in any order. `base1_2List_new` counts the
bits of the number of keys plus one without the first, and keeps them. -/
def fromDictionary (comparator : κ → κ → Ordering) (dictionary : List (κ × β)) :
    Except String (FLLRBNode κ β) :=
  let sortedKeyList := sortUsingComparator comparator dictionary
  if ascending comparator sortedKeyList then
    let count := (sortedKeyList.length + 1).log2
    let bits := (sortedKeyList.length + 1) % 2 ^ count
    return rootFrom12List bits sortedKeyList count sortedKeyList.length
  else throw "Can't create FImmutableSortedDictionary with keys with same ordering!"

section Facts

variable {comparator : κ → κ → Ordering} [Std.TransCmp comparator] {key : κ} {value : β} {n : Nat}
  {root : FLLRBNode κ β}

theorem get_eq (hs : Sorted comparator root.toList) :
    get comparator key root = SortedList.get comparator key root.toList := by
  induction root with
  | emptyNode => rfl
  | valueNode k v c l r ihl ihr =>
      obtain ⟨hl, hr, hlk, -⟩ := sorted_valueNode hs
      rw [get, toList_valueNode]
      cases h : comparator key k with
      | lt => rw [get_append_of_lt h, ← ihl hl]
      | eq => rw [get_append_of_eq hlk h]
      | gt => rw [get_append_of_gt hlk h, ← ihr hr]

theorem maxKey_eq (t : FLLRBNode κ β) : t.maxKey = t.toList.getLast?.map Prod.fst := by
  induction t with
  | emptyNode => rfl
  | valueNode k v c l r _ ihr =>
      rw [maxKey, toList_valueNode, List.getLast?_append_of_ne_nil _ (by simp)]
      cases r with
      | emptyNode => rfl
      | valueNode =>
          rw [isEmpty_valueNode, if_neg nofun, ihr, List.getLast?_cons_of_ne_nil]
          simp

/-- The last key below the one looked for, or else the one handed down. -/
theorem getPredecessorKey_eq (hs : Sorted comparator root.toList) (rightParent : Option κ) :
    getPredecessorKey comparator key rightParent root =
      if (SortedList.get comparator key root.toList).isSome then
        .ok (((lower comparator key root.toList).getLast?.map Prod.fst).or rightParent)
      else .error "getPredecessorKey called with nonexistent key." := by
  induction root generalizing rightParent with
  | emptyNode => rfl
  | valueNode k v c l r ihl ihr =>
      obtain ⟨hl, hr, hlk, hkr⟩ := sorted_valueNode hs
      rw [getPredecessorKey, toList_valueNode]
      cases h : comparator key k with
      | lt => rw [get_append_of_lt h, ihl hl, lower_append_of_le hkr (by simp [h])]
      | eq =>
          rw [get_append_of_eq hlk h, lower_append_of_ge hlk (by simp [h]),
            lower_cons_of_le hkr (by simp [h]), List.append_nil, ← maxKey_eq]
          cases l with
          | emptyNode => rfl
          | valueNode =>
              rw [maxKey_eq, List.getLast?_eq_getLast_of_ne_nil (by simp)]
              rfl
      | gt =>
          rw [get_append_of_gt hlk h, ihr hr, lower_append_of_ge hlk (by simp [h]),
            lower_cons_of_gt h, List.getLast?_append_of_ne_nil _ (by simp), List.getLast?_cons]
          cases (lower comparator key r.toList).getLast? <;> rfl

omit [Std.TransCmp comparator] in
theorem balanced_insertKey (comparator : κ → κ → Ordering) (h : Balanced BLACK n root) (aKey : κ)
    (aValue : β) : ∃ m, Balanced BLACK m (insertKey comparator aKey aValue root) := by
  obtain ⟨c, h'⟩ := inserted_insertKey comparator aKey aValue h
  exact h'.blacken

theorem toList_insertKey (hs : Sorted comparator root.toList)
    (hkey : ∀ e ∈ root.toList, comparator key e.1 = .eq → e.1 = key) :
    (insertKey comparator key value root).toList =
      SortedList.insert comparator key value root.toList := by
  obtain ⟨k, heq, hk, hlist⟩ := exists_toList_insertKey hs key value
  have hk : k = key := hk.elim id fun ⟨v, hmem⟩ => hkey _ hmem heq
  rw [insertKey, toList_recolor, hlist, hk]

theorem removeKey_spec (h : Balanced BLACK n root) (hs : Sorted comparator root.toList) (aKey : κ) :
    (∃ m, Balanced BLACK m (removeKey comparator aKey root)) ∧
      (removeKey comparator aKey root).toList = erase comparator aKey root.toList := by
  rw [removeKey, get_eq hs]
  split
  · next hnone =>
    exact ⟨⟨n, h⟩, (erase_eq_self hs
      (ne_eq_of_get_eq_none hs (Option.isNone_iff_eq_none.mp hnone))).symm⟩
  · obtain ⟨hrem, hlist⟩ : Removes comparator aKey BLACK n root := removes (Or.inl h) hs
    exact ⟨hrem.2, by rw [toList_recolor, hlist]⟩

/-- **Balance.** A tree with a black root that passes `check` does so again after any change. An
insertion leaves the entries under other keys and is found again; a removal leaves just these. -/
theorem check_of_change (description : β → String) (hcheck : root.check description = .ok n)
    (hblack : root.isRed = false) (hs : Sorted comparator root.toList) (aKey : κ) (aValue : β) :
    ((∃ m, (insertKey comparator aKey aValue root).check description = .ok m) ∧
      (insertKey comparator aKey aValue root).isRed = false ∧
      get comparator aKey (insertKey comparator aKey aValue root) = some aValue ∧
      ((insertKey comparator aKey aValue root).toList.filter fun e => comparator aKey e.1 ≠ .eq) =
        root.toList.filter fun e => comparator aKey e.1 ≠ .eq) ∧
    (∃ m, (removeKey comparator aKey root).check description = .ok m) ∧
    (removeKey comparator aKey root).isRed = false ∧
    (removeKey comparator aKey root).toList =
      root.toList.filter fun e => comparator aKey e.1 ≠ .eq := by
  obtain ⟨c, hbal⟩ := (check_eq_ok_iff description).mp hcheck
  rw [hbal.isRed_eq] at hblack
  cases c with
  | RED => cases hblack
  | BLACK =>
      obtain ⟨m, hins⟩ := balanced_insertKey comparator hbal aKey aValue
      obtain ⟨⟨m', hrem⟩, hremList⟩ := removeKey_spec hbal hs aKey
      obtain ⟨k, hk, -, hinsList⟩ := exists_toList_insertKey hs aKey aValue
      have hlist : (insertKey comparator aKey aValue root).toList =
          SortedList.insert comparator k aValue root.toList := by
        rw [insertKey, toList_recolor, hinsList]
      have hsorted : Sorted comparator (SortedList.insert comparator k aValue root.toList) :=
        sorted_insert hs
      refine ⟨⟨⟨m, hins.check description⟩, hins.isRed_eq, ?_, ?_⟩,
        ⟨m', hrem.check description⟩, hrem.isRed_eq, hremList.trans (erase_eq_filter hs)⟩
      · rw [get_eq (hlist ▸ hsorted), hlist]
        exact get_of_mem hsorted hk ((mem_insert hs).mpr (Or.inl rfl))
      · rw [hlist, filter_insert hs hk]

theorem check_of_change_three :
    let root : FLLRBNode Nat String := valueNode 2 "b" BLACK (valueNode 1 "a" BLACK emptyNode emptyNode)
      (valueNode 3 "c" BLACK emptyNode emptyNode)
    ((∃ m, (insertKey compare 1 "d" root).check id = .ok m) ∧
      (insertKey compare 1 "d" root).isRed = false ∧
      get compare 1 (insertKey compare 1 "d" root) = some "d" ∧
      ((insertKey compare 1 "d" root).toList.filter fun e => compare 1 e.1 ≠ .eq) =
        root.toList.filter fun e => compare 1 e.1 ≠ .eq) ∧
    (∃ m, (removeKey compare 1 root).check id = .ok m) ∧ (removeKey compare 1 root).isRed = false ∧
    (removeKey compare 1 root).toList = root.toList.filter fun e => compare 1 e.1 ≠ .eq :=
  check_of_change (n := 2) id rfl rfl (by decide) 1 "d"

end Facts

/-! ### Building a tree -/

section Build

variable (keys : List (κ × β))

theorem take_middle (start middle rest : Nat) (h : start + middle < keys.length) :
    (keys.drop start).take (middle + 1 + rest) =
      (keys.drop start).take middle ++
        keys[start + middle] :: (keys.drop (start + middle + 1)).take rest := by
  rw [Nat.add_assoc, List.take_add, List.drop_drop, List.drop_eq_getElem_cons h, Nat.add_comm 1,
    List.take_succ_cons]

theorem buildBalancedTree_zero (start : Nat) : buildBalancedTree keys start 0 = emptyNode := by
  rw [buildBalancedTree]
  simp

theorem buildBalancedTree_odd {start middle : Nat} (h : start + middle + 1 + middle ≤ keys.length) :
    buildBalancedTree keys start (middle + 1 + middle) =
      valueNode keys[start + middle].1 keys[start + middle].2 BLACK
        (buildBalancedTree keys start middle) (buildBalancedTree keys (start + middle + 1) middle) := by
  have hlen : Min.min (keys.length - start) (middle + 1 + middle) = middle + 1 + middle := by omega
  have hmiddle : (middle + 1 + middle) / 2 = middle := by omega
  have hkey : keys[start + middle]? = some keys[start + middle] := List.getElem?_eq_getElem (by omega)
  rw [buildBalancedTree]
  simp only [hlen, hmiddle]
  cases middle with
  | zero =>
      have hkey : keys[start]? = some keys[start] := hkey
      simp [buildBalancedTree_zero, hkey]
  | succ m => rw [if_neg (by omega), if_neg (by omega), hkey]

/-- On a full number of keys, the tree is perfect and all black. -/
theorem buildBalancedTree_spec (height start : Nat) (h : start + (2 ^ height - 1) ≤ keys.length) :
    Balanced BLACK height (buildBalancedTree keys start (2 ^ height - 1)) ∧
      (buildBalancedTree keys start (2 ^ height - 1)).toList =
        (keys.drop start).take (2 ^ height - 1) := by
  induction height generalizing start with
  | zero =>
      rw [pow_zero, Nat.sub_self, buildBalancedTree_zero]
      exact ⟨.empty, rfl⟩
  | succ height ih =>
      have hpos : 0 < 2 ^ height := Nat.two_pow_pos height
      have hlen : 2 ^ (height + 1) - 1 = 2 ^ height - 1 + 1 + (2 ^ height - 1) := by omega
      rw [hlen] at h ⊢
      obtain ⟨hl, hlist⟩ := ih start (by omega)
      obtain ⟨hr, hrist⟩ := ih (start + (2 ^ height - 1) + 1) (by omega)
      rw [buildBalancedTree_odd keys (by omega), toList_valueNode, hlist, hrist, take_middle keys _ _ _ (by omega)]
      exact ⟨.black hl hr, rfl⟩

/-- A pennant: its key, and a perfect tree with the keys up to `index`. -/
theorem exists_buildPennant (color : FLLRBColor) (height index : Nat) (hchunk : 2 ^ height ≤ index)
    (hindex : index ≤ keys.length) :
    ∃ e child, Balanced BLACK height child ∧
      keys.take index = keys.take (index - 2 ^ height) ++ e :: child.toList ∧
      ∀ next, buildPennant keys color (2 ^ height) index next =
        valueNode e.1 e.2 color next child := by
  have hpos : 0 < 2 ^ height := Nat.two_pow_pos height
  have hkey : index - 2 ^ height < keys.length := by omega
  obtain ⟨hchild, hlist⟩ := buildBalancedTree_spec keys height (index - 2 ^ height + 1)
    (by omega)
  refine ⟨keys[index - 2 ^ height], _, hchild, ?_, fun next => ?_⟩
  · have htake := take_middle keys 0 (index - 2 ^ height) (2 ^ height - 1) (by omega)
    simp only [List.drop_zero, Nat.zero_add] at htake
    rw [hlist, ← htake]
    congr 1
    omega
  · rw [buildPennant, List.getElem?_eq_getElem hkey]

/-- The digits that are left stand for the keys before `index`. -/
theorem rootFrom12List_spec (bits current index : Nat)
    (h : index + 1 = 2 ^ current + bits % 2 ^ current) (hindex : index ≤ keys.length) :
    Balanced BLACK current (rootFrom12List bits keys current index) ∧
      (rootFrom12List bits keys current index).toList = keys.take index := by
  induction current generalizing index with
  | zero =>
      obtain rfl : index = 0 := by
        rw [pow_zero, Nat.mod_one] at h
        omega
      exact ⟨.empty, rfl⟩
  | succ current ih =>
      have hpos : 0 < 2 ^ current := Nat.two_pow_pos current
      rw [Nat.mod_pow_succ, ← Nat.toNat_testBit, Nat.pow_succ] at h
      rw [rootFrom12List]
      obtain ⟨e, child, hchild, htake, hbuild⟩ :=
        exists_buildPennant keys BLACK current index (by omega) hindex
      cases hbit : bits.testBit current with
      | false =>
          rw [hbit, Bool.toNat_false] at h
          obtain ⟨hnext, hlist⟩ := ih (index - 2 ^ current) (by omega) (by omega)
          simp only [Bool.not_false, if_true, hbuild]
          exact ⟨.black hnext hchild, by rw [toList_valueNode, hlist, htake]⟩
      | true =>
          rw [hbit, Bool.toNat_true] at h
          obtain ⟨hnext, hlist⟩ := ih (index - 2 ^ current - 2 ^ current) (by omega) (by omega)
          obtain ⟨e', child', hchild', htake', hbuild'⟩ := exists_buildPennant keys RED current
            (index - 2 ^ current) (by omega) (by omega)
          simp only [Bool.not_true, Bool.false_eq_true, if_false, hbuild, hbuild']
          exact ⟨.black (.red hnext hchild') hchild,
            by rw [toList_valueNode, toList_valueNode, hlist, htake, htake']⟩

end Build

section FromDictionary

variable {comparator : κ → κ → Ordering} [Std.TransCmp comparator] {dictionary entries : List (κ × β)}

/-- **Building.** From different keys in any order comes a balanced tree with the entries in their
order. -/
theorem exists_fromDictionary (hs : Sorted comparator entries) (hperm : dictionary.Perm entries) :
    ∃ root n, fromDictionary comparator dictionary = .ok root ∧ Balanced BLACK n root ∧
      root.toList = entries := by
  have hlog := Nat.log2_self_le (n := entries.length + 1) (by omega)
  have hlt := Nat.lt_log2_self (n := entries.length + 1)
  have hmod : (entries.length + 1) % 2 ^ (entries.length + 1).log2 =
      entries.length + 1 - 2 ^ (entries.length + 1).log2 := by
    rw [Nat.mod_eq_sub_mod hlog, Nat.mod_eq_of_lt (by rw [Nat.pow_succ] at hlt; omega)]
  obtain ⟨hbal, hlist⟩ := rootFrom12List_spec entries
    ((entries.length + 1) % 2 ^ (entries.length + 1).log2) (entries.length + 1).log2 entries.length
    (by rw [Nat.mod_mod, hmod]; omega) le_rfl
  refine ⟨_, _, ?_, hbal, by rw [hlist, List.take_length]⟩
  rw [fromDictionary, sortUsingComparator_eq hs hperm, if_pos (ascending_iff.mpr hs)]
  rfl

end FromDictionary

end FTreeSortedDictionary

/-! ### The array -/

namespace FArraySortedDictionary

/-- `fromDictionary:withComparator:`, with the entries in any order. -/
def fromDictionary (comparator : κ → κ → Ordering) (dictionary : List (κ × β)) :
    Except String (List (κ × β)) :=
  let keys := sortUsingComparator comparator dictionary
  if ascending comparator keys then return keys
  else throw "Can't create FImmutableSortedDictionary with keys with same ordering!"

/-- `findInsertPositionForKey:`. -/
def findInsertPositionForKey (comparator : κ → κ → Ordering) (key : κ) : List (κ × β) → Nat
  | [] => 0
  | (k, _) :: rest =>
      if comparator k key = .lt then findInsertPositionForKey comparator key rest + 1 else 0

/-- `findKey:`, `none` for `NSNotFound`. -/
def findKey (comparator : κ → κ → Ordering) (key : κ) : List (κ × β) → Option Nat
  | [] => none
  | (k, _) :: rest =>
      match comparator key k with
      | .eq => some 0
      | .lt => none
      | .gt => (findKey comparator key rest).map (· + 1)

/-- `get:`. -/
def get (comparator : κ → κ → Ordering) (key : κ) (entries : List (κ × β)) : Option β :=
  (findKey comparator key entries).bind fun pos => entries[pos]?.map Prod.snd

/-- `getPredecessorKey:`. -/
def getPredecessorKey (comparator : κ → κ → Ordering) (key : κ) (entries : List (κ × β)) :
    Except String (Option κ) :=
  match findKey comparator key entries with
  | none => throw "Can't get predecessor key for non-existent key"
  | some 0 => return none
  | some (pos + 1) => return entries[pos]?.map Prod.fst

section Facts

variable {comparator : κ → κ → Ordering} [Std.TransCmp comparator] {key : κ} {value : β}
  {entries : List (κ × β)}

omit [Std.TransCmp comparator] in
/-- `findKey:` finds what there is to find, and stands at it. -/
theorem findKey_spec (comparator : κ → κ → Ordering) (key : κ) (entries : List (κ × β)) :
    match findKey comparator key entries with
    | none => SortedList.get comparator key entries = none
    | some pos => ∃ k v, entries[pos]? = some (k, v) ∧ comparator key k = .eq ∧
        SortedList.get comparator key entries = some v ∧
        erase comparator key entries = entries.eraseIdx pos ∧
        ∀ value, SortedList.insert comparator key value entries = entries.set pos (key, value) := by
  induction entries with
  | nil => rfl
  | cons e entries ih =>
      obtain ⟨k, v⟩ := e
      rw [findKey]
      cases h : comparator key k with
      | lt => simp [get_cons, h]
      | eq => exact ⟨k, v, rfl, h, by simp [get_cons, h], by simp [erase_cons, h], by simp [insert_cons, h]⟩
      | gt =>
          cases hfind : findKey comparator key entries with
          | none =>
              rw [hfind] at ih
              simpa [get_cons, h] using ih
          | some pos =>
              rw [hfind] at ih
              obtain ⟨k', v', hpos, hk', hget, herase, hinsert⟩ := ih
              exact ⟨k', v', by simpa using hpos, hk', by simp [get_cons, h, hget],
                by simp [erase_cons, h, herase], by simp [insert_cons, h, hinsert]⟩

omit [Std.TransCmp comparator] in
theorem get_eq (comparator : κ → κ → Ordering) (key : κ) (entries : List (κ × β)) :
    get comparator key entries = SortedList.get comparator key entries := by
  have hspec := findKey_spec comparator key entries
  rw [get]
  cases hfind : findKey comparator key entries with
  | none =>
      rw [hfind] at hspec
      exact hspec.symm
  | some pos =>
      rw [hfind] at hspec
      obtain ⟨k, v, hpos, -, hget, -⟩ := hspec
      simp [hpos, hget]

/-- In front of where `findKey:` stands are the keys below. -/
theorem lower_eq (hs : Sorted comparator entries) {pos : Nat}
    (h : findKey comparator key entries = some pos) :
    lower comparator key entries = entries.take pos := by
  induction entries generalizing pos with
  | nil => cases h
  | cons e entries ih =>
      obtain ⟨k, v⟩ := e
      obtain ⟨hk, hs⟩ := sorted_cons.mp hs
      rw [findKey] at h
      cases hcmp : comparator key k with
      | lt => simp [hcmp] at h
      | eq =>
          obtain rfl : 0 = pos := by simpa [hcmp] using h
          exact lower_cons_of_le hk (by simp [hcmp])
      | gt =>
          simp only [hcmp, Option.map_eq_some_iff] at h
          obtain ⟨pos, hfind, rfl⟩ := h
          rw [lower_cons_of_gt hcmp, ih hs hfind, List.take_succ_cons]

theorem getPredecessorKey_eq (hs : Sorted comparator entries)
    (h : (SortedList.get comparator key entries).isSome) :
    getPredecessorKey comparator key entries =
      .ok ((lower comparator key entries).getLast?.map Prod.fst) := by
  have hspec := findKey_spec comparator key entries
  rw [getPredecessorKey]
  cases hfind : findKey comparator key entries with
  | none =>
      rw [hfind] at hspec
      rw [hspec] at h
      cases h
  | some pos =>
      rw [hfind] at hspec
      obtain ⟨k, v, hpos, -⟩ := hspec
      rw [lower_eq hs hfind]
      cases pos with
      | zero => rfl
      | succ pos =>
          have hlt : pos + 1 < entries.length := (List.getElem?_eq_some_iff.mp hpos).1
          have hprev : entries[pos]? = some entries[pos] := List.getElem?_eq_getElem (by omega)
          rw [List.getLast?_take, if_neg (by omega), Nat.add_sub_cancel]
          simp [hprev, pure, Except.pure]

/-- Where `findKey:` finds nothing, the key goes in front of the first one above it. -/
theorem insertIdx_eq (h : findKey comparator key entries = none) (hs : Sorted comparator entries)
    (value : β) :
    entries.insertIdx (findInsertPositionForKey comparator key entries) (key, value) =
      SortedList.insert comparator key value entries := by
  induction entries with
  | nil => rfl
  | cons e entries ih =>
      obtain ⟨k, v⟩ := e
      obtain ⟨hk, hs⟩ := sorted_cons.mp hs
      rw [findKey] at h
      rw [findInsertPositionForKey, insert_cons]
      cases hcmp : comparator key k with
      | lt => simp [Std.OrientedCmp.gt_of_lt hcmp]
      | eq => simp [hcmp] at h
      | gt =>
          simp only [hcmp, Option.map_eq_none_iff] at h
          simp [Std.OrientedCmp.lt_of_gt hcmp, ih h hs]

end Facts

end FArraySortedDictionary

/-! ### The dictionary -/

/-- `SORTED_DICTIONARY_ARRAY_TO_RB_TREE_SIZE_THRESHOLD`. -/
def sizeThreshold : Nat := 25

/-- `FArraySortedDictionary`, its keys beside its values, or `FTreeSortedDictionary`. -/
inductive FImmutableSortedDictionary (κ β : Type*)
  | array (entries : List (κ × β))
  | tree (root : FLLRBNode κ β)

namespace FImmutableSortedDictionary

/-- `dictionaryWithComparator:`. -/
def dictionaryWithComparator : FImmutableSortedDictionary κ β := array []

/-- What `enumerateKeysAndObjectsUsingBlock:` goes through. -/
def entries : FImmutableSortedDictionary κ β → List (κ × β)
  | array entries => entries
  | tree root => root.toList

/-- `fromDictionary:withComparator:`, with the entries in any order. -/
def fromDictionary (comparator : κ → κ → Ordering) (dictionary : List (κ × β)) :
    Except String (FImmutableSortedDictionary κ β) :=
  if dictionary.length ≤ sizeThreshold then
    (FArraySortedDictionary.fromDictionary comparator dictionary).map array
  else (FTreeSortedDictionary.fromDictionary comparator dictionary).map tree

/-- `insertKey:withValue:`. -/
def insertKey (comparator : κ → κ → Ordering) (key : κ) (value : β) :
    FImmutableSortedDictionary κ β → Except String (FImmutableSortedDictionary κ β)
  | array entries =>
      match FArraySortedDictionary.findKey comparator key entries with
      | none =>
          if entries.length ≥ sizeThreshold then
            (FTreeSortedDictionary.fromDictionary comparator (entries ++ [(key, value)])).map tree
          else
            let newPos := FArraySortedDictionary.findInsertPositionForKey comparator key entries
            return array (entries.insertIdx newPos (key, value))
      | some pos => return array (entries.set pos (key, value))
  | tree root => return tree (FTreeSortedDictionary.insertKey comparator key value root)

/-- `removeKey:`. -/
def removeKey (comparator : κ → κ → Ordering) (key : κ) :
    FImmutableSortedDictionary κ β → FImmutableSortedDictionary κ β
  | array entries =>
      match FArraySortedDictionary.findKey comparator key entries with
      | none => array entries
      | some pos => array (entries.eraseIdx pos)
  | tree root => tree (FTreeSortedDictionary.removeKey comparator key root)

/-- `get:`. -/
def get (comparator : κ → κ → Ordering) (key : κ) : FImmutableSortedDictionary κ β → Option β
  | array entries => FArraySortedDictionary.get comparator key entries
  | tree root => FTreeSortedDictionary.get comparator key root

/-- `getPredecessorKey:`. -/
def getPredecessorKey (comparator : κ → κ → Ordering) (key : κ) :
    FImmutableSortedDictionary κ β → Except String (Option κ)
  | array entries => FArraySortedDictionary.getPredecessorKey comparator key entries
  | tree root => FTreeSortedDictionary.getPredecessorKey comparator key none root

/-- `minKey`. -/
def minKey : FImmutableSortedDictionary κ β → Option κ
  | array entries => entries.head?.map Prod.fst
  | tree root => root.minKey

/-- `maxKey`. -/
def maxKey : FImmutableSortedDictionary κ β → Option κ
  | array entries => entries.getLast?.map Prod.fst
  | tree root => root.maxKey

/-- `count`. -/
def count : FImmutableSortedDictionary κ β → Nat
  | array entries => entries.length
  | tree root => root.count

/-- The entries are sorted, under keys of `S`, and a tree is balanced. -/
structure WellFormed (comparator : κ → κ → Ordering) (S : κ → Prop)
    (d : FImmutableSortedDictionary κ β) : Prop where
  sorted : Sorted comparator d.entries
  keys : KeysIn S d.entries
  balanced : ∀ root, d = tree root → ∃ n, Balanced BLACK n root

section Facts

variable {comparator : κ → κ → Ordering} [Std.TransCmp comparator] {S : κ → Prop}
  {d : FImmutableSortedDictionary κ β} {key : κ} {value : β}

omit [Std.TransCmp comparator] in
theorem wellFormed_array {es : List (κ × β)} (hs : Sorted comparator es) (hes : KeysIn S es) :
    (array es).WellFormed comparator S := ⟨hs, hes, nofun⟩

omit [Std.TransCmp comparator] in
theorem wellFormed_tree {root : FLLRBNode κ β} {es : List (κ × β)} (hroot : root.toList = es)
    (hs : Sorted comparator es) (hes : KeysIn S es) (h : ∃ n, Balanced BLACK n root) :
    (tree root).WellFormed comparator S := by
  subst hroot
  refine ⟨hs, hes, ?_⟩
  intro root' hroot'
  cases hroot'
  exact h

/-- A tree is built whenever the keys are different. -/
theorem exists_tree {dictionary es : List (κ × β)} (hs : Sorted comparator es) (hes : KeysIn S es)
    (hperm : dictionary.Perm es) :
    ∃ d, (FTreeSortedDictionary.fromDictionary comparator dictionary).map tree = .ok d ∧
      d.WellFormed comparator S ∧ d.entries = es := by
  obtain ⟨root, n, hroot, hbal, hlist⟩ := FTreeSortedDictionary.exists_fromDictionary hs hperm
  rw [hroot]
  exact ⟨tree root, rfl, wellFormed_tree hlist hs hes ⟨n, hbal⟩, hlist⟩

/-- **Insertion.** It never raises, and it inserts. -/
theorem exists_insertKey (hS : Separates comparator S) (h : d.WellFormed comparator S)
    (hkey : S key) (value : β) :
    ∃ d', d.insertKey comparator key value = .ok d' ∧ d'.WellFormed comparator S ∧
      d'.entries = SortedList.insert comparator key value d.entries := by
  have hsorted : Sorted comparator (SortedList.insert comparator key value d.entries) :=
    sorted_insert h.sorted
  have hkeys : KeysIn S (SortedList.insert comparator key value d.entries) :=
    h.keys.insert h.sorted hkey
  cases d with
  | array es =>
      have hspec := FArraySortedDictionary.findKey_spec comparator key es
      cases hfind : FArraySortedDictionary.findKey comparator key es with
      | none =>
          simp only [insertKey, hfind] at hspec ⊢
          split
          · have hne := ne_eq_of_get_eq_none h.sorted hspec
            exact exists_tree hsorted hkeys
              (List.perm_append_comm.trans (perm_insert hne value).symm)
          · rw [FArraySortedDictionary.insertIdx_eq hfind h.sorted]
            exact ⟨_, rfl, wellFormed_array hsorted hkeys, rfl⟩
      | some pos =>
          simp only [insertKey, hfind] at hspec ⊢
          obtain ⟨-, -, -, -, -, -, hinsert⟩ := hspec
          rw [← hinsert]
          exact ⟨_, rfl, wellFormed_array hsorted hkeys, rfl⟩
  | tree root =>
      obtain ⟨n, hbal⟩ := h.balanced root rfl
      have hlist : (FTreeSortedDictionary.insertKey comparator key value root).toList =
          SortedList.insert comparator key value root.toList :=
        FTreeSortedDictionary.toList_insertKey h.sorted
          fun e he heq => (hS key e.1 hkey (h.keys e he) heq).symm
      exact ⟨_, rfl, wellFormed_tree hlist hsorted hkeys
        (FTreeSortedDictionary.balanced_insertKey comparator hbal key value), hlist⟩

/-- **Removal.** -/
theorem removeKey_spec (h : d.WellFormed comparator S) (key : κ) :
    (d.removeKey comparator key).WellFormed comparator S ∧
      (d.removeKey comparator key).entries = erase comparator key d.entries := by
  have hsorted : Sorted comparator (erase comparator key d.entries) := sorted_erase h.sorted
  have hkeys : KeysIn S (erase comparator key d.entries) := h.keys.erase
  cases d with
  | array es =>
      have hspec := FArraySortedDictionary.findKey_spec comparator key es
      cases hfind : FArraySortedDictionary.findKey comparator key es with
      | none =>
          simp only [removeKey, hfind] at hspec ⊢
          exact ⟨h, (erase_eq_self h.sorted (ne_eq_of_get_eq_none h.sorted hspec)).symm⟩
      | some pos =>
          simp only [removeKey, hfind] at hspec ⊢
          obtain ⟨-, -, -, -, -, herase, -⟩ := hspec
          rw [← herase]
          exact ⟨wellFormed_array hsorted hkeys, rfl⟩
  | tree root =>
      obtain ⟨n, hbal⟩ := h.balanced root rfl
      obtain ⟨hbal', hlist⟩ := FTreeSortedDictionary.removeKey_spec hbal h.sorted key
      exact ⟨wellFormed_tree hlist hsorted hkeys hbal', hlist⟩

theorem WellFormed.get_eq (h : d.WellFormed comparator S) (key : κ) :
    d.get comparator key = SortedList.get comparator key d.entries := by
  cases d with
  | array es => exact FArraySortedDictionary.get_eq comparator key es
  | tree root => exact FTreeSortedDictionary.get_eq h.sorted

theorem WellFormed.getPredecessorKey_eq (h : d.WellFormed comparator S)
    (hget : (d.get comparator key).isSome) :
    d.getPredecessorKey comparator key =
      .ok ((lower comparator key d.entries).getLast?.map Prod.fst) := by
  rw [h.get_eq] at hget
  cases d with
  | array es => exact FArraySortedDictionary.getPredecessorKey_eq h.sorted hget
  | tree root =>
      rw [getPredecessorKey, FTreeSortedDictionary.getPredecessorKey_eq h.sorted]
      exact (if_pos hget).trans (by rw [Option.or_none]; rfl)

omit [Std.TransCmp comparator] in
theorem minKey_eq (d : FImmutableSortedDictionary κ β) :
    d.minKey = d.entries.head?.map Prod.fst := by
  cases d with
  | array es => rfl
  | tree root =>
      cases hempty : root.isEmpty with
      | true =>
          cases root with
          | emptyNode => rfl
          | valueNode => cases hempty
      | false =>
          obtain ⟨k, v, hkey, -, hlist⟩ := exists_min hempty
          rw [minKey, FLLRBNode.minKey, hkey, entries, hlist]
          rfl

theorem maxKey_eq (d : FImmutableSortedDictionary κ β) :
    d.maxKey = d.entries.getLast?.map Prod.fst := by
  cases d with
  | array es => rfl
  | tree root => exact FTreeSortedDictionary.maxKey_eq root

theorem count_eq (d : FImmutableSortedDictionary κ β) : d.count = d.entries.length := by
  cases d with
  | array es => rfl
  | tree root => exact (length_toList root).symm

/-- **Reading.** Whichever kind a dictionary is, it is read as the list of its entries: what is
under a key, the first and the last key, how many there are, and the key before one. -/
theorem reads_eq (h : d.WellFormed comparator S) :
    d.count = d.entries.length ∧ d.minKey = d.entries.head?.map Prod.fst ∧
      d.maxKey = d.entries.getLast?.map Prod.fst ∧ ∀ key,
        d.get comparator key = (d.entries.find? fun e => comparator key e.1 = .eq).map Prod.snd ∧
        ((d.get comparator key).isSome → d.getPredecessorKey comparator key =
          .ok ((d.entries.filter fun e => comparator e.1 key = .lt).getLast?.map Prod.fst)) :=
  ⟨d.count_eq, d.minKey_eq, d.maxKey_eq, fun key =>
    ⟨(h.get_eq key).trans (get_eq_find? h.sorted), h.getPredecessorKey_eq⟩⟩

theorem reads_eq_two :
    let d : FImmutableSortedDictionary Nat String :=
      tree (valueNode 2 "b" BLACK (valueNode 1 "a" RED emptyNode emptyNode) emptyNode)
    d.count = d.entries.length ∧ d.minKey = d.entries.head?.map Prod.fst ∧
      d.maxKey = d.entries.getLast?.map Prod.fst ∧ ∀ key,
        d.get compare key = (d.entries.find? fun e => compare key e.1 = .eq).map Prod.snd ∧
        ((d.get compare key).isSome → d.getPredecessorKey compare key =
          .ok ((d.entries.filter fun e => compare e.1 key = .lt).getLast?.map Prod.fst)) :=
  reads_eq (wellFormed_tree rfl (by decide) (keysIn_true _)
    ⟨1, .black (.red .empty .empty) .empty⟩)

end Facts

/-! ### Runs -/

/-- A change of a dictionary. -/
inductive Edit (κ β : Type*)
  | setObject (anObject : β) (aKey : κ)
  | removeObjectForKey (aKey : κ)

namespace Edit

/-- The key that is changed. -/
def key : Edit κ β → κ
  | setObject _ aKey => aKey
  | removeObjectForKey aKey => aKey

/-- What is under the key afterwards. -/
def object : Edit κ β → Option β
  | setObject anObject _ => some anObject
  | removeObjectForKey _ => none

/-- `setObject:forKey:` and `removeObjectForKey:`. -/
def apply (comparator : κ → κ → Ordering) (d : FImmutableSortedDictionary κ β) :
    Edit κ β → Except String (FImmutableSortedDictionary κ β)
  | setObject anObject aKey => d.insertKey comparator aKey anObject
  | removeObjectForKey aKey => .ok (d.removeKey comparator aKey)

/-- The same on a finite map. -/
def applyToMap [DecidableEq κ] (m : κ → Option β) (edit : Edit κ β) : κ → Option β :=
  Function.update m edit.key edit.object

end Edit

/-- A dictionary after some changes. -/
def run (comparator : κ → κ → Ordering) (d : FImmutableSortedDictionary κ β)
    (edits : List (Edit κ β)) : Except String (FImmutableSortedDictionary κ β) :=
  edits.foldlM (Edit.apply comparator) d

section Runs

variable {comparator : κ → κ → Ordering} [Std.TransCmp comparator] [DecidableEq κ] {S : κ → Prop}
  {d : FImmutableSortedDictionary κ β}

/-- One change. -/
theorem exists_apply (hS : Separates comparator S) (h : d.WellFormed comparator S) {edit : Edit κ β}
    (hkey : S edit.key) :
    ∃ d', edit.apply comparator d = .ok d' ∧ d'.WellFormed comparator S ∧
      ∀ k, S k → d'.get comparator k = if k = edit.key then edit.object else d.get comparator k := by
  cases edit with
  | setObject anObject aKey =>
      have hkey : S aKey := hkey
      obtain ⟨d', hd', hwf, hentries⟩ := exists_insertKey hS h hkey anObject
      refine ⟨d', hd', hwf, fun k hk => ?_⟩
      rw [hwf.get_eq, hentries, get_insert hS h.sorted h.keys hkey hk, h.get_eq]
      exact if_congr eq_comm rfl rfl
  | removeObjectForKey aKey =>
      have hkey : S aKey := hkey
      obtain ⟨hwf, hentries⟩ := removeKey_spec h aKey
      refine ⟨_, rfl, hwf, fun k hk => ?_⟩
      rw [hwf.get_eq, hentries, get_erase hS h.sorted h.keys hkey hk, h.get_eq]
      exact if_congr eq_comm rfl rfl

/-- Any changes. -/
theorem exists_foldlM_apply (hS : Separates comparator S) (edits : List (Edit κ β))
    (hkeys : ∀ edit ∈ edits, S edit.key) (h : d.WellFormed comparator S) {m : κ → Option β}
    (hm : ∀ k, S k → d.get comparator k = m k) :
    ∃ d', d.run comparator edits = .ok d' ∧ d'.WellFormed comparator S ∧
      ∀ k, S k → d'.get comparator k = edits.foldl Edit.applyToMap m k := by
  induction edits generalizing d m with
  | nil => exact ⟨d, rfl, h, hm⟩
  | cons edit edits ih =>
      obtain ⟨hkey, hkeys⟩ := List.forall_mem_cons.mp hkeys
      obtain ⟨d₁, hd₁, hwf, hget⟩ := exists_apply hS h hkey
      have hm₁ : ∀ k, S k → d₁.get comparator k = edit.applyToMap m k := fun k hk => by
        rw [hget k hk, hm k hk, Edit.applyToMap, Function.update_apply]
      obtain ⟨d', hd', hrest⟩ := ih hkeys hwf hm₁
      exact ⟨d', by rw [run, List.foldlM_cons, hd₁]; exact hd', hrest⟩

end Runs

section FromDictionary

variable {comparator : κ → κ → Ordering} [Std.TransCmp comparator]

/-- **Building.** A dictionary is built from any entries, and raises exactly if two of their keys
compare equal. -/
theorem fromDictionary_spec (dictionary : List (κ × β)) (description : β → String) :
    (¬(dictionary.Pairwise fun e f => comparator e.1 f.1 ≠ .eq) ∧
      fromDictionary comparator dictionary =
        .error "Can't create FImmutableSortedDictionary with keys with same ordering!") ∨
    ∃ d, fromDictionary comparator dictionary = .ok d ∧ d.entries.Perm dictionary ∧
      Sorted comparator d.entries ∧
      ∀ root, d = tree root → (∃ n, root.check description = .ok n) ∧
        root.checkMaxDepth description = .ok true := by
  have hperm := perm_sortUsingComparator comparator dictionary
  by_cases h : dictionary.Pairwise fun e f => comparator e.1 f.1 ≠ .eq
  · right
    have hs := sorted_sortUsingComparator_iff.mpr h
    rw [fromDictionary]
    split
    · rw [FArraySortedDictionary.fromDictionary]
      simp only [if_pos (ascending_iff.mpr hs)]
      exact ⟨_, rfl, hperm, hs, nofun⟩
    · obtain ⟨d, hd, hwf, hentries⟩ := exists_tree hs (keysIn_true _) hperm.symm
      refine ⟨d, hd, hentries ▸ hperm, hwf.sorted, fun root hroot => ?_⟩
      obtain ⟨n, hbal⟩ := hwf.balanced root hroot
      exact ⟨⟨n, hbal.check description⟩, hbal.checkMaxDepth description⟩
  · left
    have hnot : ¬ascending comparator
        (sortUsingComparator comparator dictionary) = true :=
      mt ascending_iff.mp
        (mt sorted_sortUsingComparator_iff.mp h)
    refine ⟨h, ?_⟩
    rw [fromDictionary]
    split
    · rw [FArraySortedDictionary.fromDictionary]
      simp only [if_neg hnot]
      rfl
    · rw [FTreeSortedDictionary.fromDictionary]
      simp only [if_neg hnot]
      rfl

theorem fromDictionary_spec_nat :
    let dictionary := [(2, "b"), (1, "a"), (2, "c")]
    (¬(dictionary.Pairwise fun e f => compare e.1 f.1 ≠ .eq) ∧
      fromDictionary compare dictionary =
        .error "Can't create FImmutableSortedDictionary with keys with same ordering!") ∨
    ∃ d, fromDictionary compare dictionary = .ok d ∧ d.entries.Perm dictionary ∧
      Sorted compare d.entries ∧
      ∀ root, d = tree root → (∃ n, root.check id = .ok n) ∧ root.checkMaxDepth id = .ok true :=
  fromDictionary_spec [(2, "b"), (1, "a"), (2, "c")] id

end FromDictionary

end FImmutableSortedDictionary

/-! ### The children of a node -/

namespace FChildrenNode

open FUtilities FImmutableSortedDictionary

/-- `getImmediateChild:`. -/
def getImmediateChild (children : FImmutableSortedDictionary String FNode) (childName : String) :
    FNode := (children.get keyComparator childName).getD FNode.emptyNode

/-- `updateImmediateChild:withNewChild:`. An empty dictionary is `FEmptyNode`. -/
def updateImmediateChild (children : FImmutableSortedDictionary String FNode) (childName : String)
    (newChildNode : FNode) : Except String (FImmutableSortedDictionary String FNode) :=
  if newChildNode.isEmpty then .ok (children.removeKey keyComparator childName)
  else children.insertKey keyComparator childName newChildNode

variable {children : FImmutableSortedDictionary String FNode}

/-- The node with these children. -/
def node (children : FImmutableSortedDictionary String FNode) : FNode := .children children.entries

theorem getImmediateChild_eq (h : children.WellFormed keyComparator Plain) (childName : String) :
    getImmediateChild children childName = (node children).getImmediateChild childName := by
  rw [getImmediateChild, h.get_eq]
  rfl

theorem exists_updateImmediateChild (h : children.WellFormed keyComparator Plain)
    {childName : String} (hname : Plain childName) (newChildNode : FNode) :
    ∃ children', updateImmediateChild children childName newChildNode = .ok children' ∧
      children'.WellFormed keyComparator Plain ∧
      node children' = (node children).updateImmediateChild childName newChildNode := by
  rw [updateImmediateChild]
  cases hempty : newChildNode.isEmpty with
  | true =>
      obtain ⟨hwf, hentries⟩ := removeKey_spec h childName
      exact ⟨_, rfl, hwf, by simp [node, FNode.updateImmediateChild, FNode.updateEntries, hempty, hentries]⟩
  | false =>
      obtain ⟨children', hchildren', hwf, hentries⟩ :=
        exists_insertKey keyComparator_separates h hname newChildNode
      exact ⟨children', hchildren', hwf, by
        simp [node, FNode.updateImmediateChild, FNode.updateEntries, hempty, hentries]⟩

/-- `updateImmediateChild:withNewChild:`, one after the other. -/
def updateImmediateChildren (children : FImmutableSortedDictionary String FNode)
    (updates : List (String × FNode)) : Except String (FImmutableSortedDictionary String FNode) :=
  updates.foldlM (fun children u => updateImmediateChild children u.1 u.2) children

theorem exists_updates_of_wellFormed (updates : List (String × FNode))
    (hplain : ∀ u ∈ updates, Plain u.1) (h : children.WellFormed keyComparator Plain) :
    ∃ children', updateImmediateChildren children updates = .ok children' ∧
      children'.WellFormed keyComparator Plain ∧
      node children' =
        updates.foldl (fun node u => node.updateImmediateChild u.1 u.2) (node children) := by
  induction updates generalizing children with
  | nil => exact ⟨children, rfl, h, rfl⟩
  | cons u updates ih =>
      obtain ⟨hu, hupdates⟩ := List.forall_mem_cons.mp hplain
      obtain ⟨children₁, h₁, hwf₁, hnode₁⟩ := exists_updateImmediateChild h hu u.2
      obtain ⟨children', h', hwf', hnode'⟩ := ih hupdates hwf₁
      refine ⟨children', ?_, hwf', by rw [hnode', hnode₁, List.foldl_cons]⟩
      rw [updateImmediateChildren, List.foldlM_cons, h₁]
      exact h'

/-- **The model of a node.** Over any updates of its children, the node that keeps them in a
dictionary is the one that keeps them in a sorted list. -/
theorem exists_updates (updates : List (String × FNode)) (hplain : ∀ u ∈ updates, Plain u.1) :
    ∃ children, updateImmediateChildren dictionaryWithComparator updates = .ok children ∧
      node children =
        updates.foldl (fun node u => node.updateImmediateChild u.1 u.2) FNode.emptyNode ∧
      ∀ childName, getImmediateChild children childName =
        (node children).getImmediateChild childName := by
  obtain ⟨children, hchildren, hwf, hnode⟩ := exists_updates_of_wellFormed updates hplain
    (wellFormed_array sorted_nil (by simp [KeysIn]))
  exact ⟨children, hchildren, hnode, getImmediateChild_eq hwf⟩

theorem exists_updates_one :
    ∃ children, updateImmediateChildren dictionaryWithComparator [("a", .leaf (.bool true))] =
        .ok children ∧
      node children = FNode.emptyNode.updateImmediateChild "a" (.leaf (.bool true)) ∧
      ∀ childName, getImmediateChild children childName =
        (node children).getImmediateChild childName :=
  exists_updates [("a", .leaf (.bool true))] (by decide)

end FChildrenNode

end MyChat
