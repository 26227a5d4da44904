import MyChat.Node
import MyChat.Lib.NetChange

/-!
# MyChat.ChildChanges

Which children changed. `FIndexedFilter` replaces one child of a node, or the whole node,
and tells which children are other ones; `FChildChangeAccumulator` keeps one change for
each of them. Calls of `trackChildChange:` are collected in the order they are made.

What the filter tracks leads from the children of the old node to those of the new one
(`updateChildIn_spec`, `leads_updateFullNode`). On such calls the accumulator never meets
an illegal combination of changes (`foldlM_trackChildChange`).
-/

namespace MyChat

open PathTree FUtilities NetChange

/-- The calls of `trackChildChange:`, with the key and the change. -/
abbrev Tracked := List (String × Change FNode)

/-! ### FChildChangeAccumulator -/

/-- `changeMap`. -/
abbrev FChildChangeAccumulator := List (String × Change FNode)

/-- `trackChildChange:`. -/
def trackChildChange (changeMap : FChildChangeAccumulator) (childKey : String) (change : Change FNode) :
    Except String FChildChangeAccumulator :=
  let setObject := fun newChange : Change FNode =>
    SortedList.insert stringComparator childKey newChange changeMap
  match SortedList.get stringComparator childKey changeMap with
  | some oldChange =>
      match change, oldChange with
      | .added node, .removed oldNode => .ok (setObject (.changed node oldNode))
      | .removed _, .added _ => .ok (SortedList.erase stringComparator childKey changeMap)
      | .removed _, .changed _ oldNode => .ok (setObject (.removed oldNode))
      | .changed node _, .added _ => .ok (setObject (.added node))
      | .changed node _, .changed _ oldNode => .ok (setObject (.changed node oldNode))
      | _, _ => .error "Illegal combination of changes"
  | none => .ok (setObject change)

/-! ### FIndexedFilter -/

namespace FIndexedFilter

/-- `updateChildIn:forChildKey:newChild:affectedPath:`. -/
def updateChildIn (node : FNode) (childKey : String) (newChildSnap : FNode) (affectedPath : Path) :
    FNode × Tracked :=
  let oldChildSnap := node.getImmediateChild childKey
  -- a child can enter or leave without a difference at the affected path
  if (oldChildSnap.getChild affectedPath).isEqual (newChildSnap.getChild affectedPath) ∧
      oldChildSnap.isEmpty = newChildSnap.isEmpty then (node, [])
  else
    let tracked :=
      if newChildSnap.isEmpty then
        if node.hasChild childKey then [(childKey, .removed oldChildSnap)] else []
      else if oldChildSnap.isEmpty then [(childKey, .added newChildSnap)]
      else [(childKey, .changed newChildSnap oldChildSnap)]
    if node.isLeafNode ∧ newChildSnap.isEmpty then (node, tracked)
    else (node.updateImmediateChild childKey newChildSnap, tracked)

/-- The first loop of `updateFullNode:withNewNode:`: the children that are gone. -/
def removedChildren (oldSnap newSnap : FNode) : Tracked :=
  oldSnap.enumerateChildren.filterMap fun x =>
    if newSnap.hasChild x.1 then none else some (x.1, .removed x.2)

/-- The second loop: the children that are new or changed. -/
def addedOrChangedChildren (oldSnap newSnap : FNode) : Tracked :=
  newSnap.enumerateChildren.filterMap fun x =>
    if oldSnap.hasChild x.1 then
      let oldChildSnap := oldSnap.getImmediateChild x.1
      if oldChildSnap.isEqual x.2 then none else some (x.1, .changed x.2 oldChildSnap)
    else some (x.1, .added x.2)

/-- `updateFullNode:withNewNode:`. -/
def updateFullNode (oldSnap newSnap : FNode) : FNode × Tracked :=
  (newSnap, removedChildren oldSnap newSnap ++ addedOrChangedChildren oldSnap newSnap)

end FIndexedFilter

/-! ### The children of a node -/

namespace FNode

variable {node newChild : FNode} {k j : String} {p : Path}

theorem updateChild_emptyNode (p : Path) : emptyNode.updateChild p emptyNode = emptyNode := by
  induction p with
  | nil => rfl
  | cons k p ih =>
      show emptyNode.updateImmediateChild k (emptyNode.updateChild p emptyNode) = emptyNode
      rw [ih]
      rfl

/-- Updating below a child is updating the child. -/
theorem updateChild_cons (node : FNode) (k : String) (p : Path) (newChild : FNode) :
    node.updateChild (k :: p) newChild =
      node.updateImmediateChild k ((node.getImmediateChild k).updateChild p newChild) := by
  cases node with
  | children entries => rfl
  | leaf value =>
      rw [updateChild]
      split
      · next hempty =>
        rw [isEmpty_iff.mp hempty, getImmediateChild_leaf, updateChild_emptyNode]
        rfl
      · rfl

theorem getImmediateChild_updateImmediateChild (h : node.WellFormed) (hk : Plain k) (hj : Plain j)
    (hnew : newChild.isEmpty = false ∨ node.leafValue = none) :
    (node.updateImmediateChild k newChild).getImmediateChild j =
      if k = j then newChild else node.getImmediateChild j := by
  have hupdate := getImmediateChild_updateChild (p := []) h hk hj hnew
  rw [updateChild_cons] at hupdate
  exact hupdate

/-- The children, as a map. -/
def childMap (node : FNode) (k : String) : Option FNode :=
  if Plain k ∧ node.hasChild k then some (node.getImmediateChild k) else none

theorem childMap_of_plain (hk : Plain k) :
    node.childMap k =
      if (node.getImmediateChild k).isEmpty then none else some (node.getImmediateChild k) := by
  unfold childMap hasChild
  by_cases he : (node.getImmediateChild k).isEmpty = true <;> simp [hk, he]

theorem childMap_of_not_plain (hk : ¬ Plain k) : node.childMap k = none := by
  rw [childMap, if_neg fun h => hk h.1]

theorem childMap_of_child {child : FNode} (hk : Plain k) (h : node.getImmediateChild k = child)
    (hne : child.isEmpty = false) : node.childMap k = some child := by
  rw [childMap_of_plain hk, h, if_neg (by simp [hne])]

theorem childMap_eq_some_iff (h : node.WellFormed) {child : FNode} :
    node.childMap k = some child ↔ (k, child) ∈ node.enumerateChildren := by
  rw [mem_enumerateChildren h]
  constructor
  · intro hsome
    by_cases hk : Plain k
    · rw [childMap_of_plain hk] at hsome
      split at hsome
      · cases hsome
      · next hne =>
        cases hsome
        exact ⟨hk, rfl, by simpa using hne⟩
    · rw [childMap_of_not_plain hk] at hsome
      cases hsome
  · rintro ⟨hk, heq, hne⟩
    exact childMap_of_child hk heq hne

theorem childMap_eq_none_iff (hk : Plain k) :
    node.childMap k = none ↔ (node.getImmediateChild k).isEmpty := by
  rw [childMap_of_plain hk]
  split
  · next h => simp [h]
  · next h => simp [h]

theorem childMap_updateImmediateChild (h : node.WellFormed) (hk : Plain k)
    (hnew : newChild.isEmpty = false ∨ node.leafValue = none) :
    (node.updateImmediateChild k newChild).childMap =
      Function.update node.childMap k (if newChild.isEmpty then none else some newChild) := by
  funext j
  by_cases hj : Plain j
  · rw [childMap_of_plain hj, getImmediateChild_updateImmediateChild h hk hj hnew]
    by_cases hkj : k = j
    · subst hkj
      simp
    · rw [if_neg hkj, Function.update_of_ne (Ne.symm hkj), childMap_of_plain hj]
  · have hne : j ≠ k := fun hjk => hj (hjk ▸ hk)
    rw [Function.update_of_ne hne, childMap_of_not_plain hj, childMap_of_not_plain hj]

/-- Well-formed nodes are equal when their children and their values are. -/
theorem WellFormed.eq_of_childMap {other : FNode} (h : node.WellFormed) (h' : other.WellFormed)
    (hleaf : node.leafValue = other.leafValue) (hmap : node.childMap = other.childMap) :
    node = other := by
  refine h.eq_of_children h' hleaf fun k hk => ?_
  have hk' := congrFun hmap k
  rw [childMap_of_plain hk, childMap_of_plain hk] at hk'
  split at hk'
  · next he =>
    split at hk'
    · next he' => rw [isEmpty_iff.mp he, isEmpty_iff.mp he']
    · cases hk'
  · split at hk'
    · cases hk'
    · exact Option.some.inj hk'

end FNode

/-! ### What the filter tracks -/

namespace FIndexedFilter

variable {node newNode newChild : FNode} {k : String} {p : Path}

theorem isEqual_emptyNode_getChild (p : Path) :
    (FNode.emptyNode.getChild p).isEqual (FNode.emptyNode.getChild p) = true := by
  rw [FNode.getChild_emptyNode]
  rfl

/-- **`updateChildIn:`** puts the child in, unless there is no difference at the affected
path, and tracks that. -/
theorem updateChildIn_spec (h : node.WellFormed) (hk : Plain k) (hnew : newChild.WellFormed) :
    Leads node.childMap (updateChildIn node k newChild p).2 (updateChildIn node k newChild p).1.childMap ∧
      ((updateChildIn node k newChild p).1 = node.updateImmediateChild k newChild ∨
        (updateChildIn node k newChild p = (node, []) ∧
          (node.getImmediateChild k).getChild p = newChild.getChild p ∧
          (node.getImmediateChild k).isEmpty = newChild.isEmpty)) := by
  have hold := h.getImmediateChild k
  unfold updateChildIn
  dsimp only
  split
  · next hskip =>
    exact ⟨rfl, Or.inr ⟨rfl, (FNode.isEqual_iff (hold.getChild p) (hnew.getChild p)).mp hskip.1, hskip.2⟩⟩
  · next hskip =>
    by_cases hempty : newChild.isEmpty = true
    · -- a removal, and there is something to remove
      have hhas : (node.getImmediateChild k).isEmpty = false := by
        by_contra hnone
        rw [Bool.not_eq_false] at hnone
        rw [FNode.isEmpty_iff.mp hnone, FNode.isEmpty_iff.mp hempty] at hskip
        exact hskip ⟨isEqual_emptyNode_getChild p, rfl⟩
      have hleaf : node.leafValue = none := by
        cases node with
        | leaf v => cases hhas
        | children entries => rfl
      have hnotleaf : node.isLeafNode = false := by rw [FNode.isLeafNode, hleaf]; rfl
      rw [if_pos hempty, if_pos (FNode.hasChild_iff.mpr hhas), if_neg (by simp [hnotleaf])]
      refine ⟨⟨FNode.childMap_of_child hk rfl hhas, ?_⟩, Or.inl rfl⟩
      rw [leads_nil, FNode.childMap_updateImmediateChild h hk (Or.inr hleaf), if_pos hempty]
      rfl
    · have hne : newChild.isEmpty = false := by simpa using hempty
      have hupdate := FNode.childMap_updateImmediateChild h hk (Or.inl hne)
      rw [if_neg hempty] at hupdate
      rw [if_neg hempty, if_neg (by simp [hne])]
      refine ⟨?_, Or.inl rfl⟩
      dsimp only
      rw [hupdate]
      split
      · next hnone => exact ⟨(FNode.childMap_eq_none_iff hk).mpr hnone, rfl⟩
      · next hsome => exact ⟨FNode.childMap_of_child hk rfl (by simpa using hsome), rfl⟩

theorem wellFormed_updateChildIn (h : node.WellFormed) (hk : Plain k) (hnew : newChild.WellFormed) :
    (updateChildIn node k newChild p).1.WellFormed := by
  rcases (updateChildIn_spec (p := p) h hk hnew).2 with heq | ⟨heq, -, -⟩
  · rw [heq]
    exact h.updateImmediateChild hk hnew
  · rw [heq]
    exact h

/-- It tracks at most one change, of that child. -/
theorem distinct_updateChildIn (h : node.WellFormed) (hnew : newChild.WellFormed) :
    Distinct (updateChildIn node k newChild p).2 ∧ ∀ x ∈ (updateChildIn node k newChild p).2, x.1 = k := by
  have hold := h.getImmediateChild k
  unfold updateChildIn
  dsimp only
  split
  · exact ⟨distinct_nil, by simp⟩
  · next hskip =>
    have hdiff : node.getImmediateChild k ≠ newChild := by
      intro heq
      rw [heq] at hskip
      exact hskip ⟨(FNode.isEqual_iff (hnew.getChild p) (hnew.getChild p)).mpr rfl, rfl⟩
    have hsplit : ∀ {c : Prop} [Decidable c] {a b : FNode} {t : Tracked},
        (if c then (a, t) else (b, t)).2 = t := by
      intro c _ a b t
      split <;> rfl
    rw [hsplit]
    split
    · split
      · exact ⟨distinct_singleton k (by simp), by simp⟩
      · exact ⟨distinct_nil, by simp⟩
    · split
      · exact ⟨distinct_singleton k (by simp), by simp⟩
      · exact ⟨distinct_singleton k (by simpa using hdiff), by simp⟩

theorem nodup_keys_enumerateChildren (h : node.WellFormed) :
    (node.enumerateChildren.map Prod.fst).Nodup := by
  cases h with
  | leaf value => simp [FNode.enumerateChildren]
  | children sorted plain nonempty wf => exact List.pairwise_map.mpr sorted.ne

theorem hasChild_eq_false_iff : node.hasChild k = false ↔ (node.getImmediateChild k).isEmpty = true := by
  simp [FNode.hasChild]

theorem mem_removedChildren (h : node.WellFormed) {x : String × Change FNode} :
    x ∈ removedChildren node newNode ↔ ∃ old, x.2 = .removed old ∧
      node.childMap x.1 = some old ∧ newNode.childMap x.1 = none := by
  rw [removedChildren, List.mem_filterMap]
  constructor
  · rintro ⟨y, hy, hx⟩
    obtain ⟨hplain, -, -⟩ := (FNode.mem_enumerateChildren h).mp hy
    split at hx
    · cases hx
    · next hno =>
      cases hx
      have hnone := hasChild_eq_false_iff.mp (by simpa using hno)
      exact ⟨y.2, rfl, (FNode.childMap_eq_some_iff h).mpr hy, (FNode.childMap_eq_none_iff hplain).mpr hnone⟩
  · rintro ⟨old, hx, hsome, hnone⟩
    have hmem := (FNode.childMap_eq_some_iff h).mp hsome
    obtain ⟨hplain, -, -⟩ := (FNode.mem_enumerateChildren h).mp hmem
    have hno := hasChild_eq_false_iff.mpr ((FNode.childMap_eq_none_iff hplain).mp hnone)
    exact ⟨(x.1, old), hmem, by simp [hno, Prod.ext_iff, hx]⟩

theorem mem_addedOrChangedChildren (h : node.WellFormed) (hnew : newNode.WellFormed)
    {x : String × Change FNode} :
    x ∈ addedOrChangedChildren node newNode ↔ ∃ new, newNode.childMap x.1 = some new ∧
      ((x.2 = .added new ∧ node.childMap x.1 = none) ∨
        ∃ old, x.2 = .changed new old ∧ node.childMap x.1 = some old ∧ old ≠ new) := by
  rw [addedOrChangedChildren, List.mem_filterMap]
  constructor
  · rintro ⟨y, hy, hx⟩
    obtain ⟨hplain, hchild, hne⟩ := (FNode.mem_enumerateChildren hnew).mp hy
    have hsome := (FNode.childMap_eq_some_iff hnew).mpr hy
    have hequal := FNode.isEqual_iff (h.getImmediateChild y.1) (hchild ▸ hnew.getImmediateChild y.1)
    split at hx
    · next hold =>
      dsimp only at hx
      split at hx
      · cases hx
      · next hdiff =>
        cases hx
        have hsomeOld := FNode.childMap_of_child hplain rfl (FNode.hasChild_iff.mp hold)
        exact ⟨y.2, hsome, Or.inr ⟨_, rfl, hsomeOld, fun heq => hdiff (hequal.mpr heq)⟩⟩
    · next hno =>
      cases hx
      have hnone := hasChild_eq_false_iff.mp (by simpa using hno)
      exact ⟨y.2, hsome, Or.inl ⟨rfl, (FNode.childMap_eq_none_iff hplain).mpr hnone⟩⟩
  · rintro ⟨new, hsome, hcase⟩
    have hmem := (FNode.childMap_eq_some_iff hnew).mp hsome
    obtain ⟨hplain, hchild, -⟩ := (FNode.mem_enumerateChildren hnew).mp hmem
    refine ⟨(x.1, new), hmem, ?_⟩
    rcases hcase with ⟨hx, hnone⟩ | ⟨old, hx, hold, hdiff⟩
    · have hno := hasChild_eq_false_iff.mpr ((FNode.childMap_eq_none_iff hplain).mp hnone)
      simp [hno, Prod.ext_iff, hx]
    · obtain ⟨-, heq, hne⟩ := (FNode.mem_enumerateChildren h).mp ((FNode.childMap_eq_some_iff h).mp hold)
      obtain rfl : node.getImmediateChild x.1 = old := heq
      have hequal := FNode.isEqual_iff (h.getImmediateChild x.1) (hchild ▸ hnew.getImmediateChild x.1)
      have hfalse : (node.getImmediateChild x.1).isEqual new = false := by
        rw [Bool.eq_false_iff]
        exact fun heq => hdiff (hequal.mp heq)
      simp [FNode.hasChild_iff.mpr hne, hfalse, Prod.ext_iff, hx]

/-- What a loop over the children tracks has different keys. -/
theorem nodup_keys_filterMap (h : node.WellFormed) {f : String × FNode → Option (String × Change FNode)}
    (hf : ∀ x y, f x = some y → y.1 = x.1) :
    ((node.enumerateChildren.filterMap f).map Prod.fst).Nodup := by
  have hpair := nodup_keys_enumerateChildren h
  rw [List.Nodup, List.pairwise_map] at hpair ⊢
  refine List.Pairwise.filterMap f ?_ hpair
  intro x y hxy x' hx' y' hy'
  rw [hf x x' hx', hf y y' hy']
  exact hxy

theorem nodup_keys_updateFullNode (h : node.WellFormed) (hnew : newNode.WellFormed) :
    ((updateFullNode node newNode).2.map Prod.fst).Nodup := by
  rw [updateFullNode, List.map_append, List.nodup_append']
  refine ⟨nodup_keys_filterMap h fun x y hxy => ?_, nodup_keys_filterMap hnew fun x y hxy => ?_, ?_⟩
  · split at hxy
    · cases hxy
    · cases hxy
      rfl
  · split at hxy
    · dsimp only at hxy
      split at hxy
      · cases hxy
      · cases hxy
        rfl
    · cases hxy
      rfl
  · intro k hk hk'
    obtain ⟨x, hx, rfl⟩ := List.mem_map.mp hk
    obtain ⟨y, hy, heq⟩ := List.mem_map.mp hk'
    obtain ⟨-, -, -, hnone⟩ := (mem_removedChildren h).mp hx
    obtain ⟨new, hsome, -⟩ := (mem_addedOrChangedChildren h hnew).mp hy
    rw [heq, hnone] at hsome
    cases hsome

theorem distinct_updateFullNode (h : node.WellFormed) (hnew : newNode.WellFormed) :
    Distinct (updateFullNode node newNode).2 := by
  refine ⟨nodup_keys_updateFullNode h hnew, fun x hx => ?_⟩
  rcases List.mem_append.mp hx with hx | hx
  · obtain ⟨old, hxeq, -, -⟩ := (mem_removedChildren h).mp hx
    simp [hxeq]
  · obtain ⟨new, -, ⟨hxeq, -⟩ | ⟨old, hxeq, -, hne⟩⟩ := (mem_addedOrChangedChildren h hnew).mp hx
    · simp [hxeq]
    · simpa [hxeq] using hne

/-- **`updateFullNode:`** tracks the difference between the two nodes. -/
theorem leads_updateFullNode (h : node.WellFormed) (hnew : newNode.WellFormed) :
    Leads node.childMap (updateFullNode node newNode).2 newNode.childMap := by
  refine leads_of_nodup (nodup_keys_updateFullNode h hnew) ?_ ?_
  · intro x hx
    rcases List.mem_append.mp hx with hx | hx
    · obtain ⟨old, hxeq, hsome, hnone⟩ := (mem_removedChildren h).mp hx
      rw [hxeq]
      exact ⟨hsome, hnone⟩
    · obtain ⟨new, hsome, ⟨hxeq, hnone⟩ | ⟨old, hxeq, hold, -⟩⟩ := (mem_addedOrChangedChildren h hnew).mp hx
      · rw [hxeq]
        exact ⟨hnone, hsome⟩
      · rw [hxeq]
        exact ⟨hold, hsome⟩
  · -- a difference under a key that is not tracked would have been tracked
    intro k hk
    have htracked : ∀ {c}, (k, c) ∈ (updateFullNode node newNode).2 → False :=
      fun hc => hk (List.mem_map.mpr ⟨_, hc, rfl⟩)
    by_contra hdiff
    cases hsome : newNode.childMap k with
    | none =>
        obtain ⟨old, hold⟩ := Option.ne_none_iff_exists'.mp (hsome ▸ hdiff)
        exact htracked (List.mem_append_left _ ((mem_removedChildren h).mpr ⟨old, rfl, hold, hsome⟩))
    | some new =>
        have hmem : ∀ {c}, _ → (k, c) ∈ addedOrChangedChildren node newNode := fun hc =>
          (mem_addedOrChangedChildren h hnew).mpr ⟨new, hsome, hc⟩
        cases hold : node.childMap k with
        | none => exact htracked (List.mem_append_right _ (hmem (Or.inl ⟨rfl, hold⟩)))
        | some old =>
            have hne : old ≠ new := fun heq => hdiff (by rw [hold, hsome, heq])
            exact htracked (List.mem_append_right _ (hmem (Or.inr ⟨old, rfl, hold, hne⟩)))

/-- **`updateFullNode:` tracks the differences**, each once and nothing else. -/
theorem tracked_updateFullNode (h : node.WellFormed) (hnew : newNode.WellFormed) :
    ((updateFullNode node newNode).2.map Prod.fst).Nodup ∧
      ∀ k change, (k, change) ∈ (updateFullNode node newNode).2 ↔
        change.before = node.childMap k ∧ change.after = newNode.childMap k ∧
          change.before ≠ change.after := by
  refine ⟨nodup_keys_updateFullNode h hnew, fun k change => ?_⟩
  rw [updateFullNode, List.mem_append, mem_removedChildren h, mem_addedOrChangedChildren h hnew]
  cases change with
  | added new =>
      simp only [Change.before, Change.after, reduceCtorEq, false_and, exists_false, false_or, or_false,
        Change.added.injEq, ne_eq, not_false_eq_true, and_true]
      constructor
      · rintro ⟨new, hnew, rfl, hold⟩
        exact ⟨hold.symm, hnew.symm⟩
      · rintro ⟨hold, hnew⟩
        exact ⟨new, hnew.symm, rfl, hold.symm⟩
  | removed old =>
      simp only [Change.before, Change.after, reduceCtorEq, false_and, exists_false, or_false, and_false,
        Change.removed.injEq, ne_eq, not_false_eq_true, and_true]
      constructor
      · rintro ⟨old, rfl, hold, hnew⟩
        exact ⟨hold.symm, hnew.symm⟩
      · rintro ⟨hold, hnew⟩
        exact ⟨old, rfl, hold.symm, hnew.symm⟩
  | changed new old =>
      simp only [Change.before, Change.after, reduceCtorEq, false_and, exists_false, false_or,
        Change.changed.injEq, ne_eq, Option.some.injEq]
      constructor
      · rintro ⟨new, hnew, old, ⟨rfl, rfl⟩, hold, hne⟩
        exact ⟨hold.symm, hnew.symm, hne⟩
      · rintro ⟨hold, hnew, hne⟩
        exact ⟨new, hnew.symm, old, ⟨rfl, rfl⟩, hold.symm, hne⟩

theorem tracked_updateFullNode_child :
    ((updateFullNode FNode.emptyNode (.children [("a", .leaf (.bool true))])).2.map Prod.fst).Nodup ∧
      ∀ k change, (k, change) ∈ (updateFullNode FNode.emptyNode (.children [("a", .leaf (.bool true))])).2 ↔
        change.before = FNode.emptyNode.childMap k ∧
          change.after = (FNode.children [("a", .leaf (.bool true))]).childMap k ∧
          change.before ≠ change.after :=
  tracked_updateFullNode FNode.wellFormed_emptyNode
    (FNode.wellFormed_emptyNode.updateChild (p := ["a"]) (by decide) (.leaf (.bool true)))

end FIndexedFilter

/-! ### The accumulator -/

/-- What the accumulator keeps, by key. -/
def kept (changeMap : FChildChangeAccumulator) (k : String) : Option (Change FNode) :=
  SortedList.get stringComparator k changeMap

section Accumulator

variable {changeMap : FChildChangeAccumulator} {k : String} {change : Change FNode}

theorem mem_of_kept (hs : SortedList.Sorted stringComparator changeMap) :
    kept changeMap k = some change ↔ (k, change) ∈ changeMap :=
  SortedList.get_eq_some_iff (stringComparator_separates fun _ => True) hs
    (SortedList.keysIn_true changeMap) trivial

theorem kept_insert (hs : SortedList.Sorted stringComparator changeMap) (k : String)
    (change : Change FNode) :
    kept (SortedList.insert stringComparator k change changeMap) =
      Function.update (kept changeMap) k (some change) := by
  funext j
  rw [kept, SortedList.get_insert (stringComparator_separates fun _ => True) hs
    (SortedList.keysIn_true changeMap) trivial trivial, Function.update_apply]
  simp only [eq_comm (a := j)]
  rfl

theorem kept_erase (hs : SortedList.Sorted stringComparator changeMap) (k : String) :
    kept (SortedList.erase stringComparator k changeMap) = Function.update (kept changeMap) k none := by
  funext j
  rw [kept, SortedList.get_erase (stringComparator_separates fun _ => True) hs
    (SortedList.keysIn_true changeMap) trivial trivial, Function.update_apply]
  simp only [eq_comm (a := j)]
  rfl

/-- `trackChildChange:` composes the change with the one kept for the key. -/
theorem trackChildChange_of_track (hs : SortedList.Sorted stringComparator changeMap)
    {acc : String → Option (Change FNode)} (h : track (kept changeMap) k change = some acc) :
    ∃ changeMap', trackChildChange changeMap k change = .ok changeMap' ∧
      SortedList.Sorted stringComparator changeMap' ∧ kept changeMap' = acc := by
  have hset : ∀ c, SortedList.Sorted stringComparator (SortedList.insert stringComparator k c changeMap) ∧
      kept (SortedList.insert stringComparator k c changeMap) =
        Function.update (kept changeMap) k (some c) := fun c =>
    ⟨SortedList.sorted_insert hs, kept_insert hs k c⟩
  unfold track at h
  unfold trackChildChange
  cases hold : kept changeMap k with
  | none =>
      rw [hold] at h
      simp only [show SortedList.get stringComparator k changeMap = none from hold]
      cases h
      exact ⟨_, rfl, hset change⟩
  | some old =>
      rw [hold] at h
      simp only [show SortedList.get stringComparator k changeMap = some old from hold]
      obtain ⟨e, he, rfl⟩ := Option.map_eq_some_iff.mp h
      -- one case for each row of the source's table
      cases change <;> cases old <;> cases he
      · exact ⟨_, rfl, hset _⟩
      · exact ⟨_, rfl, SortedList.sorted_erase hs, kept_erase hs k⟩
      · exact ⟨_, rfl, hset _⟩
      · exact ⟨_, rfl, hset _⟩
      · exact ⟨_, rfl, hset _⟩

theorem foldlM_trackChildChange_of_track {tracked : Tracked}
    (hs : SortedList.Sorted stringComparator changeMap) {acc : String → Option (Change FNode)}
    (h : tracked.foldlM (fun acc x => track acc x.1 x.2) (kept changeMap) = some acc) :
    ∃ changeMap', tracked.foldlM (fun changeMap x => trackChildChange changeMap x.1 x.2) changeMap =
        .ok changeMap' ∧
      SortedList.Sorted stringComparator changeMap' ∧ kept changeMap' = acc := by
  induction tracked generalizing changeMap with
  | nil =>
      cases h
      exact ⟨changeMap, rfl, hs, rfl⟩
  | cons x tracked ih =>
      rw [List.foldlM_cons] at h
      obtain ⟨acc₁, hacc₁, h⟩ := Option.bind_eq_some_iff.mp h
      obtain ⟨changeMap₁, hrun, hs₁, rfl⟩ := trackChildChange_of_track hs hacc₁
      obtain ⟨changeMap₂, hrest, hs₂, h₂⟩ := ih hs₁ h
      exact ⟨changeMap₂, by rw [List.foldlM_cons, hrun]; exact hrest, hs₂, h₂⟩

/-- **Tracking never fails** on changes that lead from one set of children to another, and
keeps their difference. -/
theorem foldlM_trackChildChange {f f' : String → Option FNode} {tracked : Tracked}
    (hleads : Leads f tracked f') :
    ∃ changeMap, tracked.foldlM (fun changeMap x => trackChildChange changeMap x.1 x.2) [] =
        .ok changeMap ∧
      SortedList.Sorted stringComparator changeMap ∧ Tracks f (kept changeMap) f' ∧
      (Distinct tracked → ∀ x ∈ changeMap, x.2.before ≠ x.2.after) := by
  obtain ⟨acc, hacc, htracks⟩ := (tracks_refl f).leads hleads
  obtain ⟨changeMap, hrun, hs, rfl⟩ := foldlM_trackChildChange_of_track SortedList.sorted_nil hacc
  refine ⟨changeMap, hrun, hs, htracks, fun hdistinct x hx => ?_⟩
  exact hdistinct.differ_of_tracks hleads htracks hacc ((mem_of_kept hs).mpr hx)

end Accumulator

end MyChat
