import MyChat.ViewCache

/-!
# MyChat.ViewContents

What a view has cached is right. `Contents` says what is true at a location: the writes
that are pending there, what the server has, and what is to be shown. An operation turns
it into another one (`FOperation.Turns`), and a view that shows the one shows the other
after processing the operation (`shows_process`). The operation for a child turns the
contents of the child (`Turns.operationForChild`).

A view is right about the server's data once it has all of it, and about what is to be
shown then or when a pending write hides the location. Before that it has parts, and
nothing is said about it.
-/

namespace MyChat

open PathTree FUtilities FCompoundWrite NetChange

/-- The pending writes at a location, what the server has there, and what is to be shown. -/
structure Contents where
  writes : Overlay String Scalar
  server : Snapshot
  shown : Snapshot

namespace Contents

/-- The contents at a path below. -/
def below (c : Contents) (p : Path) : Contents :=
  ⟨c.writes.below p, c.server.subtree p, c.shown.subtree p⟩

/-- A pending write hides whatever the server has at the path. -/
def Hides (c : Contents) (p : Path) : Prop := c.writes.rootMost p ≠ none

/-- The pending writes are shown on top of what the server has. -/
def Layered (c : Contents) : Prop := c.shown = c.writes.apply c.server

variable {c c' : Contents} {p q : Path}

theorem hides_below : (c.below p).Hides q ↔ c.Hides (p ++ q) :=
  not_congr Overlay.rootMost_below_eq_none_iff

theorem Layered.below (h : c.Layered) (p : Path) : (c.below p).Layered := by
  show c.shown.subtree p = (c.writes.below p).apply (c.server.subtree p)
  rw [h, Overlay.subtree_apply]

theorem below_nil (c : Contents) : c.below [] = c := by simp [below]

theorem below_below (c : Contents) (p q : Path) : (c.below p).below q = c.below (p ++ q) := by
  simp [below, Overlay.below_below]

/-- Where everything is hidden, what the server has makes no difference. -/
theorem Layered.shown_eq (h : c.Layered) (h' : c'.Layered) (hwrites : c'.writes = c.writes)
    (hhides : c.Hides []) : c'.shown = c.shown := by
  rw [h, h', hwrites]
  exact Overlay.apply_congr_of_hidden hhides (AgreeBeside.nil _ _)

end Contents

/-- A merge that writes something, and nothing empty. -/
structure FCompoundWrite.Proper (write : FCompoundWrite) : Prop where
  valid : FCompoundWrite.Valid write
  nonempty : ∀ x ∈ write.forEach, x.2.isEmpty = false
  some : write.isEmpty = false

/-- What an operation does to the contents of the location it is for. An answered write
is not pending any more; `base` is what the server would have with it on top. -/
def FOperation.Turns : FOperation → Contents → Contents → Prop
  | .overwrite true path snap, c, c' =>
      c'.server = c.server ∧ c'.shown = c.shown.graft path snap.data ∧
        (path ≠ [] → snap.data ≠ ∅) ∧ ∀ q, ¬ path <+: q → c'.Hides q → c.Hides q
  | .overwrite false path snap, c, c' =>
      c.Layered ∧ c'.Layered ∧ c'.writes = c.writes ∧ c'.server = c.server.graft path snap.data ∧
        (snap.data ≠ ∅ ∨ c.server.ClearAbove path)
  | .merge true path children, c, c' =>
      c'.server = c.server ∧
        c'.shown = c.shown.graft path ((overlay children).apply (c.shown.subtree path)) ∧
        children.Proper ∧
        ∀ q, (∀ x ∈ children.forEach, ¬ path ++ x.1 <+: q) → c'.Hides q → c.Hides q
  | .merge false path children, c, c' =>
      c.Layered ∧ c'.Layered ∧ c'.writes = c.writes ∧
        c'.server = c.server.graft path ((overlay children).apply (c.server.subtree path)) ∧
        children.Proper ∧ children.value = none
  | .ackUserWrite path affectedTree false, c, c' =>
      c'.Layered ∧ c'.server = c.server ∧ (∀ q, c'.Hides q → c.Hides q) ∧
        (path ≠ [] → affectedTree.isEmpty = false) ∧
        (∀ x ∈ affectedTree.forEach, path ++ x.1 ≠ [] → c.server.subtree (path ++ x.1) ≠ ∅) ∧
        ∃ base, c.shown = c'.writes.apply base ∧
          AgreeOutside (affectedTree.forEach.map fun x => path ++ x.1) base c.server
  | .ackUserWrite path _ true, c, c' =>
      c'.Layered ∧ c'.server = c.server ∧ (∀ q, c'.Hides q → c.Hides q) ∧
        ∃ base, c.shown = c'.writes.apply base ∧ AgreeBeside path base c.server ∧
          (path ≠ [] → base.subtree path ≠ ∅)
  | .listenComplete path, c, c' => c' = c ∧ c.Layered ∧ c.server.ClearAbove path

/-- The view has what is true at its location. -/
structure FViewCache.Shows (viewCache : FViewCache) (c : Contents) : Prop
    extends FViewCache.WellFormed viewCache where
  serverSnap : viewCache.cachedServerSnap.isFullyInitialized = true →
    viewCache.cachedServerSnap.node.data = c.server
  eventSnap : viewCache.cachedServerSnap.isFullyInitialized = true ∨ c.Hides [] →
    viewCache.cachedEventSnap.Complete c.shown

/-! ### The operation for a child -/

/-- Nothing changes, but writes may have gone. -/
structure Contents.Keeps (c c' : Contents) : Prop where
  server : c'.server = c.server
  shown : c'.shown = c.shown
  hides : ∀ q, c'.Hides q → c.Hides q

theorem FViewCache.Shows.of_keeps {viewCache : FViewCache} {c c' : Contents} (h : viewCache.Shows c)
    (hkeeps : c.Keeps c') : viewCache.Shows c' where
  toWellFormed := h.toWellFormed
  serverSnap := fun hfull => (h.serverSnap hfull).trans hkeeps.server.symm
  eventSnap := fun hor => hkeeps.shown ▸ h.eventSnap (hor.imp_right (hkeeps.hides []))

/-- A merge hides the paths at or below its writes. -/
theorem FCompoundWrite.rootMost_overlay_eq_none_iff {write : FCompoundWrite}
    (h : write.WellFormed FNode.WellFormed) {q : Path} :
    (overlay write).rootMost q = none ↔ ∀ x ∈ write.forEach, ¬ x.1 <+: q := by
  rw [Overlay.rootMost_eq_none_iff]
  constructor
  · exact fun hnone x hx => hnone (x.1, x.2.data) (mem_overlay.mpr ⟨x.2, h.mem_toTree.mpr hx, rfl⟩)
  · intro hnone e he
    obtain ⟨n, hn, -⟩ := mem_overlay.mp he
    exact hnone (e.1, n) (h.mem_toTree.mp hn)

namespace FOperation

variable {c c' : Contents} {operation : FOperation} {k j : String} {p : Path}

theorem keeps_of_layered (h : c.Layered) (h' : c'.Layered) (hwrites : c'.writes = c.writes)
    (hserver : c'.server = c.server) : c.Keeps c' := by
  refine ⟨hserver, ?_, fun q hq => ?_⟩
  · rw [h, h', hwrites, hserver]
  · rwa [Contents.Hides, hwrites] at hq

/-- An operation elsewhere keeps the contents. -/
theorem Turns.keeps (hturns : operation.Turns c c') (hpath : operation.path = j :: p) (hjk : j ≠ k) :
    (c.below [k]).Keeps (c'.below [k]) := by
  have hinc : Incomparable (j :: p) [k] :=
    ⟨fun h => hjk (List.cons_prefix_cons.mp h).1, fun h => hjk (List.cons_prefix_cons.mp h).1.symm⟩
  have hserver : ∀ {s t u : Snapshot}, s = t.graft (j :: p) u → s.subtree [k] = t.subtree [k] :=
    fun h => by rw [h, subtree_graft_of_incomparable hinc]
  have hnot : ∀ q r : Path, ¬ j :: q <+: k :: r := fun q r h => hjk (List.cons_prefix_cons.mp h).1
  have hsub : (∀ q, c'.Hides q → c.Hides q) → ∀ q, (c'.below [k]).Hides q → (c.below [k]).Hides q :=
    fun hhides q hq => Contents.hides_below.mpr (hhides _ (Contents.hides_below.mp hq))
  cases operation with
  | overwrite fromUser path snap =>
      obtain rfl : path = j :: p := hpath
      cases fromUser with
      | true =>
          obtain ⟨hsame, hshown, -, hhides⟩ := hturns
          refine ⟨congrArg (PathTree.subtree · [k]) hsame, hserver hshown, fun q hq => ?_⟩
          exact Contents.hides_below.mpr (hhides _ (hnot p q) (Contents.hides_below.mp hq))
      | false =>
          obtain ⟨hlayered, hlayered', hwrites, hsame, -⟩ := hturns
          exact keeps_of_layered (hlayered.below [k]) (hlayered'.below [k])
            (congrArg (Overlay.below · [k]) hwrites) (hserver hsame)
  | merge fromUser path children =>
      obtain rfl : path = j :: p := hpath
      cases fromUser with
      | true =>
          obtain ⟨hsame, hshown, -, hhides⟩ := hturns
          refine ⟨congrArg (PathTree.subtree · [k]) hsame, hserver hshown, fun q hq => ?_⟩
          exact Contents.hides_below.mpr (hhides _ (fun x _ => hnot _ q) (Contents.hides_below.mp hq))
      | false =>
          obtain ⟨hlayered, hlayered', hwrites, hsame, -⟩ := hturns
          exact keeps_of_layered (hlayered.below [k]) (hlayered'.below [k])
            (congrArg (Overlay.below · [k]) hwrites) (hserver hsame)
  | ackUserWrite path affectedTree revert =>
      obtain rfl : path = j :: p := hpath
      have hshown : ∀ {base : Snapshot}, c'.Layered → c'.server = c.server →
          c.shown = c'.writes.apply base → AgreeBeside (j :: p) base c.server →
          c'.shown.subtree [k] = c.shown.subtree [k] := by
        intro base hlayered' hsame hbase hagree
        rw [hlayered', hbase, Overlay.subtree_apply, Overlay.subtree_apply, hsame,
          hagree.subtree_of_incomparable hinc]
      cases revert with
      | true =>
          obtain ⟨hlayered', hsame, hhides, base, hbase, hagree, -⟩ := hturns
          exact ⟨congrArg (PathTree.subtree · [k]) hsame, hshown hlayered' hsame hbase hagree, hsub hhides⟩
      | false =>
          obtain ⟨hlayered', hsame, hhides, -, -, base, hbase, hagree⟩ := hturns
          exact ⟨congrArg (PathTree.subtree · [k]) hsame,
            hshown hlayered' hsame hbase (FViewProcessor.agreeBeside_of_affected hagree), hsub hhides⟩
  | listenComplete path =>
      obtain ⟨rfl, -, -⟩ := hturns
      exact ⟨rfl, rfl, fun _ => id⟩

/-- **The operation for a child on its path** turns the contents of the child. -/
theorem Turns.operationForChild_of_cons (hturns : operation.Turns c c') (hop : operation.WellFormed)
    (hpath : operation.path = k :: p) :
    ∃ op, operation.operationForChild k = some op ∧ op.WellFormed ∧
      op.Turns (c.below [k]) (c'.below [k]) := by
  have hserver : ∀ {s t u : Snapshot}, s = t.graft (k :: p) u →
      s.subtree [k] = (t.subtree [k]).graft p u := fun h => by
    rw [h, ← List.singleton_append, subtree_graft_append]
  have hcons : ∀ {q r : Path}, ¬ q <+: r → ¬ k :: q <+: k :: r := fun hnot h =>
    hnot (List.cons_prefix_cons.mp h).2
  have hsub : (∀ q, c'.Hides q → c.Hides q) → ∀ q, (c'.below [k]).Hides q → (c.below [k]).Hides q :=
    fun hhides q hq => Contents.hides_below.mpr (hhides _ (Contents.hides_below.mp hq))
  cases operation with
  | overwrite fromUser path snap =>
      obtain rfl : path = k :: p := hpath
      refine ⟨.overwrite fromUser p snap, rfl, ⟨(plainPath_cons.mp hop.1).2, hop.2⟩, ?_⟩
      cases fromUser with
      | true =>
          obtain ⟨hsame, hshown, hne, hhides⟩ := hturns
          refine ⟨congrArg (PathTree.subtree · [k]) hsame, hserver hshown,
            fun _ => hne (List.cons_ne_nil k p), fun q hq hhidden => ?_⟩
          exact Contents.hides_below.mpr (hhides _ (hcons hq) (Contents.hides_below.mp hhidden))
      | false =>
          obtain ⟨hlayered, hlayered', hwrites, hsame, hclear⟩ := hturns
          exact ⟨hlayered.below [k], hlayered'.below [k], congrArg (Overlay.below · [k]) hwrites,
            hserver hsame, hclear.imp_right ClearAbove.subtree⟩
  | merge fromUser path children =>
      obtain rfl : path = k :: p := hpath
      refine ⟨.merge fromUser p children, rfl, ⟨(plainPath_cons.mp hop.1).2, hop.2⟩, ?_⟩
      have hgraft : ∀ {s t : Snapshot},
          s = t.graft (k :: p) ((overlay children).apply (t.subtree (k :: p))) →
          s.subtree [k] = (t.subtree [k]).graft p
            ((overlay children).apply ((t.subtree [k]).subtree p)) := fun h => by
        rw [hserver h, subtree_subtree, List.singleton_append]
      cases fromUser with
      | true =>
          obtain ⟨hsame, hshown, hproper, hhides⟩ := hturns
          refine ⟨congrArg (PathTree.subtree · [k]) hsame, hgraft hshown, hproper, fun q hq hhidden => ?_⟩
          exact Contents.hides_below.mpr (hhides _ (fun x hx => hcons (hq x hx))
            (Contents.hides_below.mp hhidden))
      | false =>
          obtain ⟨hlayered, hlayered', hwrites, hsame, hproper⟩ := hturns
          exact ⟨hlayered.below [k], hlayered'.below [k], congrArg (Overlay.below · [k]) hwrites,
            hgraft hsame, hproper⟩
  | ackUserWrite path affectedTree revert =>
      obtain rfl : path = k :: p := hpath
      refine ⟨.ackUserWrite p affectedTree revert, rfl, ⟨(plainPath_cons.mp hop.1).2, hop.2⟩, ?_⟩
      have hshown : ∀ {base : Snapshot}, c.shown = c'.writes.apply base →
          c.shown.subtree [k] = (c'.writes.below [k]).apply (base.subtree [k]) := fun h => by
        rw [h, Overlay.subtree_apply]
      cases revert with
      | true =>
          obtain ⟨hlayered', hsame, hhides, base, hbase, hagree, hne⟩ := hturns
          refine ⟨hlayered'.below [k], congrArg (PathTree.subtree · [k]) hsame, hsub hhides,
            base.subtree [k], hshown hbase, hagree.subtree (r := [k]), fun _ => ?_⟩
          rw [subtree_subtree]
          exact hne (List.cons_ne_nil k p)
      | false =>
          obtain ⟨hlayered', hsame, hhides, hsome, hne, base, hbase, hagree⟩ := hturns
          refine ⟨hlayered'.below [k], congrArg (PathTree.subtree · [k]) hsame, hsub hhides,
            fun _ => hsome (List.cons_ne_nil k p), fun x hx _ => ?_, base.subtree [k], hshown hbase,
            fun x hx => ?_⟩
          · show (c.server.subtree [k]).subtree _ ≠ ∅
            rw [subtree_subtree]
            exact hne x hx (by simp)
          · obtain ⟨q, v⟩ := x
            show (q, v) ∈ (base.subtree [k]).leaves ↔ (q, v) ∈ (c.server.subtree [k]).leaves
            rw [mem_subtree, mem_subtree]
            refine hagree _ fun p' hp' => ?_
            obtain ⟨y, hy, rfl⟩ := List.mem_map.mp hp'
            have hinc := hx _ (List.mem_map_of_mem hy)
            exact Incomparable.append_left (c := [k]).mpr hinc
  | listenComplete path =>
      obtain rfl : path = k :: p := hpath
      obtain ⟨rfl, hlayered, hclear⟩ := hturns
      exact ⟨.listenComplete p, rfl, (plainPath_cons.mp hop).2, rfl, hlayered.below [k],
        ClearAbove.subtree (r := [k]) hclear⟩

/-- The part of a merge for a child. -/
theorem childCompoundWriteAtPath_spec {children : FCompoundWrite} (h : children.Proper) (hk : Plain k) :
    FCompoundWrite.Placed (childCompoundWriteAtPath children [k]) ∧
      (∀ t : Snapshot, ((overlay children).apply t).subtree [k] =
        (overlay (childCompoundWriteAtPath children [k])).apply (t.subtree [k])) ∧
      (∀ q, (∀ x ∈ (childCompoundWriteAtPath children [k]).forEach, ¬ x.1 <+: q) →
        ∀ x ∈ children.forEach, ¬ x.1 <+: k :: q) ∧
      ((childCompoundWriteAtPath children [k]).isEmpty = false →
        (childCompoundWriteAtPath children [k]).value = none →
          (childCompoundWriteAtPath children [k]).Proper) := by
  have hp : PlainPath [k] := by simpa using hk
  obtain ⟨hvalid, hoverlay⟩ := overlay_childCompoundWriteAtPath h.valid hp
  refine ⟨hvalid.toPlaced, fun t => ?_, fun q hq => ?_, fun hsome hvalue => ⟨hvalid, fun x hx => ?_, hsome⟩⟩
  · rw [Overlay.subtree_apply, hoverlay]
  · rw [← rootMost_overlay_eq_none_iff hvalid.wf, hoverlay, Overlay.rootMost_below_eq_none_iff] at hq
    exact (rootMost_overlay_eq_none_iff h.valid.wf).mp hq
  · have hmem := hvalid.wf.mem_toTree.mpr hx
    refine (hvalid.nonempty x hmem).resolve_right fun hnil => ?_
    rw [show x = ([], x.2) from Prod.ext hnil rfl, hvalid.wf.mem_toTree_nil, hvalue] at hmem
    cases hmem

/-- What the operation for a child does, if there is one. -/
def TurnsChild (op : Option FOperation) (c c' : Contents) : Prop :=
  match op with
  | some op => op.WellFormed ∧ op.path = [] ∧ op.Turns c c'
  | none => c.Keeps c'

theorem hides_below_of_hides (hhides : ∀ q, c'.Hides q → c.Hides q) (q : Path)
    (hq : (c'.below [k]).Hides q) : (c.below [k]).Hides q :=
  Contents.hides_below.mpr (hhides _ (Contents.hides_below.mp hq))

theorem operationForChild_merge (fromUser : Bool) (children : FCompoundWrite) (k : String) :
    (merge fromUser [] children).operationForChild k =
      if (childCompoundWriteAtPath children [k]).isEmpty then none
      else
        match rootWrite (childCompoundWriteAtPath children [k]) with
        | some snap => some (overwrite fromUser [] snap)
        | none => some (merge fromUser [] (childCompoundWriteAtPath children [k])) := rfl

theorem turnsChild_of_userMerge {children : FCompoundWrite} (hk : Plain k)
    (hturns : (merge true [] children).Turns c c') :
    TurnsChild ((merge true [] children).operationForChild k) (c.below [k]) (c'.below [k]) := by
  obtain ⟨hsame, hshown, hproper, hhides⟩ := hturns
  obtain ⟨hplaced, happly, hhidden, hrest⟩ := childCompoundWriteAtPath_spec hproper hk
  have hserver : (c'.below [k]).server = (c.below [k]).server := congrArg (PathTree.subtree · [k]) hsame
  have hchild : (c'.below [k]).shown =
      (overlay (childCompoundWriteAtPath children [k])).apply (c.below [k]).shown := by
    show c'.shown.subtree [k] = _
    rw [hshown, graft_nil, subtree_nil, happly]
    rfl
  have hhides' : ∀ q, (∀ x ∈ (childCompoundWriteAtPath children [k]).forEach, ¬ x.1 <+: q) →
      (c'.below [k]).Hides q → (c.below [k]).Hides q := fun q hq hhidden' =>
    Contents.hides_below.mpr (hhides _ (hhidden q hq) (Contents.hides_below.mp hhidden'))
  rw [operationForChild_merge]
  generalize childCompoundWriteAtPath children [k] = child at *
  split
  · next hempty =>
    rw [(overlay_eq_empty_iff hplaced).mpr hempty] at hchild
    obtain rfl := FImmutableTree.isEmpty_iff.mp hempty
    exact ⟨hserver, hchild, fun q => hhides' q fun x hx => by cases hx⟩
  · next hempty =>
    split
    · next snap hroot =>
      obtain rfl := hplaced.wf.eq_ofValue hroot
      have hsnap : snap.WellFormed := hplaced.wellFormed (hplaced.wf.mem_toTree_nil.mpr hroot)
      rw [apply_overlay (valid_ofValue hsnap)] at hchild
      exact ⟨⟨plainPath_nil, hsnap⟩, rfl, hserver, by rw [hchild]; simp [changes],
        fun hne => absurd rfl hne, fun q hq => absurd List.nil_prefix hq⟩
    · next hroot =>
      refine ⟨⟨plainPath_nil, hplaced⟩, rfl, hserver, ?_, hrest (by simpa using hempty) hroot, hhides'⟩
      rw [graft_nil, subtree_nil]
      exact hchild

theorem turnsChild_of_serverMerge {children : FCompoundWrite} (hk : Plain k)
    (hturns : (merge false [] children).Turns c c') :
    TurnsChild ((merge false [] children).operationForChild k) (c.below [k]) (c'.below [k]) := by
  obtain ⟨hlayered, hlayered', hsame, hserver, hproper, -⟩ := hturns
  obtain ⟨hplaced, happly, -, hrest⟩ := childCompoundWriteAtPath_spec hproper hk
  have hwrites : (c'.below [k]).writes = (c.below [k]).writes := congrArg (Overlay.below · [k]) hsame
  have hchild : (c'.below [k]).server =
      (overlay (childCompoundWriteAtPath children [k])).apply (c.below [k]).server := by
    show c'.server.subtree [k] = _
    rw [hserver, graft_nil, subtree_nil, happly]
    rfl
  rw [operationForChild_merge]
  generalize childCompoundWriteAtPath children [k] = child at *
  split
  · next hempty =>
    rw [(overlay_eq_empty_iff hplaced).mpr hempty] at hchild
    exact keeps_of_layered (hlayered.below [k]) (hlayered'.below [k]) hwrites hchild
  · next hempty =>
    split
    · next snap hroot =>
      obtain rfl := hplaced.wf.eq_ofValue hroot
      have hsnap : snap.WellFormed := hplaced.wellFormed (hplaced.wf.mem_toTree_nil.mpr hroot)
      rw [apply_overlay (valid_ofValue hsnap)] at hchild
      exact ⟨⟨plainPath_nil, hsnap⟩, rfl, hlayered.below [k], hlayered'.below [k], hwrites,
        by rw [hchild]; simp [changes], Or.inr (clearAbove_nil _)⟩
    · next hroot =>
      refine ⟨⟨plainPath_nil, hplaced⟩, rfl, hlayered.below [k], hlayered'.below [k], hwrites, ?_,
        hrest (by simpa using hempty) hroot, hroot⟩
      rw [graft_nil, subtree_nil]
      exact hchild

theorem turnsChild_of_ack {affectedTree : FImmutableTree Bool} {revert : Bool}
    (hop : (ackUserWrite [] affectedTree revert).WellFormed)
    (hturns : (ackUserWrite [] affectedTree revert).Turns c c') :
    TurnsChild ((ackUserWrite [] affectedTree revert).operationForChild k) (c.below [k])
      (c'.below [k]) := by
  have hserver : c'.server = c.server → (c'.below [k]).server = (c.below [k]).server :=
    congrArg (PathTree.subtree · [k])
  have hshown : ∀ {base : Snapshot}, c.shown = c'.writes.apply base →
      (c.below [k]).shown = (c'.below [k]).writes.apply (base.subtree [k]) := fun h => by
    show c.shown.subtree [k] = _
    rw [h, Overlay.subtree_apply]
    rfl
  -- whatever it is that the operation says of the affected paths
  have hreverts : ∀ affected : FImmutableTree Bool, revert = true →
      (ackUserWrite [] affected revert).Turns (c.below [k]) (c'.below [k]) := by
    rintro affected rfl
    obtain ⟨hlayered', hsame, hhides, base, hbase, -, -⟩ := hturns
    exact ⟨hlayered'.below [k], hserver hsame, hides_below_of_hides hhides, base.subtree [k],
      hshown hbase, AgreeBeside.nil _ _, fun hne => absurd rfl hne⟩
  cases hvalue : affectedTree.value with
  | some v =>
      have hself : (ackUserWrite [] affectedTree revert).operationForChild k =
          some (ackUserWrite [] affectedTree revert) := by
        unfold operationForChild
        simp [hvalue]
      rw [hself]
      refine ⟨hop, rfl, ?_⟩
      cases revert with
      | true => exact hreverts affectedTree rfl
      | false =>
          obtain ⟨hlayered', hsame, hhides, -, -, base, hbase, -⟩ := hturns
          obtain rfl := hop.2.1.eq_ofValue hvalue
          refine ⟨hlayered'.below [k], hserver hsame, hides_below_of_hides hhides,
            fun hne => absurd rfl hne, fun x hx hne => ?_, base.subtree [k], hshown hbase, fun x hx => ?_⟩
          · rw [FImmutableTree.forEach_ofValue, List.mem_singleton] at hx
            rw [hx] at hne
            exact absurd rfl hne
          · have hinc := hx [] (by simp)
            exact absurd List.nil_prefix hinc.1
  | none =>
      have hpart : (ackUserWrite [] affectedTree revert).operationForChild k =
          some (ackUserWrite [] (affectedTree.subtreeAtPath [k]) revert) := by
        unfold operationForChild
        simp [hvalue]
      rw [hpart]
      have hwf := hop.2.1.subtreeAtPath [k]
      have hmem : ∀ {x : Path × Bool}, x ∈ (affectedTree.subtreeAtPath [k]).forEach ↔
          (k :: x.1, x.2) ∈ affectedTree.forEach := fun {x} => by
        rw [← hwf.mem_toTree, ← hop.2.1.mem_toTree, FImmutableTree.toTree_subtreeAtPath hop.2.1, mem_subtree]
        rfl
      refine ⟨⟨plainPath_nil, hwf, fun x hx => ?_⟩, rfl, ?_⟩
      · exact (plainPath_cons.mp (hop.2.2 _ (hmem.mp hx))).2
      cases revert with
      | true => exact hreverts _ rfl
      | false =>
          obtain ⟨hlayered', hsame, hhides, -, hne, base, hbase, hagree⟩ := hturns
          refine ⟨hlayered'.below [k], hserver hsame, hides_below_of_hides hhides,
            fun hnil => absurd rfl hnil, fun x hx _ => ?_, base.subtree [k], hshown hbase, fun y hy => ?_⟩
          · show (c.server.subtree [k]).subtree _ ≠ ∅
            rw [subtree_subtree]
            exact hne _ (hmem.mp hx) (by simp)
          · obtain ⟨q, v⟩ := y
            show (q, v) ∈ (base.subtree [k]).leaves ↔ (q, v) ∈ (c.server.subtree [k]).leaves
            rw [mem_subtree, mem_subtree]
            refine hagree _ fun p hp => ?_
            obtain ⟨⟨r, b⟩, hx, rfl⟩ := List.mem_map.mp hp
            cases r with
            | nil =>
                rw [hop.2.1.mem_toTree_nil.mp (hop.2.1.mem_toTree.mpr hx)] at hvalue
                cases hvalue
            | cons j r =>
                by_cases hjk : j = k
                · subst hjk
                  have hinc := hy r (List.mem_map.mpr ⟨(r, b), hmem.mpr hx, rfl⟩)
                  exact Incomparable.append_left (c := [j]).mpr hinc
                · exact ⟨fun h => hjk (List.cons_prefix_cons.mp h).1,
                    fun h => hjk (List.cons_prefix_cons.mp h).1.symm⟩

/-- **The operation for a child below it** turns the contents of the child, and without
one they stay. -/
theorem Turns.operationForChild_of_nil (hturns : operation.Turns c c') (hop : operation.WellFormed)
    (hpath : operation.path = []) (hk : Plain k) :
    TurnsChild (operation.operationForChild k) (c.below [k]) (c'.below [k]) := by
  cases operation with
  | overwrite fromUser path snap =>
      obtain rfl : path = [] := hpath
      have hdata := FNode.data_getImmediateChild hop.2 hk
      refine ⟨⟨plainPath_nil, hop.2.getImmediateChild k⟩, rfl, ?_⟩
      cases fromUser with
      | true =>
          obtain ⟨hsame, hshown, -, -⟩ := hturns
          refine ⟨congrArg (PathTree.subtree · [k]) hsame, ?_, fun hne => absurd rfl hne,
            fun q hq => absurd List.nil_prefix hq⟩
          show c'.shown.subtree [k] = _
          rw [hshown, graft_nil, graft_nil, hdata]
      | false =>
          obtain ⟨hlayered, hlayered', hwrites, hsame, -⟩ := hturns
          refine ⟨hlayered.below [k], hlayered'.below [k], congrArg (Overlay.below · [k]) hwrites, ?_,
            Or.inr (clearAbove_nil _)⟩
          show c'.server.subtree [k] = _
          rw [hsame, graft_nil, graft_nil, hdata]
  | merge fromUser path children =>
      obtain rfl : path = [] := hpath
      cases fromUser with
      | true => exact turnsChild_of_userMerge hk hturns
      | false => exact turnsChild_of_serverMerge hk hturns
  | ackUserWrite path affectedTree revert =>
      obtain rfl : path = [] := hpath
      exact turnsChild_of_ack hop hturns
  | listenComplete path =>
      obtain rfl : path = [] := hpath
      obtain ⟨rfl, hlayered, -⟩ := hturns
      exact ⟨plainPath_nil, rfl, rfl, hlayered.below [k], clearAbove_nil _⟩

end FOperation

namespace FViewProcessor

variable {viewCache : FViewCache} {writes : FWriteTreeRef} {cache : Option FNode}
  {operation : FOperation} {c c' : Contents} {r : FViewCache × Tracked}

theorem cachedServerSnap_applyUserOverwriteTo (path : Path) (snap : FNode) :
    (applyUserOverwriteTo viewCache path snap writes cache).1.cachedServerSnap =
      viewCache.cachedServerSnap := by
  unfold applyUserOverwriteTo
  cases path with
  | nil => rfl
  | cons k p =>
      dsimp only
      split <;> rfl

theorem cachedServerSnap_applyUserMergeTo (path : Path) (children : FCompoundWrite) :
    (applyUserMergeTo viewCache path children writes cache).1.cachedServerSnap =
      viewCache.cachedServerSnap := by
  have hfold : ∀ (xs : List (Path × FNode)) (cur : FViewCache) (t : Tracked),
      (xs.foldl (fun cur x =>
        ((applyUserOverwriteTo cur.1 x.1 x.2 writes cache).1,
          cur.2 ++ (applyUserOverwriteTo cur.1 x.1 x.2 writes cache).2)) (cur, t)).1.cachedServerSnap =
        cur.cachedServerSnap := by
    intro xs
    induction xs with
    | nil => exact fun _ _ => rfl
    | cons x xs ih => exact fun cur t => (ih _ _).trans (cachedServerSnap_applyUserOverwriteTo x.1 x.2)
  exact hfold _ _ _

theorem cachedServerSnap_revertUserWriteOn (path : Path) :
    (revertUserWriteOn viewCache path writes).1.cachedServerSnap = viewCache.cachedServerSnap := by
  unfold revertUserWriteOn
  dsimp only
  split <;> rfl

/-- An answered write leaves what a view has of the server's data incomplete, if it was. -/
theorem ackUserWriteOn_of_part (hw : writes.Valid) {path : Path} {affected : FImmutableTree Bool}
    (hpart : viewCache.cachedServerSnap.isFullyInitialized = false)
    (hr : ackUserWriteOn viewCache path affected writes = .ok r) :
    r.1.cachedServerSnap.isFullyInitialized = false ∧
      (writes.overlay.rootMost [] ≠ none → r.1.cachedEventSnap = viewCache.cachedEventSnap) := by
  unfold ackUserWriteOn at hr
  dsimp only at hr
  split at hr
  · cases hr
    exact ⟨hpart, fun _ => rfl⟩
  · split at hr
    · split at hr
      · next hcomplete =>
        have hne : path ≠ [] := by
          rintro rfl
          simp [FCacheNode.isCompleteForPath, hpart] at hcomplete
        rw [← hpart]
        exact applyServerOverwriteTo_of_part hw hne hr
      · split at hr
        · rw [← hpart]
          exact applyServerMergeTo_of_part hw hr
        · cases hr
          exact ⟨hpart, fun _ => rfl⟩
    · rw [← hpart]
      exact applyServerMergeTo_of_part hw hr

/-- What `shows_process` has to prove, once the operation went through. -/
def Updates (viewCache : FViewCache) (r : FViewCache × Tracked) (c' : Contents) : Prop :=
  (viewCache.cachedServerSnap.isFullyInitialized = true →
    r.1.cachedServerSnap.isFullyInitialized = true) ∧
  (r.1.cachedServerSnap.isFullyInitialized = true → r.1.cachedServerSnap.node.data = c'.server) ∧
  (r.1.cachedServerSnap.isFullyInitialized = true ∨ c'.Hides [] → r.1.cachedEventSnap.Complete c'.shown)

theorem updates_of_complete (hserver : r.1.cachedServerSnap.Complete c'.server)
    (hshown : r.1.cachedEventSnap.Complete c'.shown) : Updates viewCache r c' :=
  ⟨fun _ => hserver.1, fun _ => hserver.2, fun _ => hshown⟩

/-- A view without all of the server's data keeps what it shows while that is hidden. -/
theorem updates_of_part (h : viewCache.Shows c)
    (hpart : viewCache.cachedServerSnap.isFullyInitialized = false)
    (hserver : r.1.cachedServerSnap.isFullyInitialized = false)
    (hsame : c'.Hides [] → r.1.cachedEventSnap = viewCache.cachedEventSnap)
    (hhides : c'.Hides [] → c.Hides []) (hshown : c'.Hides [] → c'.shown = c.shown) :
    Updates viewCache r c' := by
  refine ⟨fun hfull => ?_, fun hfull => ?_, fun hor => ?_⟩
  · rw [hpart] at hfull
    cases hfull
  · rw [hserver] at hfull
    cases hfull
  · have hhidden := hor.resolve_left (by simp [hserver])
    rw [hsame hhidden, hshown hhidden]
    exact h.eventSnap (Or.inr (hhides hhidden))

/-- A view with all of the server's data. -/
theorem shows_complete (h : viewCache.Shows c)
    (hfull : viewCache.cachedServerSnap.isFullyInitialized = true) :
    viewCache.cachedServerSnap.Complete c.server ∧ viewCache.cachedEventSnap.Complete c.shown :=
  ⟨⟨hfull, h.serverSnap hfull⟩, h.eventSnap (Or.inl hfull)⟩

/-- The server's cache stays, and the event cache is right where it was. -/
theorem updates_of_user (h : viewCache.Shows c) (hsame : r.1.cachedServerSnap = viewCache.cachedServerSnap)
    (hserver : c'.server = c.server)
    (hshown : viewCache.cachedServerSnap.isFullyInitialized = true ∨ c'.Hides [] →
      r.1.cachedEventSnap.Complete c'.shown) : Updates viewCache r c' := by
  refine ⟨fun hfull => hsame ▸ hfull, fun hfull => ?_, fun hor => hshown (hsame ▸ hor)⟩
  rw [hsame] at hfull ⊢
  rw [hserver]
  exact h.serverSnap hfull

theorem updates_userOverwrite (h : viewCache.Shows c) {path : Path} {snap : FNode}
    (hp : PlainPath path) (hsnap : snap.WellFormed)
    (hturns : (FOperation.overwrite true path snap).Turns c c') :
    Updates viewCache (applyUserOverwriteTo viewCache path snap writes cache) c' := by
  obtain ⟨hserver, hshown, hne, hhides⟩ := hturns
  refine updates_of_user h (cachedServerSnap_applyUserOverwriteTo path snap) hserver fun hor => ?_
  rw [hshown]
  refine (complete_applyUserOverwriteTo writes cache h.toWellFormed hp hsnap hne fun hnil => ?_).2
  exact h.eventSnap (hor.imp_right (hhides [] (by simpa using hnil)))

theorem updates_userMerge (h : viewCache.Shows c) (hw : writes.Valid) {path : Path}
    {children : FCompoundWrite} (hp : PlainPath path) (hcache : ∀ n, cache = some n → n.WellFormed)
    (hturns : (FOperation.merge true path children).Turns c c') :
    Updates viewCache (applyUserMergeTo viewCache path children writes cache) c' := by
  obtain ⟨hserver, hshown, ⟨hvalid, hne, hsome⟩, hhides⟩ := hturns
  refine updates_of_user h (cachedServerSnap_applyUserMergeTo path children) hserver fun hor => ?_
  rw [hshown]
  refine (complete_applyUserMergeTo hvalid hne hsome h.toWellFormed hw hp hcache fun hnil => ?_).2
  refine h.eventSnap (hor.imp_right (hhides [] fun x hx hprefix => ?_))
  exact hnil x hx (List.prefix_nil.mp hprefix)

theorem updates_serverOverwrite (h : viewCache.Shows c) (hw : writes.Valid)
    (hwrites : writes.overlay = c'.writes) {path : Path} {snap : FNode} (hp : PlainPath path)
    (hsnap : snap.WellFormed) (hturns : (FOperation.overwrite false path snap).Turns c c')
    (hr : applyServerOverwriteTo viewCache path snap writes = .ok r) : Updates viewCache r c' := by
  obtain ⟨hlayered, hlayered', hsame, hserver, hclear⟩ := hturns
  have hhides : c'.Hides [] ↔ c.Hides [] := by rw [Contents.Hides, Contents.Hides, hsame]
  by_cases hpart : path ≠ [] ∧ viewCache.cachedServerSnap.isFullyInitialized = false
  · obtain ⟨hserver', hevent⟩ := applyServerOverwriteTo_of_part hw hpart.1 hr
    rw [hwrites] at hevent
    exact updates_of_part h hpart.2 (hserver'.trans hpart.2) hevent hhides.mp fun hhidden =>
      hlayered.shown_eq hlayered' hsame (hhides.mp hhidden)
  · have hfull : path ≠ [] → viewCache.cachedServerSnap.isFullyInitialized = true := fun hne => by
      by_contra hnot
      exact hpart ⟨hne, by simpa using hnot⟩
    have hevent : path ≠ [] ∨ writes.overlay.rootMost [] ≠ none →
        viewCache.cachedEventSnap.Complete (writes.overlay.apply c.server) := fun hor => by
      rw [hwrites, hsame, ← hlayered]
      exact h.eventSnap (hor.imp hfull fun hhidden => by rwa [hwrites, hsame] at hhidden)
    obtain ⟨hserver', hshown⟩ := complete_applyServerOverwriteTo h.toWellFormed hw hp hsnap
      (hclear.imp_right fun hclear => ⟨hclear, hclear⟩)
      (fun hne => (shows_complete h (hfull hne)).1) hevent hr
    rw [← hserver] at hserver' hshown
    rw [hwrites, ← hlayered'] at hshown
    exact updates_of_complete hserver' hshown

theorem updates_serverMerge (h : viewCache.Shows c) (hw : writes.Valid)
    (hwrites : writes.overlay = c'.writes) {path : Path} {children : FCompoundWrite}
    (hp : PlainPath path) (hturns : (FOperation.merge false path children).Turns c c')
    (hr : applyServerMergeTo viewCache path children writes = .ok r) : Updates viewCache r c' := by
  obtain ⟨hlayered, hlayered', hsame, hserver, ⟨hvalid, hne, hsome⟩, hvalue⟩ := hturns
  have hhides : c'.Hides [] ↔ c.Hides [] := by rw [Contents.Hides, Contents.Hides, hsame]
  by_cases hfull : viewCache.cachedServerSnap.isFullyInitialized = true
  · obtain ⟨hserver₀, hshown₀⟩ := shows_complete h hfull
    rw [hlayered, ← hsame, ← hwrites] at hshown₀
    obtain ⟨hserver', hshown⟩ := complete_applyServerMergeTo hvalid hne hp (fun _ => hvalue)
      (fun _ => hsome) h.toWellFormed hw hserver₀ hshown₀ (fun _ _ => Iff.rfl) hr
    rw [← hserver] at hserver' hshown
    rw [hwrites, ← hlayered'] at hshown
    exact updates_of_complete hserver' hshown
  · have hpart : viewCache.cachedServerSnap.isFullyInitialized = false := by simpa using hfull
    obtain ⟨hserver', hevent⟩ := applyServerMergeTo_of_part hw hr
    rw [hwrites] at hevent
    exact updates_of_part h hpart (hserver'.trans hpart) hevent hhides.mp fun hhidden =>
      hlayered.shown_eq hlayered' hsame (hhides.mp hhidden)

theorem updates_ack (h : viewCache.Shows c) (hw : writes.Valid) (hwrites : writes.overlay = c'.writes)
    {path : Path} {affected : FImmutableTree Bool} (hp : PlainPath path)
    (haffected : affected.WellFormed fun _ => True) (hplain : ∀ x ∈ affected.forEach, PlainPath x.1)
    (hturns : (FOperation.ackUserWrite path affected false).Turns c c')
    (hr : ackUserWriteOn viewCache path affected writes = .ok r) : Updates viewCache r c' := by
  obtain ⟨hlayered', hserver, hhides, hsome, hne, base, hbase, hagree⟩ := hturns
  by_cases hfull : viewCache.cachedServerSnap.isFullyInitialized = true
  · obtain ⟨hserver₀, hshown₀⟩ := shows_complete h hfull
    rw [hbase, ← hwrites] at hshown₀
    obtain ⟨hserver', hshown⟩ := complete_ackUserWriteOn h.toWellFormed hw hp haffected hplain hserver₀
      hshown₀ hsome hagree hne hr
    rw [← hserver] at hserver' hshown
    rw [hwrites, ← hlayered'] at hshown
    exact updates_of_complete hserver' hshown
  · have hpart : viewCache.cachedServerSnap.isFullyInitialized = false := by simpa using hfull
    obtain ⟨hserver', hevent⟩ := ackUserWriteOn_of_part hw hpart hr
    rw [hwrites] at hevent
    refine updates_of_part h hpart hserver' hevent (hhides []) fun hhidden => ?_
    rw [hlayered', hbase]
    exact Overlay.apply_congr_of_hidden hhidden (AgreeBeside.nil _ _)

theorem updates_revert (h : viewCache.Shows c) (hw : writes.Valid) (hwrites : writes.overlay = c'.writes)
    {path : Path} {affected : FImmutableTree Bool} (hp : PlainPath path)
    (hturns : (FOperation.ackUserWrite path affected true).Turns c c') :
    Updates viewCache (revertUserWriteOn viewCache path writes) c' := by
  obtain ⟨hlayered', hserver, hhides, base, hbase, hagree, hne⟩ := hturns
  refine updates_of_user h (cachedServerSnap_revertUserWriteOn path) hserver fun hor => ?_
  by_cases hfull : viewCache.cachedServerSnap.isFullyInitialized = true
  · obtain ⟨hserver₀, hshown₀⟩ := shows_complete h hfull
    rw [hbase, ← hwrites] at hshown₀
    obtain ⟨-, hshown⟩ := complete_revertUserWriteOn h.toWellFormed hw hp hserver₀ hshown₀ hagree hne
    rwa [← hserver, hwrites, ← hlayered'] at hshown
  · -- what is hidden stays
    have hhidden := hor.resolve_left hfull
    have hshadow : (writes.shadowingWriteAtPath path).isSome = true := by
      have hpath := Overlay.rootMost_ne_none_of_nil hhidden path
      rw [Ne, ← hwrites, ← FWriteTreeRef.shadowingWriteAtPath_eq_none_iff hw] at hpath
      exact Option.isSome_iff_ne_none.mpr hpath
    have hsame : revertUserWriteOn viewCache path writes = (viewCache, []) := by
      unfold revertUserWriteOn
      rw [if_pos hshadow]
    rw [hsame, hlayered', hserver, ← Overlay.apply_congr_of_hidden hhidden (AgreeBeside.nil base _), ← hbase]
    exact h.eventSnap (Or.inr (hhides [] hhidden))

theorem updates_listenComplete (h : viewCache.Shows c) (hw : writes.Valid)
    (hwrites : writes.overlay = c'.writes) {path : Path} (hp : PlainPath path)
    (hturns : (FOperation.listenComplete path).Turns c c')
    (hheard : path = [] → viewCache.cachedServerSnap.node.data = c.server)
    (hr : listenCompleteOldCache viewCache path writes = .ok r) : Updates viewCache r c' := by
  obtain ⟨rfl, hlayered, hclear⟩ := hturns
  by_cases hpart : path ≠ [] ∧ viewCache.cachedServerSnap.isFullyInitialized = false
  · unfold listenCompleteOldCache at hr
    dsimp only at hr
    have hserver' := cachedServerSnap_generate hr
    refine updates_of_part h hpart.2 ?_ (fun hhidden => ?_) id fun _ => rfl
    · rw [hserver']
      simp [FViewCache.updateServerSnap, hpart.1, hpart.2]
    · rw [Contents.Hides, ← hwrites] at hhidden
      rw [generate_of_hidden hw hhidden] at hr
      cases hr
      rfl
  · have hfull : path ≠ [] → viewCache.cachedServerSnap.isFullyInitialized = true := fun hne => by
      by_contra hnot
      exact hpart ⟨hne, by simpa using hnot⟩
    have hserver : viewCache.cachedServerSnap.node.data = c'.server := by
      by_cases hnil : path = []
      · exact hheard hnil
      · exact h.serverSnap (hfull hnil)
    obtain ⟨hserver', hshown⟩ := complete_listenComplete h.toWellFormed hw hp hfull hserver hclear
      (fun hor => by
        rw [hwrites, ← hlayered]
        exact h.eventSnap (hor.imp hfull fun hhidden => by rwa [hwrites] at hhidden)) hr
    rw [hwrites, ← hlayered] at hshown
    exact updates_of_complete hserver' hshown

/-- **A view keeps showing what is true**, and does not lose the server's data. When a
listen is complete, the view must have been sent all there is. -/
theorem shows_process (h : viewCache.Shows c) (hw : writes.Valid) (hwrites : writes.overlay = c'.writes)
    (hop : operation.WellFormed) (hcache : ∀ n, cache = some n → n.WellFormed)
    (hturns : operation.Turns c c')
    (hheard : operation = .listenComplete [] → viewCache.cachedServerSnap.node.data = c.server)
    (hr : process viewCache writes cache operation = .ok r) :
    r.1.Shows c' ∧ (viewCache.cachedServerSnap.isFullyInitialized = true →
      r.1.cachedServerSnap.isFullyInitialized = true) := by
  have hwf : r.1.WellFormed := by
    obtain ⟨r', hr', hacc, -⟩ := accounted_process h.toWellFormed hw hop hcache
    rw [hr] at hr'
    cases hr'
    exact hacc.wellFormed
  have hupdates : Updates viewCache r c' := by
    cases operation with
    | overwrite fromUser path snap =>
        cases fromUser with
        | true =>
            cases hr
            exact updates_userOverwrite h hop.1 hop.2 hturns
        | false => exact updates_serverOverwrite h hw hwrites hop.1 hop.2 hturns hr
    | merge fromUser path children =>
        cases fromUser with
        | true =>
            cases hr
            exact updates_userMerge h hw hop.1 hcache hturns
        | false => exact updates_serverMerge h hw hwrites hop.1 hturns hr
    | ackUserWrite path affectedTree revert =>
        cases revert with
        | true =>
            cases hr
            exact updates_revert h hw hwrites hop.1 hturns
        | false => exact updates_ack h hw hwrites hop.1 hop.2.1 hop.2.2 hturns hr
    | listenComplete path =>
        exact updates_listenComplete h hw hwrites hop hturns (fun hnil => hheard (hnil ▸ rfl)) hr
  exact ⟨⟨hwf, hupdates.2.1, hupdates.2.2⟩, hupdates.1⟩

end FViewProcessor

end MyChat
