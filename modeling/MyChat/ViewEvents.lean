import MyChat.SyncTree
import MyChat.ViewTracks

/-!
# MyChat.ViewEvents

What the observers of a view hear. The changes that a view hands out are sorted by their
type and their keys, and every registration gets those of the types it has callbacks for
(`generateEventsForChanges_spec`). Sorting them does no harm: there is one change for
each child, so that in any order they lead from the children before to those after.

An observer that knows the children of the view, or its latest value, knows them still
after an operation (`Informed.of_updated`), and it is told all of them to begin with
(`exists_initialEvents`).
-/

namespace MyChat

open FUtilities NetChange

/-! ### Changes of children, and values -/

namespace FChange

/-- The change of a child, if it is one. -/
def child? : FChange → Option (String × Change FNode)
  | child childKey change => some (childKey, change)
  | value _ => none

/-- The value, if it is one. -/
def value? : FChange → Option FNode
  | child _ _ => none
  | value node => some node

/-- The changes of children among several. -/
def childChanges (changes : List FChange) : List (String × Change FNode) := changes.filterMap child?

/-- The values among them. -/
def values (changes : List FChange) : List FNode := changes.filterMap value?

@[simp] theorem childChanges_nil : childChanges [] = [] := rfl
@[simp] theorem values_nil : values [] = [] := rfl

@[simp] theorem childChanges_append (cs ds : List FChange) :
    childChanges (cs ++ ds) = childChanges cs ++ childChanges ds := List.filterMap_append

@[simp] theorem values_append (cs ds : List FChange) : values (cs ++ ds) = values cs ++ values ds :=
  List.filterMap_append

@[simp] theorem childChanges_map_child (xs : List (String × Change FNode)) :
    childChanges (xs.map fun x => child x.1 x.2) = xs := by
  rw [childChanges, List.filterMap_map]
  exact List.filterMap_some

@[simp] theorem values_map_child (xs : List (String × Change FNode)) :
    values (xs.map fun x => child x.1 x.2) = [] := by
  rw [values, List.filterMap_map, List.filterMap_eq_nil_iff]
  exact fun _ _ => rfl

@[simp] theorem childChanges_value (node : FNode) : childChanges [value node] = [] := rfl
@[simp] theorem values_value (node : FNode) : values [value node] = [node] := rfl

/-- The changes of one type. -/
def ofType (eventType : FIRDataEventType) (changes : List FChange) : List FChange :=
  changes.filter fun change => change.type = eventType

theorem ofType_cons (eventType : FIRDataEventType) (c : FChange) (changes : List FChange) :
    ofType eventType (c :: changes) =
      if c.type = eventType then c :: ofType eventType changes else ofType eventType changes := by
  simp [ofType, List.filter_cons]

/-- Taken by their types, the changes of children are all there. -/
theorem childChanges_ofType_perm (changes : List FChange) :
    (childChanges (ofType .childRemoved changes) ++ childChanges (ofType .childAdded changes) ++
      childChanges (ofType .childChanged changes)).Perm (childChanges changes) := by
  induction changes with
  | nil => exact List.Perm.refl _
  | cons c changes ih =>
      cases c with
      | value node => exact ih
      | child k change =>
          have hcons : ∀ cs, childChanges (child k change :: cs) = (k, change) :: childChanges cs :=
            fun _ => rfl
          have hperm := ih.cons (k, change)
          simp only [ofType_cons, hcons]
          cases change with
          | removed old => exact hperm
          | added new =>
              refine List.Perm.trans ?_ hperm
              rw [List.append_assoc, List.append_assoc]
              exact List.perm_middle
          | changed new old => exact List.perm_middle.trans hperm

theorem values_ofType_child {eventType : FIRDataEventType} (h : eventType ≠ .value)
    (changes : List FChange) : values (ofType eventType changes) = [] := by
  rw [values, List.filterMap_eq_nil_iff]
  intro c hc
  have htype : c.type = eventType := by simpa using (List.mem_filter.mp hc).2
  cases c with
  | child k change => rfl
  | value node => exact absurd htype.symm h

theorem values_ofType_value (changes : List FChange) :
    values (ofType .value changes) = values changes := by
  induction changes with
  | nil => rfl
  | cons c changes ih =>
      cases c with
      | child k change =>
          have hne : (child k change).type ≠ .value := by cases change <;> simp [type]
          rw [ofType, List.filter_cons_of_neg (by simpa using hne)]
          exact ih
      | value node =>
          rw [ofType, List.filter_cons_of_pos (by simp [type])]
          exact congrArg (node :: ·) ih

theorem childChanges_ofType_value (changes : List FChange) :
    childChanges (ofType .value changes) = [] := by
  rw [childChanges, List.filterMap_eq_nil_iff]
  intro c hc
  have htype : c.type = .value := by simpa using (List.mem_filter.mp hc).2
  cases c with
  | child k change => cases change <;> cases htype
  | value node => rfl

theorem length_ofType_value (changes : List FChange) :
    (ofType .value changes).length = (values changes).length := by
  rw [← values_ofType_value changes]
  generalize hcs : ofType .value changes = cs
  have hall : ∀ c ∈ cs, c.type = .value := fun c hc => by
    rw [← hcs] at hc
    simpa using (List.mem_filter.mp hc).2
  clear hcs
  induction cs with
  | nil => rfl
  | cons c cs ih =>
      obtain ⟨hc, hcs⟩ := List.forall_mem_cons.mp hall
      cases c with
      | child k change => cases change <;> cases hc
      | value node => exact congrArg (· + 1) (ih hcs)

end FChange

open FChange

/-! ### What a registration hears -/

/-- It has callbacks for all that happens to children. -/
def FEventRegistration.RespondsToChildren (registration : FEventRegistration) : Prop :=
  registration.responseTo .childRemoved = true ∧ registration.responseTo .childAdded = true ∧
    registration.responseTo .childChanged = true

/-- The changes that a registration at a path hears of. -/
def heard (path : Path) (registration : FEventRegistration) (events : List FDataEvent) :
    List FChange :=
  (events.filter fun event => event.path = path ∧ event.eventRegistration = registration).map
    FDataEvent.change

@[simp] theorem heard_nil (path : Path) (registration : FEventRegistration) :
    heard path registration [] = [] := rfl

@[simp] theorem heard_append (path : Path) (registration : FEventRegistration)
    (as bs : List FDataEvent) :
    heard path registration (as ++ bs) = heard path registration as ++ heard path registration bs := by
  simp [heard]

theorem heard_eq_nil {path : Path} {registration : FEventRegistration} {events : List FDataEvent}
    (h : ∀ event ∈ events, event.path = path → event.eventRegistration ≠ registration) :
    heard path registration events = [] := by
  rw [heard, List.map_eq_nil_iff, List.filter_eq_nil_iff]
  intro event hevent hboth
  simp only [decide_eq_true_eq] at hboth
  exact h event hevent hboth.1 hboth.2

namespace FEventGenerator

variable {path : Path} {changes : List FChange} {registrations : List FEventRegistration}
  {registration : FEventRegistration} {eventType : FIRDataEventType} {events : List FDataEvent}

/-- Every event is for one of the registrations. -/
def EventsFor (path : Path) (registrations : List FEventRegistration) (events : List FDataEvent) : Prop :=
  ∀ event ∈ events, event.path = path ∧ event.eventRegistration ∈ registrations

theorem heard_flatMap (hnodup : registrations.Nodup) (hmem : registration ∈ registrations)
    (changes : List FChange) :
    heard path registration (changes.flatMap fun change =>
      (registrations.filter fun r => r.responseTo eventType).map fun r => ⟨path, r, change⟩) =
      if registration.responseTo eventType then changes else [] := by
  have hone : (registrations.filter fun r => r.responseTo eventType).filter (· = registration) =
      if registration.responseTo eventType then [registration] else [] := by
    rw [List.filter_filter]
    induction registrations with
    | nil => cases hmem
    | cons r registrations ih =>
        obtain ⟨hnotin, hnodup⟩ := List.nodup_cons.mp hnodup
        by_cases hr : r = registration
        · subst hr
          have hrest : registrations.filter (fun a => (decide (a = r) && a.responseTo eventType)) = [] := by
            rw [List.filter_eq_nil_iff]
            intro a ha hboth
            simp only [Bool.and_eq_true, decide_eq_true_eq] at hboth
            exact hnotin (hboth.1 ▸ ha)
          rw [List.filter_cons, hrest]
          simp
        · rw [List.filter_cons_of_neg (by simp [hr])]
          exact ih hnodup ((List.mem_cons.mp hmem).resolve_left (Ne.symm hr))
  induction changes with
  | nil => simp
  | cons c changes ih =>
      have hhead : heard path registration ((registrations.filter fun r => r.responseTo eventType).map
          fun r => ⟨path, r, c⟩) = if registration.responseTo eventType then [c] else [] := by
        rw [heard, List.filter_map, List.map_map]
        have hfilter : (registrations.filter fun r => r.responseTo eventType).filter
            ((fun event : FDataEvent => decide (event.path = path ∧ event.eventRegistration = registration)) ∘
              fun r => ⟨path, r, c⟩) =
            (registrations.filter fun r => r.responseTo eventType).filter (· = registration) :=
          List.filter_congr fun r _ => by simp
        rw [hfilter, hone]
        split <;> rfl
      rw [List.flatMap_cons, heard_append, hhead, ih]
      split <;> rfl

/-- The events of one type. Only values have no key, and there is at most one. -/
theorem generateEvents_spec (path : Path) (eventType : FIRDataEventType) (changes : List FChange)
    (registrations : List FEventRegistration) (hvalues : eventType = .value → (values changes).length ≤ 1) :
    ∃ sorted events, sorted.Perm (ofType eventType changes) ∧
      generateEvents path eventType changes registrations = .ok events ∧
      EventsFor path registrations events ∧
      ∀ registration ∈ registrations, registrations.Nodup →
        heard path registration events = if registration.responseTo eventType then sorted else [] := by
  have hkeys : ¬ (1 < (ofType eventType changes).length ∧
      (ofType eventType changes).any (fun change => change.childKey.isNone)) := by
    rintro ⟨hlen, hany⟩
    obtain ⟨c, hc, hnone⟩ := List.any_eq_true.mp hany
    have htype : c.type = eventType := by simpa using (List.mem_filter.mp hc).2
    cases c with
    | child k change => cases hnone
    | value node =>
        have := hvalues htype.symm
        rw [← htype, show (value node).type = .value from rfl, length_ofType_value] at hlen
        omega
  refine ⟨(ofType eventType changes).insertionSort fun one two => (compareChanges one two).isLE, _,
    List.perm_insertionSort _ _, ?_, fun event hevent => ?_, fun registration hmem hnodup =>
    heard_flatMap hnodup hmem _⟩
  · unfold generateEvents
    exact if_neg hkeys
  · obtain ⟨c, -, hevent⟩ := List.mem_flatMap.mp hevent
    obtain ⟨r, hr, rfl⟩ := List.mem_map.mp hevent
    exact ⟨rfl, List.mem_of_mem_filter hr⟩

/-- **What a registration hears**, of changes with at most one value: those that it has
callbacks for. -/
theorem generateEventsForChanges_spec (path : Path) (registrations : List FEventRegistration)
    (hvalues : (values changes).length ≤ 1) :
    ∃ events, generateEventsForChanges path changes registrations = .ok events ∧
      EventsFor path registrations events ∧
      ∀ registration ∈ registrations, registrations.Nodup →
        (registration.RespondsToChildren →
          (childChanges (heard path registration events)).Perm (childChanges changes)) ∧
        (registration.responseTo .value = true →
          values (heard path registration events) = values changes) := by
  obtain ⟨rs, es₁, hrs, h₁, hfor₁, hheard₁⟩ :=
    generateEvents_spec path .childRemoved changes registrations nofun
  obtain ⟨as, es₂, has, h₂, hfor₂, hheard₂⟩ :=
    generateEvents_spec path .childAdded changes registrations nofun
  obtain ⟨cs, es₃, hcs, h₃, hfor₃, hheard₃⟩ :=
    generateEvents_spec path .childChanged changes registrations nofun
  obtain ⟨vs, es₄, hvs, h₄, hfor₄, hheard₄⟩ :=
    generateEvents_spec path .value changes registrations fun _ => hvalues
  refine ⟨es₁ ++ es₂ ++ es₃ ++ es₄, ?_, ?_, fun r hr hnodup => ?_⟩
  · simp only [generateEventsForChanges, h₁, h₂, h₃, h₄]
    rfl
  · intro event hevent
    simp only [List.mem_append] at hevent
    rcases hevent with ((hevent | hevent) | hevent) | hevent
    · exact hfor₁ event hevent
    · exact hfor₂ event hevent
    · exact hfor₃ event hevent
    · exact hfor₄ event hevent
  · have hnone : ∀ {eventType : FIRDataEventType} {xs : List FChange},
        xs.Perm (ofType eventType changes) → eventType ≠ .value → ∀ b : Bool,
        values (if b then xs else []) = [] := fun hperm hne b => by
      have hperm' := hperm.filterMap value?
      rw [show List.filterMap value? (ofType _ changes) = [] from values_ofType_child hne changes] at hperm'
      split
      · exact hperm'.eq_nil
      · rfl
    have hvs' := hvs.filterMap child?
    rw [show List.filterMap child? (ofType .value changes) = [] from childChanges_ofType_value changes] at hvs'
    rw [heard_append, heard_append, heard_append, hheard₁ r hr hnodup, hheard₂ r hr hnodup,
      hheard₃ r hr hnodup, hheard₄ r hr hnodup]
    constructor
    · rintro ⟨hremoved, hadded, hchanged⟩
      rw [if_pos hremoved, if_pos hadded, if_pos hchanged, childChanges_append, childChanges_append,
        childChanges_append]
      have hlast : childChanges (if r.responseTo .value = true then vs else []) = [] := by
        split
        · exact hvs'.eq_nil
        · rfl
      rw [hlast, List.append_nil]
      exact (((hrs.filterMap child?).append (has.filterMap child?)).append (hcs.filterMap child?)).trans
        (childChanges_ofType_perm changes)
    · intro hvalue
      rw [if_pos hvalue, values_append, values_append, values_append, hnone hrs (by simp),
        hnone has (by simp), hnone hcs (by simp), List.nil_append, List.nil_append, List.nil_append,
        ← values_ofType_value changes]
      -- at most one value, so its order is no matter
      have hperm := hvs.filterMap value?
      have hlen : (values (ofType .value changes)).length ≤ 1 := by rwa [values_ofType_value]
      cases hcase : values (ofType .value changes) with
      | nil =>
          rw [show List.filterMap value? (ofType .value changes) = [] from hcase] at hperm
          exact hperm.eq_nil
      | cons a as =>
          obtain rfl : as = [] := by
            rw [hcase] at hlen
            simpa using hlen
          rw [show List.filterMap value? (ofType .value changes) = [a] from hcase] at hperm
          exact hperm.eq_singleton

end FEventGenerator

/-! ### Views -/

namespace FViewProcessor

variable {viewCache newViewCache : FViewCache} {changeMap : FChildChangeAccumulator}

theorem childChanges_maybeAddValue (viewCache newViewCache : FViewCache)
    (changeMap : FChildChangeAccumulator) :
    childChanges (maybeAddValue viewCache newViewCache (changeMap.map fun x => FChange.child x.1 x.2)) =
      changeMap := by
  unfold maybeAddValue
  dsimp only
  split
  · split
    · rw [childChanges_append, childChanges_map_child, childChanges_value, List.append_nil]
    · exact childChanges_map_child changeMap
  · exact childChanges_map_child changeMap

/-- At most the value of the new event cache, once it is complete. -/
theorem values_maybeAddValue (viewCache newViewCache : FViewCache)
    (changeMap : FChildChangeAccumulator) :
    values (maybeAddValue viewCache newViewCache (changeMap.map fun x => FChange.child x.1 x.2)) = [] ∨
      (values (maybeAddValue viewCache newViewCache (changeMap.map fun x => FChange.child x.1 x.2)) =
          [newViewCache.cachedEventSnap.node] ∧
        newViewCache.cachedEventSnap.isFullyInitialized = true) := by
  unfold maybeAddValue
  dsimp only
  split
  · next hfull =>
    split
    · refine Or.inr ⟨?_, hfull⟩
      rw [values_append, values_map_child, values_value, List.nil_append]
    · exact Or.inl (values_map_child changeMap)
  · exact Or.inl (values_map_child changeMap)

end FViewProcessor

/-- The view has gone on to another state, and has told its registrations. If it was
`precise`, nothing that stayed the same was told. -/
structure FView.Updated (precise : Prop) (view view' : FView) (events : List FDataEvent) : Prop where
  path : view'.path = view.path
  eventRegistrations : view'.eventRegistrations = view.eventRegistrations
  wellFormed : view'.viewCache.WellFormed
  told : ∃ changeMap, SortedList.Sorted stringComparator changeMap ∧
    Tracks view.viewCache.eventChildren (kept changeMap) view'.viewCache.eventChildren ∧
    FEventGenerator.generateEventsForChanges view.path
      (FViewProcessor.maybeAddValue view.viewCache view'.viewCache
        (changeMap.map fun x => FChange.child x.1 x.2)) view.eventRegistrations = .ok events ∧
    (precise → ∀ x ∈ changeMap, x.2.before ≠ x.2.after)

/-- Whoever has heard these changes knows what the view shows: the children, if it has
callbacks for all that happens to children, and the value, if it has one for values and
the view is complete. -/
structure Informed (view : FView) (registration : FEventRegistration) (changes : List FChange) :
    Prop where
  children : registration.RespondsToChildren →
    Leads (fun _ => none) (childChanges changes) view.viewCache.eventChildren
  value : registration.responseTo .value = true → ∀ node,
    view.viewCache.completeEventSnap = some node → (values changes).getLast? = some node

namespace FView

open FViewProcessor

variable {view view' : FView} {registration : FEventRegistration} {changes : List FChange}
  {events : List FDataEvent} {precise : Prop} {operation : FOperation} {writes : FWriteTreeRef}
  {cache : Option FNode}

theorem completeEventSnap_eq_some {viewCache : FViewCache} {node : FNode} :
    viewCache.completeEventSnap = some node ↔
      viewCache.cachedEventSnap.isFullyInitialized = true ∧ viewCache.cachedEventSnap.node = node := by
  simp [FViewCache.completeEventSnap]

/-- A view that stays as it is tells nothing. -/
theorem updated_refl (h : view.viewCache.WellFormed) (precise : Prop) : Updated precise view view [] := by
  refine ⟨rfl, rfl, h, [], SortedList.sorted_nil, tracks_refl _, ?_, fun _ => by simp⟩
  have hnone : maybeAddValue view.viewCache view.viewCache [] = [] := by
    unfold maybeAddValue
    dsimp only
    split
    · next hfull =>
      rw [if_neg]
      simp [hfull, (FNode.isEqual_iff h.event h.event).mpr rfl]
    · rfl
  rw [List.map_nil, hnone]
  rfl

/-- An operation updates the view, if it does not lose the server's data. -/
theorem exists_updated (h : view.viewCache.WellFormed) (hw : writes.Valid) (hop : operation.WellFormed)
    (hcache : ∀ n, cache = some n → n.WellFormed)
    (hkeeps : ∀ r, process view.viewCache writes cache operation = .ok r →
      view.viewCache.cachedServerSnap.isFullyInitialized = true →
        r.1.cachedServerSnap.isFullyInitialized = true) :
    ∃ view' events tracked, view.applyOperation operation writes cache = .ok (view', events) ∧
      process view.viewCache writes cache operation = .ok (view'.viewCache, tracked) ∧
      Updated (¬ IsUserMerge operation) view view' events := by
  obtain ⟨r, changeMap, hr, hrun, hwf, hs, htracks, hdiffer⟩ := applyOperationOn_eq_ok h hw hop hcache
  have hvalues : (values (maybeAddValue view.viewCache r.1
      (changeMap.map fun x => FChange.child x.1 x.2))).length ≤ 1 := by
    rcases values_maybeAddValue view.viewCache r.1 changeMap with hnil | ⟨hone, -⟩
    · simp [hnil]
    · simp [hone]
  obtain ⟨events, hevents, -, -⟩ := FEventGenerator.generateEventsForChanges_spec view.path
    view.eventRegistrations hvalues
  refine ⟨{ view with viewCache := r.1 }, events, r.2, ?_, hr, rfl, rfl, hwf, changeMap, hs, htracks,
    hevents, hdiffer⟩
  have hassert : r.1.cachedServerSnap.isFullyInitialized = true ∨
      ¬ view.viewCache.cachedServerSnap.isFullyInitialized = true := by
    by_cases hfull : view.viewCache.cachedServerSnap.isFullyInitialized = true
    · exact Or.inl (hkeeps r hr hfull)
    · exact Or.inr hfull
  simp only [applyOperation, hrun, bind, Except.bind, if_pos hassert, hevents]
  rfl

/-- What the registrations of an updated view hear. -/
theorem Updated.heard_spec (hupdated : Updated precise view view' events) :
    FEventGenerator.EventsFor view.path view.eventRegistrations events ∧
      ∃ changeMap, SortedList.Sorted stringComparator changeMap ∧
        Tracks view.viewCache.eventChildren (kept changeMap) view'.viewCache.eventChildren ∧
        (precise → ∀ x ∈ changeMap, x.2.before ≠ x.2.after) ∧
        ∀ registration ∈ view.eventRegistrations, view.eventRegistrations.Nodup →
          (registration.RespondsToChildren →
            (childChanges (heard view.path registration events)).Perm changeMap) ∧
          (registration.responseTo .value = true → values (heard view.path registration events) =
            values (maybeAddValue view.viewCache view'.viewCache
              (changeMap.map fun x => FChange.child x.1 x.2))) := by
  obtain ⟨changeMap, hs, htracks, hrun, hdiffer⟩ := hupdated.told
  have hvalues : (values (maybeAddValue view.viewCache view'.viewCache
      (changeMap.map fun x => FChange.child x.1 x.2))).length ≤ 1 := by
    rcases values_maybeAddValue view.viewCache view'.viewCache changeMap with hnil | ⟨hone, -⟩
    · simp [hnil]
    · simp [hone]
  obtain ⟨events', hevents, hfor, hheard⟩ := FEventGenerator.generateEventsForChanges_spec view.path
    view.eventRegistrations hvalues
  rw [hrun] at hevents
  cases hevents
  rw [childChanges_maybeAddValue] at hheard
  exact ⟨hfor, changeMap, hs, htracks, hdiffer, hheard⟩

/-- **A registration that is new** to a view is told all that the view shows. -/
theorem exists_initialEvents (h : view.viewCache.WellFormed) (registration : FEventRegistration) :
    ∃ events, view.initialEvents registration = .ok events ∧
      FEventGenerator.EventsFor view.path [registration] events ∧
      Informed view registration (heard view.path registration events) := by
  have hchildren : childChanges view.initialChanges =
      view.viewCache.cachedEventSnap.node.enumerateChildren.map fun x => (x.1, Change.added x.2) := by
    have hmap := childChanges_map_child
      (view.viewCache.cachedEventSnap.node.enumerateChildren.map fun x => (x.1, Change.added x.2))
    rw [List.map_map] at hmap
    unfold initialChanges
    dsimp only
    split
    · rw [childChanges_append, childChanges_value, List.append_nil]
      exact hmap
    · exact hmap
  have hvalues : values view.initialChanges = view.viewCache.completeEventSnap.toList := by
    have hmap := values_map_child
      (view.viewCache.cachedEventSnap.node.enumerateChildren.map fun x => (x.1, Change.added x.2))
    rw [List.map_map] at hmap
    unfold initialChanges FViewCache.completeEventSnap
    dsimp only
    split
    · rw [values_append, values_value]
      exact congrArg (· ++ [view.viewCache.cachedEventSnap.node]) hmap
    · exact hmap
  have hlen : (values view.initialChanges).length ≤ 1 := by
    rw [hvalues]
    cases view.viewCache.completeEventSnap <;> simp
  obtain ⟨events, hrun, hfor, hheard⟩ :=
    FEventGenerator.generateEventsForChanges_spec view.path [registration] hlen
  obtain ⟨hchildrenHeard, hvaluesHeard⟩ :=
    hheard registration (List.mem_singleton.mpr rfl) (List.nodup_singleton registration)
  refine ⟨events, hrun, hfor, fun hresponds => ?_, fun hresponds node hnode => ?_⟩
  · have hperm := hchildrenHeard hresponds
    rw [hchildren] at hperm
    have hkeys := FIndexedFilter.nodup_keys_enumerateChildren h.event
    refine leads_of_nodup ((hperm.map Prod.fst).nodup_iff.mpr ?_) (fun x hx => ?_) fun k hk => ?_
    · rw [List.map_map]
      exact hkeys
    · obtain ⟨y, hy, rfl⟩ := List.mem_map.mp (hperm.mem_iff.mp hx)
      exact ⟨rfl, (FNode.childMap_eq_some_iff h.event).mpr hy⟩
    · show none = view.viewCache.cachedEventSnap.node.childMap k
      refine (Option.eq_none_iff_forall_ne_some.mpr fun n hn => hk ?_).symm
      rw [FNode.childMap_eq_some_iff h.event] at hn
      exact List.mem_map.mpr ⟨_, hperm.mem_iff.mpr (List.mem_map_of_mem hn), rfl⟩
  · rw [hvaluesHeard hresponds, hvalues, hnode]
    rfl

end FView

open FView FViewProcessor

variable {view view' : FView} {registration : FEventRegistration} {changes : List FChange}
  {events : List FDataEvent} {precise : Prop}

theorem Informed.of_viewCache (h : Informed view registration changes)
    (hsame : view.viewCache = view'.viewCache) : Informed view' registration changes :=
  ⟨hsame ▸ h.children, hsame ▸ h.value⟩

/-- **Whoever knows what a view shows, knows it after an update.** -/
theorem Informed.of_updated (h : Informed view registration changes)
    (hview : view.viewCache.WellFormed) (hupdated : Updated precise view view' events)
    (hmem : registration ∈ view.eventRegistrations) (hnodup : view.eventRegistrations.Nodup) :
    Informed view' registration (changes ++ heard view.path registration events) := by
  obtain ⟨-, changeMap, hs, htracks, -, hheard⟩ := hupdated.heard_spec
  obtain ⟨hchildren, hvalues⟩ := hheard registration hmem hnodup
  constructor
  · intro hresponds
    have hperm := hchildren hresponds
    rw [childChanges_append, leads_append]
    refine ⟨_, h.children hresponds, htracks.leads_of_mem ?_ fun x => ?_⟩
    · exact (hperm.map Prod.fst).nodup_iff.mpr (List.pairwise_map.mpr hs.ne)
    · rw [hperm.mem_iff, mem_of_kept hs]
  · intro hresponds node hnode
    rw [values_append, hvalues hresponds]
    obtain ⟨hfull, rfl⟩ := completeEventSnap_eq_some.mp hnode
    by_cases hchanged : ValueChanged view.viewCache view'.viewCache
    · rw [value_mem_maybeAddValue hview hupdated.wellFormed htracks hchanged, values_append,
        values_map_child, values_value, List.nil_append, List.getLast?_append_cons]
      rfl
    · -- the value is the one it was
      have hsame : view.viewCache.completeEventSnap = some view'.viewCache.cachedEventSnap.node := by
        rw [ValueChanged, not_and, not_or] at hchanged
        obtain ⟨hbefore, heq⟩ := hchanged hfull
        exact completeEventSnap_eq_some.mpr ⟨by simpa using hbefore, by simpa using heq⟩
      have hlast := h.value hresponds _ hsame
      rcases values_maybeAddValue view.viewCache view'.viewCache changeMap with hnil | ⟨hone, -⟩
      · rw [hnil, List.append_nil]
        exact hlast
      · rw [hone, List.getLast?_append_cons]
        rfl

/-- **A precise update tells a value** exactly if the view is complete, and was not or
shows another one. -/
theorem FView.Updated.value_mem_iff (h : Updated precise view view' events) (hprecise : precise)
    (hview : view.viewCache.WellFormed) (hmem : registration ∈ view.eventRegistrations)
    (hnodup : view.eventRegistrations.Nodup) (hresponds : registration.responseTo .value = true)
    {node : FNode} :
    node ∈ values (heard view.path registration events) ↔
      node = view'.viewCache.cachedEventSnap.node ∧ ValueChanged view.viewCache view'.viewCache := by
  obtain ⟨-, changeMap, hs, htracks, hdiffer, hheard⟩ := h.heard_spec
  rw [(hheard registration hmem hnodup).2 hresponds,
    ← value_mem_maybeAddValue_iff hview h.wellFormed hs htracks (hdiffer hprecise)]
  unfold values
  rw [List.mem_filterMap]
  constructor
  · rintro ⟨c, hc, hvalue⟩
    cases c with
    | child k change => cases hvalue
    | value n =>
        cases hvalue
        exact hc
  · exact fun hc => ⟨_, hc, rfl⟩

end MyChat
