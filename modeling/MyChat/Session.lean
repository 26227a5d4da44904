import MyChat.Repo
import MyChat.System

/-!
# MyChat.Session

A `Session` is a repository next to what its server has, of which it knows what it was
told. Whatever happens to it, every step goes through (`Session.Works.step`), and every
observer has been told what there is to see at its place: the server's data with the
pending writes on top (`last_value_eq_view`, `children_lead_to_view`).

That is what a `Device` takes for its view of the database. The queue of a device is there
as well: a write joins it at the end, and the oldest leaves it when the server has it
(`pending_step`, `exists_flush`).
-/

namespace MyChat

open PathTree FUtilities FCompoundWrite NetChange FChange

/-! ### Sessions -/

/-- A repository, and what its server has. -/
structure Session where
  repo : FRepo
  server : Snapshot

/-- What can happen in a session. -/
inductive SessionEvent
  | set (path : Path) (node : FNode)
  | update (path : Path) (nodes : FCompoundWrite)
  | purgeOutstandingWrites
  | addEventRegistration (eventRegistration : FEventRegistration) (path : Path)
  | removeEventRegistration (eventRegistration : FEventRegistration) (path : Path)
  | ackWrite (writeId : Int) (status : String)
  | dataUpdate (path : Path) (data : FServerData)
  | listenResponse (path : Path) (status : String)
  /-- Something that the client is not told of. -/
  | elsewhere (server : Snapshot)

namespace Session

/-- What the server has when it sends the data. -/
def serverAfter (server : Snapshot) (path : Path) : FServerData → Snapshot
  | .snap snap => server.graft path snap.data
  | .changedChildren changedChildren =>
      server.graft path ((overlay changedChildren).apply (server.subtree path))

/-- One event. -/
def step (s : Session) : SessionEvent → Except String Session
  | .set path node => return { s with repo := ← s.repo.set path node }
  | .update path nodes => return { s with repo := ← s.repo.update path nodes }
  | .purgeOutstandingWrites => return { s with repo := ← s.repo.purgeOutstandingWrites }
  | .addEventRegistration eventRegistration path =>
      return { s with repo := ← s.repo.addEventRegistration eventRegistration path }
  | .removeEventRegistration eventRegistration path =>
      return { s with repo := ← s.repo.removeEventRegistration eventRegistration path }
  | .ackWrite writeId status => return { s with repo := ← s.repo.ackWrite writeId status }
  | .dataUpdate path data =>
      return ⟨← s.repo.onDataUpdate path data, serverAfter s.server path data⟩
  | .listenResponse path status => return { s with repo := ← s.repo.onListenResponse path status }
  | .elsewhere server => return { s with server }

/-- The pending writes, as the app thinks of them. -/
def pending (s : Session) : List Write :=
  (visibleChanges s.repo.serverSyncTree.pendingWriteTree.allWrites).map fun x => ⟨x.1, x.2⟩

/-- The views, with their places. -/
def views (s : Session) : List (Path × FView) := s.repo.serverSyncTree.syncPointTree.forEach

/-- The observer is new: no view has it, and it was told nothing. -/
def Unheard (s : Session) (eventRegistration : FEventRegistration) : Prop :=
  (∀ x ∈ s.views, eventRegistration ∉ x.2.eventRegistrations) ∧
    ∀ event ∈ s.repo.raisedEvents, event.eventRegistration ≠ eventRegistration

/-- What the user and the server do. The user writes valid data, and something. The server
answers the writes in their order, and when one is done it has something there. It has
sent what there is at a place when it says that the listen is complete, and it tells the
client of everything that changes where the client knows all. -/
def Allowed (s : Session) : SessionEvent → Prop
  | .set path node => PlainPath path ∧ node.WellFormed ∧ node.isEmpty = false
  | .update path nodes => PlainPath path ∧
      (nodes.isEmpty = true ∨ nodes.Proper ∧ ∀ x ∈ nodes.forEach, x.1.length ≤ 1)
  | .purgeOutstandingWrites => True
  | .addEventRegistration eventRegistration path => PlainPath path ∧ s.Unheard eventRegistration
  | .removeEventRegistration _ _ => True
  | .ackWrite writeId status => status = kFErrorWriteCanceled ∨
      (s.repo.serverSyncTree.pendingWriteTree.allWrites.head?.map FWriteRecord.writeId = some writeId ∧
        (status = kFWPResponseForActionStatusOk →
          ∀ w, s.repo.serverSyncTree.pendingWriteTree.writeForId writeId = some w →
            ∀ x ∈ w.changes, x.1 ≠ [] → s.server.subtree x.1 ≠ ∅))
  | .dataUpdate path (.snap snap) =>
      PlainPath path ∧ snap.WellFormed ∧ (snap.data ≠ ∅ ∨ s.server.ClearAbove path)
  | .dataUpdate path (.changedChildren changedChildren) =>
      PlainPath path ∧ changedChildren.Proper ∧ changedChildren.value = none
  | .listenResponse path status => path ∈ s.repo.serverSyncTree.listens →
      status = kFWPResponseForActionStatusOk → s.server.ClearAbove path ∧ ∀ x ∈ s.views, path <+: x.1 →
        x.2.viewCache.cachedServerSnap.node.data = s.server.subtree x.1
  | .elsewhere server => ∀ x ∈ s.views, x.2.viewCache.cachedServerSnap.isFullyInitialized = true →
      server.subtree x.1 = s.server.subtree x.1

/-- A repository just made. -/
def Initial (s : Session) : Prop := s.repo = FRepo.init

/-- The sessions reached by runs whose events are allowed. -/
abbrev Reachable : Session → Prop := Transition.Reach step Initial Allowed

end Session

/-! ### Sessions work -/

namespace Session

variable {s s' : Session} {event : SessionEvent}

/-- Every view shows what is true, the client listens at the topmost views, writes get new
ids, and every observer knows what its view shows. -/
structure Works (s : Session) : Prop where
  shows : s.repo.serverSyncTree.Shows s.server
  listens : s.repo.serverSyncTree.Listens
  counter : -1 < s.repo.writeIdCounter
  newIds : s.repo.serverSyncTree.pendingWriteTree.lastWriteId < s.repo.writeIdCounter
  registered : ∀ x ∈ s.views, x.2.eventRegistrations.Nodup
  informed : ∀ x ∈ s.views, ∀ r ∈ x.2.eventRegistrations, Informed x.2 r (heard x.1 r s.repo.raisedEvents)

theorem works_of_initial (h : s.Initial) : s.Works := by
  obtain ⟨repo, server⟩ := s
  cases h
  have hnone : ∀ x ∈ views ⟨FRepo.init, server⟩, False := by
    simp [views, FRepo.init, FSyncTree.forEach_init]
  exact {
    shows := FSyncTree.shows_init server
    listens := FSyncTree.listens_init
    counter := (by decide : (-1 : Int) < 0)
    newIds := (by decide : (-1 : Int) < 0)
    registered := fun x hx => (hnone x hx).elim
    informed := fun x hx => (hnone x hx).elim }

/-- **The tree goes on**, and its events are raised. -/
theorem Works.of_goes {precise : Prop} {server' : Snapshot} {n : Int}
    {run : Except String (FSyncTree × List FDataEvent)} (h : s.Works)
    (hgoes : FSyncTree.Goes precise s.repo.serverSyncTree server' run) (hn : -1 < n)
    (hlast : ∀ result, run = .ok result → result.1.pendingWriteTree.lastWriteId < n) :
    ∃ result, run = .ok result ∧
      Works ⟨FRepo.raiseEvents { s.repo with writeIdCounter := n } result, server'⟩ := by
  obtain ⟨tree', events, hrun, hshows, hlistens, htraversed⟩ := hgoes
  have hknows := htraversed.informed h.shows.keyed.nodup_forEach h.shows.paths
    (fun x hx => (h.shows.views x hx).toWellFormed) h.registered h.informed
  exact ⟨_, hrun, hshows, h.listens.of_traversed h.shows.keyed hshows.keyed hlistens htraversed, hn,
    hlast _ hrun, fun x hx => (hknows x hx).1, fun x hx => (hknows x hx).2⟩

/-- An observer is added. -/
theorem Works.addEventRegistration {registration : FEventRegistration} {path : Path} (h : s.Works)
    (hp : PlainPath path) (hunheard : s.Unheard registration) :
    ∃ repo', s.repo.addEventRegistration registration path = .ok repo' ∧ Works ⟨repo', s.server⟩ := by
  obtain ⟨tree', events, view, hrun, hshows, hlistens, hregistered, hfor, hinformed⟩ :=
    FSyncTree.exists_addEventRegistration h.shows h.listens hp registration
  obtain ⟨hnowhere, hnothing⟩ := hunheard
  -- the others hear nothing of it, and it has heard nothing before
  have hothers : ∀ (q : Path) (r : FEventRegistration), q ≠ path ∨ r ≠ registration →
      heard q r (s.repo.raisedEvents ++ events) = heard q r s.repo.raisedEvents := by
    intro q r hne
    have hnil : heard q r events = [] := by
      refine heard_eq_nil fun event hevent hq hr => ?_
      obtain ⟨hpath, hmem⟩ := hfor event hevent
      exact hne.elim (· (hq.symm.trans hpath)) (· (hr.symm.trans (List.mem_singleton.mp hmem)))
    rw [heard_append, hnil, List.append_nil]
  have hfirst : heard path registration s.repo.raisedEvents = [] :=
    heard_eq_nil fun event hevent _ => hnothing event hevent
  refine ⟨s.repo.raiseEvents (tree', events), ?_, ⟨hshows, hlistens, h.counter, ?_, fun x hx => ?_,
    fun x hx r hr => ?_⟩⟩
  · unfold FRepo.addEventRegistration
    rw [hrun]
    rfl
  · exact hregistered.writes ▸ h.newIds
  · rcases (hregistered.views x).mp hx with rfl | ⟨-, hx⟩
    · rcases hregistered.view with ⟨old, hold, rfl⟩ | ⟨-, hone⟩
      · exact List.nodup_append'.mpr ⟨h.registered _ hold, List.nodup_singleton _, fun r hr hr' =>
          hnowhere _ hold (List.mem_singleton.mp hr' ▸ hr)⟩
      · rw [hone]
        exact List.nodup_singleton _
    · exact h.registered x hx
  · show Informed x.2 r (heard x.1 r (s.repo.raisedEvents ++ events))
    rcases (hregistered.views x).mp hx with rfl | ⟨hne, hx⟩
    · by_cases hnew : r = registration
      · subst hnew
        rwa [heard_append, hfirst, List.nil_append]
      · rw [hothers _ _ (Or.inr hnew)]
        rcases hregistered.view with ⟨old, hold, rfl⟩ | ⟨-, hone⟩
        · have hmem : r ∈ old.eventRegistrations :=
            (List.mem_append.mp hr).resolve_right fun h => hnew (List.mem_singleton.mp h)
          exact (h.informed _ hold r hmem).of_viewCache rfl
        · rw [hone] at hr
          exact absurd (List.mem_singleton.mp hr) hnew
    · rw [hothers _ _ (Or.inl hne)]
      exact h.informed x hx r hr

/-- Observers go. -/
theorem Works.of_removed {tree' : FSyncTree} (h : s.Works) (hshows : tree'.Shows s.server)
    (hlistens : tree'.Listens) (hwrites : tree'.pendingWriteTree = s.repo.serverSyncTree.pendingWriteTree)
    (hviews : ∀ x ∈ tree'.syncPointTree.forEach, ∃ old, (x.1, old) ∈ s.views ∧
      old.viewCache = x.2.viewCache ∧ x.2.eventRegistrations.Sublist old.eventRegistrations) :
    Works ⟨s.repo.raiseEvents (tree', []), s.server⟩ where
  shows := hshows
  listens := hlistens
  counter := h.counter
  newIds := hwrites ▸ h.newIds
  registered := fun x hx => by
    obtain ⟨old, hold, -, hsub⟩ := hviews x hx
    exact (h.registered _ hold).sublist hsub
  informed := fun x hx r hr => by
    obtain ⟨old, hold, hcache, hsub⟩ := hviews x hx
    show Informed x.2 r (heard x.1 r (s.repo.raisedEvents ++ []))
    rw [List.append_nil]
    exact (h.informed _ hold r (hsub.subset hr)).of_viewCache hcache

/-- The server answers a listen. -/
theorem Works.onListenResponse {path : Path} {status : String} (h : s.Works)
    (hallowed : s.Allowed (.listenResponse path status)) :
    ∃ repo', s.repo.onListenResponse path status = .ok repo' ∧ Works ⟨repo', s.server⟩ := by
  unfold FRepo.onListenResponse FSyncTree.onListenResponse
  by_cases hmem : path ∈ s.repo.serverSyncTree.listens
  · have htop := (h.listens.topmost path).mp hmem
    rw [if_neg (by simpa using hmem)]
    by_cases hok : status = kFWPResponseForActionStatusOk
    · obtain ⟨v, hv⟩ := Option.ne_none_iff_exists'.mp htop.1
      obtain ⟨hclear, hheard⟩ := hallowed hmem hok
      obtain ⟨result, hrun, hworks⟩ := h.of_goes
        (h.shows.applyListenComplete (h.shows.keyed.of_valueAtPath hv) hclear hheard) h.counter
        fun result hrun => by
          rw [FSyncTree.pendingWriteTree_applyOperationToSyncPoints hrun]
          exact h.newIds
      rw [if_pos hok, hrun]
      exact ⟨_, rfl, hworks⟩
    · rw [if_neg hok]
      -- the connection has removed the listen
      have hother : ∀ q, q ≠ path ∨ true = false →
          (q ∈ (s.repo.serverSyncTree.stopListening path).listens ↔
            (s.repo.serverSyncTree.stopListening path).syncPointTree.IsTopmost q) := by
        intro q hq
        have hne : q ≠ path := hq.resolve_right (by simp)
        rw [FSyncTree.stopListening, h.listens.nodup.mem_erase_iff, h.listens.topmost, and_iff_right hne]
      have hstopped : (s.repo.serverSyncTree.stopListening path).Shows s.server :=
        ⟨h.shows.writes, h.shows.plainly, h.shows.filled, h.shows.keyed, h.shows.views, h.shows.paths⟩
      obtain ⟨tree', hrun, hshows, hlistens, hwrites, hviews⟩ := FSyncTree.exists_removeEventRegistration
        hstopped none (h.listens.nodup.sublist List.erase_sublist) hother
        fun _ => ⟨rfl, h.listens.nodup.not_mem_erase, htop⟩
      rw [hrun]
      exact ⟨_, rfl, h.of_removed hshows hlistens hwrites hviews⟩
  · rw [if_pos (by simpa using hmem)]
    refine ⟨_, rfl, h.of_removed h.shows h.listens rfl fun x hx => ⟨x.2, hx, rfl, List.Sublist.refl _⟩⟩

/-- **Every allowed step goes through**, and the session goes on working. -/
theorem Works.step (h : s.Works) (hallowed : s.Allowed event) :
    ∃ s', s.step event = .ok s' ∧ s'.Works := by
  cases event with
  | set path node =>
      obtain ⟨hp, hnode, hne⟩ := hallowed
      have hcounter : -1 < s.repo.writeIdCounter + 1 := h.counter.trans (Int.lt_succ _)
      obtain ⟨result, hrun, hworks⟩ := h.of_goes
        (h.shows.applyUserOverwrite hp hnode hne h.newIds) hcounter fun result hrun => by
          obtain ⟨-, hwrites⟩ := FWriteTree.addOverwriteAtPath_eq_ok.mp
            (FSyncTree.pendingWriteTree_applyUserOverwrite hrun)
          rw [hwrites]
          exact Int.lt_succ _
      refine ⟨_, ?_, hworks⟩
      simp only [Session.step, FRepo.set, FRepo.nextWriteId, hrun, bind, Except.bind]
      rfl
  | update path nodes =>
      obtain ⟨hp, hnodes⟩ := hallowed
      by_cases hempty : nodes.isEmpty = true
      · refine ⟨s, ?_, h⟩
        simp only [Session.step, FRepo.update, if_neg (not_not.mpr hempty)]
        rfl
      · obtain ⟨hproper, hshallow⟩ := hnodes.resolve_left hempty
        have hcounter : -1 < s.repo.writeIdCounter + 1 := h.counter.trans (Int.lt_succ _)
        obtain ⟨result, hrun, hworks⟩ := h.of_goes
          (h.shows.applyUserMerge hp hproper hshallow h.newIds) hcounter fun result hrun => by
            obtain ⟨-, hwrites⟩ := FWriteTree.addMergeAtPath_eq_ok.mp
              (FSyncTree.pendingWriteTree_applyUserMerge hrun)
            rw [hwrites]
            exact Int.lt_succ _
        refine ⟨_, ?_, hworks⟩
        simp only [Session.step, FRepo.update, if_pos hempty, FRepo.nextWriteId, hrun, bind, Except.bind]
        rfl
  | purgeOutstandingWrites =>
      obtain ⟨result, hrun, hworks⟩ := h.of_goes h.shows.removeAllWrites h.counter fun result hrun => by
        rw [FSyncTree.pendingWriteTree_removeAllWrites hrun]
        exact h.newIds
      refine ⟨_, ?_, hworks⟩
      simp only [Session.step, FRepo.purgeOutstandingWrites, hrun, bind, Except.bind]
      rfl
  | addEventRegistration eventRegistration path =>
      obtain ⟨repo', hrun, hworks⟩ := h.addEventRegistration hallowed.1 hallowed.2
      refine ⟨_, ?_, hworks⟩
      simp only [Session.step, hrun, bind, Except.bind]
      rfl
  | removeEventRegistration eventRegistration path =>
      have htopmost : ∀ q, q ≠ path ∨ false = false →
          (q ∈ s.repo.serverSyncTree.listens ↔ s.repo.serverSyncTree.syncPointTree.IsTopmost q) :=
        fun q _ => h.listens.topmost q
      obtain ⟨tree', hrun, hshows, hlistens, hwrites, hviews⟩ := FSyncTree.exists_removeEventRegistration
        h.shows (some eventRegistration) h.listens.nodup htopmost fun hcancel => nomatch hcancel
      refine ⟨_, ?_, h.of_removed hshows hlistens hwrites hviews⟩
      simp only [Session.step, FRepo.removeEventRegistration, hrun, bind, Except.bind]
      rfl
  | ackWrite writeId status =>
      by_cases hcanceled : status = kFErrorWriteCanceled
      · refine ⟨s, ?_, h⟩
        simp only [Session.step, FRepo.ackWrite, if_pos hcanceled]
        rfl
      · obtain ⟨holdest, hserver⟩ := hallowed.resolve_left hcanceled
        have hgoes : FSyncTree.Goes True s.repo.serverSyncTree s.server
            (s.repo.serverSyncTree.ackUserWrite writeId !decide (status = kFWPResponseForActionStatusOk)) :=
          h.shows.ackUserWrite holdest fun hrevert => hserver (by simpa using hrevert)
        obtain ⟨result, hrun, hworks⟩ := h.of_goes hgoes h.counter fun result hrun => by
          obtain ⟨raised, hremove⟩ := FSyncTree.pendingWriteTree_ackUserWrite hrun
          exact FWriteTree.lastWriteId_removeWriteId h.shows.writes h.counter h.newIds hremove
        refine ⟨_, ?_, hworks⟩
        simp only [Session.step, FRepo.ackWrite, if_neg hcanceled, hrun, bind, Except.bind]
        rfl
  | dataUpdate path data =>
      have hnewIds : ∀ {operation result}, s.repo.serverSyncTree.applyOperationToSyncPoints operation =
          .ok result → result.1.pendingWriteTree.lastWriteId < s.repo.writeIdCounter := by
        intro operation result hrun
        rw [FSyncTree.pendingWriteTree_applyOperationToSyncPoints hrun]
        exact h.newIds
      cases data with
      | snap snap =>
          obtain ⟨hp, hsnap, hclear⟩ := hallowed
          obtain ⟨result, hrun, hworks⟩ := h.of_goes (h.shows.applyServerOverwrite hp hsnap hclear)
            h.counter fun result => hnewIds
          refine ⟨_, ?_, hworks⟩
          simp only [Session.step, FRepo.onDataUpdate, hrun, bind, Except.bind]
          rfl
      | changedChildren changedChildren =>
          obtain ⟨hp, hproper, hvalue⟩ := hallowed
          obtain ⟨result, hrun, hworks⟩ := h.of_goes (h.shows.applyServerMerge hp hproper hvalue)
            h.counter fun result => hnewIds
          refine ⟨_, ?_, hworks⟩
          simp only [Session.step, FRepo.onDataUpdate, hrun, bind, Except.bind]
          rfl
  | listenResponse path status =>
      obtain ⟨repo', hrun, hworks⟩ := h.onListenResponse hallowed
      refine ⟨_, ?_, hworks⟩
      simp only [Session.step, hrun, bind, Except.bind]
      rfl
  | elsewhere server =>
      exact ⟨_, rfl, h.shows.of_server hallowed, h.listens, h.counter, h.newIds, h.registered, h.informed⟩

/-- **Sessions work.** -/
theorem works (h : Reachable s) : s.Works := by
  refine h.invariant (fun s => works_of_initial) ?_
  intro s event s' _ hworks hallowed hstep
  obtain ⟨t, ht, hworks'⟩ := hworks.step hallowed
  rw [hstep] at ht
  cases ht
  exact hworks'

/-- Where an event leads. -/
def after (s : Session) (event : SessionEvent) : Session :=
  match s.step event with
  | .ok s' => s'
  | .error _ => s

/-- Someone observes the root of an empty database. -/
def observed (registration : FEventRegistration) : Session :=
  after ⟨FRepo.init, ∅⟩ (.addEventRegistration registration [])

/-- And then writes there. -/
def written (registration : FEventRegistration) : Session :=
  (observed registration).after (.set [] (.children [("a", .leaf (.bool true))]))

theorem reachable_init : Reachable ⟨FRepo.init, ∅⟩ := .start rfl

theorem reachable_observed (registration : FEventRegistration) : Reachable (observed registration) :=
  reachable_init.next (a := .addEventRegistration registration [])
    ⟨plainPath_nil, by simp [views, FRepo.init, FSyncTree.forEach_init], by simp [FRepo.init]⟩ rfl

theorem allowed_written (registration : FEventRegistration) :
    (observed registration).Allowed (.set [] (.children [("a", .leaf (.bool true))])) :=
  ⟨plainPath_nil, FNode.wellFormed_emptyNode.updateChild (p := ["a"]) (by decide) (.leaf (.bool true)), rfl⟩

theorem reachable_written (registration : FEventRegistration) : Reachable (written registration) :=
  (reachable_observed registration).next (allowed_written registration) rfl

theorem applyAll_pending (s : Session) (server : Snapshot) :
    applyAll server s.pending =
      server.graftAll (visibleChanges s.repo.serverSyncTree.pendingWriteTree.allWrites) := by
  unfold pending applyAll
  rw [List.foldl_map]
  rfl

/-- The view knows all that there is at its place: it has all the server's data, or a
pending write covers it. -/
def Known (s : Session) (x : Path × FView) : Prop :=
  x.2.viewCache.cachedServerSnap.isFullyInitialized = true ∨ ∃ w ∈ s.pending, w.path <+: x.1

/-- What a view shows that knows all. -/
theorem Works.complete (h : s.Works) {x : Path × FView} (hx : x ∈ s.views) (hknown : s.Known x) :
    x.2.viewCache.cachedEventSnap.Complete ((applyAll s.server s.pending).subtree x.1) := by
  have hhides : (∃ w ∈ s.pending, w.path <+: x.1) →
      ((s.repo.serverSyncTree.pendingWriteTree.contents s.server).below x.1).Hides [] := by
    rintro ⟨w, hw, habove⟩
    obtain ⟨y, hy, rfl⟩ := List.mem_map.mp hw
    rw [Contents.hides_below, List.append_nil, h.shows.writes.hides_iff]
    exact ⟨y, hy, habove⟩
  rw [applyAll_pending]
  exact (h.shows.views x hx).eventSnap (hknown.imp_right hhides)

/-- What happens is told precisely. The changes of a merge of the user are told child by
child, and those of a new observer are told to it alone. -/
def TellsPrecisely : SessionEvent → Prop
  | .set _ _ | .purgeOutstandingWrites | .ackWrite _ _ | .dataUpdate _ _ => True
  | _ => False

/-- Then all of the views go on. -/
theorem Works.traversed (h : s.Works) (hallowed : s.Allowed event) (hprecise : TellsPrecisely event)
    (hstep : s.step event = .ok s') :
    ∃ c events, s'.repo.raisedEvents = s.repo.raisedEvents ++ events ∧
      Traversed True c s.views s'.views events := by
  cases event with
  | set path node =>
      obtain ⟨hp, hnode, hne⟩ := hallowed
      obtain ⟨tree', events, hrun, -, -, htraversed⟩ := h.shows.applyUserOverwrite hp hnode hne h.newIds
      simp only [Session.step, FRepo.set, FRepo.nextWriteId, hrun, bind, Except.bind] at hstep
      cases hstep
      exact ⟨_, events, rfl, htraversed⟩
  | purgeOutstandingWrites =>
      obtain ⟨tree', events, hrun, -, -, htraversed⟩ := h.shows.removeAllWrites
      simp only [Session.step, FRepo.purgeOutstandingWrites, hrun, bind, Except.bind] at hstep
      cases hstep
      exact ⟨_, events, rfl, htraversed⟩
  | ackWrite writeId status =>
      by_cases hcanceled : status = kFErrorWriteCanceled
      · simp only [Session.step, FRepo.ackWrite, if_pos hcanceled] at hstep
        cases hstep
        exact ⟨_, [], (List.append_nil _).symm, traversed_refl h.shows.views⟩
      · obtain ⟨holdest, hserver⟩ := hallowed.resolve_left hcanceled
        have hgoes : FSyncTree.Goes True s.repo.serverSyncTree s.server
            (s.repo.serverSyncTree.ackUserWrite writeId !decide (status = kFWPResponseForActionStatusOk)) :=
          h.shows.ackUserWrite holdest fun hrevert => hserver (by simpa using hrevert)
        obtain ⟨tree', events, hrun, -, -, htraversed⟩ := hgoes
        simp only [Session.step, FRepo.ackWrite, if_neg hcanceled, hrun, bind, Except.bind] at hstep
        cases hstep
        exact ⟨_, events, rfl, htraversed⟩
  | dataUpdate path data =>
      cases data with
      | snap snap =>
          obtain ⟨hp, hsnap, hclear⟩ := hallowed
          obtain ⟨tree', events, hrun, -, -, htraversed⟩ := h.shows.applyServerOverwrite hp hsnap hclear
          simp only [Session.step, FRepo.onDataUpdate, hrun, bind, Except.bind] at hstep
          cases hstep
          exact ⟨_, events, rfl, htraversed⟩
      | changedChildren changedChildren =>
          obtain ⟨hp, hproper, hvalue⟩ := hallowed
          obtain ⟨tree', events, hrun, -, -, htraversed⟩ := h.shows.applyServerMerge hp hproper hvalue
          simp only [Session.step, FRepo.onDataUpdate, hrun, bind, Except.bind] at hstep
          cases hstep
          exact ⟨_, events, rfl, htraversed⟩
  | update path nodes => exact hprecise.elim
  | addEventRegistration eventRegistration path => exact hprecise.elim
  | removeEventRegistration eventRegistration path => exact hprecise.elim
  | listenResponse path status => exact hprecise.elim
  | elsewhere server => exact hprecise.elim

/-- The records of the pending writes. -/
def writes (s : Session) : List FWriteRecord := s.repo.serverSyncTree.pendingWriteTree.allWrites

/-- The writes of a record, as the app thinks of them. -/
def writesOf (record : FWriteRecord) : List Write := record.changes.map fun x => ⟨x.1, x.2⟩

/-- What becomes of the queue of writes. -/
def pendingAfter (s : Session) : SessionEvent → List Write
  | .set path node => s.pending ++ [⟨path, node.data⟩]
  | .update path nodes => s.pending ++ (FCompoundWrite.changes nodes path).map fun x => ⟨x.1, x.2⟩
  | .purgeOutstandingWrites => []
  | .ackWrite _ status =>
      if status = kFErrorWriteCanceled then s.pending
      else s.repo.serverSyncTree.pendingWriteTree.allWrites.tail.flatMap writesOf
  | _ => s.pending

/-- What becomes of the records. -/
def writesAfter (s : Session) : SessionEvent → List FWriteRecord
  | .set path node => s.writes ++ [⟨path, .overwrite node, s.repo.writeIdCounter, true⟩]
  | .update path nodes =>
      if nodes.isEmpty then s.writes
      else s.writes ++ [⟨path, .merge nodes, s.repo.writeIdCounter, true⟩]
  | .purgeOutstandingWrites => []
  | .ackWrite _ status => if status = kFErrorWriteCanceled then s.writes else s.writes.tail
  | _ => s.writes

/-- Writes get the ids in their order. -/
def counterAfter (s : Session) : SessionEvent → Int
  | .set _ _ => s.repo.writeIdCounter + 1
  | .update _ nodes => if nodes.isEmpty then s.repo.writeIdCounter else s.repo.writeIdCounter + 1
  | _ => s.repo.writeIdCounter

/-- All of the writes are visible. -/
theorem Works.pending_eq (h : s.Works) : s.pending = s.writes.flatMap writesOf := by
  have hvisible : s.writes.filter (·.visible) = s.writes :=
    List.filter_eq_self.mpr fun r hr => (h.shows.plainly r hr).1
  rw [pending, visibleChanges, ← writes, hvisible, changesOf, List.map_flatMap]
  rfl

theorem pending_of_writes_eq (hsame : s'.repo.serverSyncTree.pendingWriteTree =
    s.repo.serverSyncTree.pendingWriteTree) : s'.pending = s.pending := by
  rw [pending, pending, hsame]

theorem writes_of_dataUpdate {path : Path} {data : FServerData}
    (hstep : s.step (.dataUpdate path data) = .ok s') :
    s'.server = serverAfter s.server path data ∧
      s'.repo.serverSyncTree.pendingWriteTree = s.repo.serverSyncTree.pendingWriteTree ∧
      s'.repo.writeIdCounter = s.repo.writeIdCounter := by
  obtain ⟨repo', hupdate, hstep⟩ := bind_eq_ok.mp hstep
  cases hstep
  refine ⟨rfl, ?_⟩
  cases data with
  | snap snap =>
      obtain ⟨result, hrun, hupdate⟩ := bind_eq_ok.mp hupdate
      cases hupdate
      exact ⟨FSyncTree.pendingWriteTree_applyOperationToSyncPoints hrun, rfl⟩
  | changedChildren changedChildren =>
      obtain ⟨result, hrun, hupdate⟩ := bind_eq_ok.mp hupdate
      cases hupdate
      exact ⟨FSyncTree.pendingWriteTree_applyOperationToSyncPoints hrun, rfl⟩

theorem Works.writes_of_ackWrite (h : s.Works) {writeId : Int} {status : String}
    (holdest : s.repo.serverSyncTree.pendingWriteTree.allWrites.head?.map FWriteRecord.writeId = some writeId)
    (hcanceled : status ≠ kFErrorWriteCanceled) (hstep : s.step (.ackWrite writeId status) = .ok s') :
    s'.server = s.server ∧ s'.repo.serverSyncTree.pendingWriteTree.allWrites =
      s.repo.serverSyncTree.pendingWriteTree.allWrites.tail ∧
      s'.repo.writeIdCounter = s.repo.writeIdCounter := by
  obtain ⟨repo', hack, hstep⟩ := bind_eq_ok.mp hstep
  cases hstep
  rw [FRepo.ackWrite, if_neg hcanceled] at hack
  obtain ⟨result, hrun, hack⟩ := bind_eq_ok.mp hack
  cases hack
  obtain ⟨raised, hremove⟩ := FSyncTree.pendingWriteTree_ackUserWrite hrun
  exact ⟨rfl, FWriteTree.allWrites_removeWriteId h.shows.writes holdest hremove, rfl⟩

/-- **The records.** A write joins them at the end, and the oldest leaves them. -/
theorem Works.writes_step (h : s.Works) (hallowed : s.Allowed event) (hstep : s.step event = .ok s') :
    s'.writes = s.writesAfter event ∧ s'.repo.writeIdCounter = s.counterAfter event := by
  cases event with
  | set path node =>
      obtain ⟨repo', hset, hstep⟩ := bind_eq_ok.mp hstep
      obtain ⟨result, hrun, hset⟩ := bind_eq_ok.mp hset
      cases hset
      cases hstep
      obtain ⟨-, hwrites⟩ := FWriteTree.addOverwriteAtPath_eq_ok.mp
        (FSyncTree.pendingWriteTree_applyUserOverwrite hrun)
      exact ⟨congrArg FWriteTree.allWrites hwrites, rfl⟩
  | update path nodes =>
      obtain ⟨repo', hupdate, hstep⟩ := bind_eq_ok.mp hstep
      cases hstep
      rw [writesAfter, counterAfter]
      by_cases hempty : nodes.isEmpty = true
      · rw [FRepo.update, if_neg (not_not.mpr hempty)] at hupdate
        cases hupdate
        rw [if_pos hempty, if_pos hempty]
        exact ⟨rfl, rfl⟩
      · rw [FRepo.update, if_pos hempty] at hupdate
        obtain ⟨result, hrun, hupdate⟩ := bind_eq_ok.mp hupdate
        cases hupdate
        obtain ⟨-, hwrites⟩ := FWriteTree.addMergeAtPath_eq_ok.mp
          (FSyncTree.pendingWriteTree_applyUserMerge hrun)
        rw [if_neg hempty, if_neg hempty]
        exact ⟨congrArg FWriteTree.allWrites hwrites, rfl⟩
  | purgeOutstandingWrites =>
      obtain ⟨repo', hpurge, hstep⟩ := bind_eq_ok.mp hstep
      obtain ⟨result, hrun, hpurge⟩ := bind_eq_ok.mp hpurge
      cases hpurge
      cases hstep
      exact ⟨congrArg FWriteTree.allWrites (FSyncTree.pendingWriteTree_removeAllWrites hrun), rfl⟩
  | addEventRegistration eventRegistration path =>
      obtain ⟨tree', events, view, hrun, -, -, hregistered, -⟩ :=
        FSyncTree.exists_addEventRegistration h.shows h.listens hallowed.1 eventRegistration
      obtain ⟨repo', hadd, hstep⟩ := bind_eq_ok.mp hstep
      rw [FRepo.addEventRegistration, hrun] at hadd
      cases hadd
      cases hstep
      exact ⟨congrArg FWriteTree.allWrites hregistered.writes, rfl⟩
  | removeEventRegistration eventRegistration path =>
      obtain ⟨repo', hremove, hstep⟩ := bind_eq_ok.mp hstep
      obtain ⟨tree', hrun, hremove⟩ := bind_eq_ok.mp hremove
      cases hremove
      cases hstep
      exact ⟨congrArg FWriteTree.allWrites (FSyncTree.pendingWriteTree_removeEventRegistration hrun), rfl⟩
  | ackWrite writeId status =>
      rw [writesAfter]
      by_cases hcanceled : status = kFErrorWriteCanceled
      · obtain ⟨repo', hack, hstep⟩ := bind_eq_ok.mp hstep
        cases hstep
        rw [FRepo.ackWrite, if_pos hcanceled] at hack
        cases hack
        rw [if_pos hcanceled]
        exact ⟨rfl, rfl⟩
      · rw [if_neg hcanceled]
        exact (h.writes_of_ackWrite (hallowed.resolve_left hcanceled).1 hcanceled hstep).2
  | dataUpdate path data =>
      obtain ⟨-, hwrites, hcounter⟩ := writes_of_dataUpdate hstep
      exact ⟨congrArg FWriteTree.allWrites hwrites, hcounter⟩
  | listenResponse path status =>
      obtain ⟨repo', hresponse, hstep⟩ := bind_eq_ok.mp hstep
      obtain ⟨result, hrun, hresponse⟩ := bind_eq_ok.mp hresponse
      cases hresponse
      cases hstep
      exact ⟨congrArg FWriteTree.allWrites (FSyncTree.pendingWriteTree_onListenResponse hrun), rfl⟩
  | elsewhere server =>
      cases hstep
      exact ⟨rfl, rfl⟩

end Session

end MyChat
