import MyChat.System
import MyChat.Flushed
import MyChat.Issued
import MyChat.Lib.Watch

/-!
# MyChat.Client

The life of one process in any environment. Between two actions of the process the
data on the server may become anything, and some of its queued writes may have been
applied: whatever the other devices, the backend or a person at the console do is such
a change. What holds for a `Client` therefore holds for every device of a `System`
(`System.Reachable.client`), until the process ends.

An observer is registered at a location and stays: `removeAllObservers` is only ever
called on the root, where none is. So an observer keeps its index for the life of the
process, and `watch` follows what it is told.
-/

namespace MyChat

/-! ### Observers stay -/

theorem child_ne_rootRef {path ref : Path} {pathString : String} (hpath : path ≠ [])
    (h : child path pathString = .ok ref) : ref ≠ rootRef := by
  rintro rfl
  exact hpath (List.prefix_nil.mp (prefix_of_child h))

/-- The closure without the captured variables that it assigns to. -/
def Callback.fixed : Callback → Callback
  | .login user userDictionary => .login { user with friendList := none } userDictionary
  | .chatList owner _ => .chatList owner []
  | .message screen _ => .message screen []
  | callback => callback

namespace Device

variable {dev dev' : Device} {server : Snapshot} {action : Action}

/-- No observer is registered at the root. -/
def BelowRoot (dev : Device) : Prop := ∀ o ∈ dev.observers, o.ref ≠ rootRef

theorem observersDelivered_of_ne {i j : Nat} {callback : Callback} {snapshot : Snapshot}
    (h : j ≠ i) : (dev.observersDelivered j callback snapshot)[i]? = dev.observers[i]? := by
  simp [observersDelivered, h]

theorem observersDelivered_self {i : Nat} {o : Observer} {callback : Callback}
    {snapshot : Snapshot} (h : dev.observers[i]? = some o) :
    (dev.observersDelivered i callback snapshot)[i]? = some ⟨o.ref, callback, some snapshot⟩ := by
  rw [observersDelivered, List.getElem?_modify_eq, h]
  rfl

/-- `removeAllObservers` on the root removes nothing. -/
theorem BelowRoot.filter_delivered (h : dev.BelowRoot) {i : Nat} {callback : Callback}
    {snapshot : Snapshot} :
    (dev.observersDelivered i callback snapshot).filter (·.ref ≠ rootRef) =
      dev.observersDelivered i callback snapshot := by
  refine List.filter_eq_self.mpr fun o ho => ?_
  rcases mem_modify ho with ho | ⟨o', ho', rfl⟩
  · exact decide_eq_true (h o ho)
  · exact decide_eq_true (h o' (List.mem_of_getElem? ho'))

/-- What an action can register: nothing at the root, and a message observer only as the
second one, for the screen that is presented. -/
structure Registers (dev dev' : Device) (os : List Observer) : Prop where
  belowRoot : ∀ o ∈ os, o.ref ≠ rootRef
  message : ∀ (k : Nat) o screen, os[k]? = some o → o.callback.fixed = .message screen [] →
    k = 1 ∧ screen = dev.screens.length ∧ screen < dev'.screens.length

theorem Registers.nil : dev.Registers dev' [] := ⟨by simp, by simp⟩

theorem Registers.single {o : Observer} (href : o.ref ≠ rootRef)
    (hmessage : ∀ screen, o.callback.fixed ≠ .message screen []) : dev.Registers dev' [o] := by
  refine ⟨by simpa using href, fun k o' screen ho hcallback => ?_⟩
  obtain rfl := List.mem_singleton.mp (List.mem_of_getElem? ho)
  exact absurd hcallback (hmessage screen)

/-- **What happens to the observers.** Some are added at the end, and one may have been
told what is at its location. -/
theorem Outcome.observers_eq (h : dev.BelowRoot) (hout : dev.Outcome server action dev')
    (hlive : ∀ randomId, action ≠ .relaunch randomId) :
    ∃ os, dev.Registers dev' os ∧
      (dev'.observers = dev.observers ++ os ∧ (∀ i timestamp, action ≠ .fire i timestamp) ∨
        ∃ i timestamp ref callback callback' snapshot, action = .fire i timestamp ∧
          dev.Fires server i ref callback snapshot ∧ callback'.fixed = callback.fixed ∧
          dev'.observers = dev.observersDelivered i callback' snapshot ++ os) := by
  have husers : (["users"] : Path) ≠ [] := by simp
  have hsame : ∀ {os}, os = dev.observers → os = dev.observers ++ [] := by simp
  -- what is left to say of a firing observer: its closure is the same but for what it captured
  have hfire : ∀ {i timestamp ref callback snapshot} callback', action = .fire i timestamp →
      dev.Fires server i ref callback snapshot →
      dev'.observers = dev.observersDelivered i callback' snapshot →
      callback'.fixed = callback.fixed →
      ∃ os, dev.Registers dev' os ∧
        (dev'.observers = dev.observers ++ os ∧ (∀ i timestamp, action ≠ .fire i timestamp) ∨
          ∃ i timestamp ref callback callback' snapshot, action = .fire i timestamp ∧
            dev.Fires server i ref callback snapshot ∧ callback'.fixed = callback.fixed ∧
            dev'.observers = dev.observersDelivered i callback' snapshot ++ os) := by
    intro i timestamp ref callback snapshot callback' haction hfires hobs hfixed
    exact ⟨[], .nil, Or.inr ⟨i, timestamp, ref, callback, callback', snapshot, haction, hfires,
      hfixed, by rw [hobs, List.append_nil]⟩⟩
  cases hout with
  | relaunch => exact absurd rfl (hlive _)
  | logIn | logOut | fetchFacebookData | replyError | sendTapped =>
      exact ⟨[], .nil, Or.inl ⟨hsame rfl, by simp⟩⟩
  | reply _ _ _ _ _ href =>
      exact ⟨_, .single (child_ne_rootRef husers href) (by simp [Callback.fixed]),
        Or.inl ⟨rfl, by simp⟩⟩
  | homeWillAppear _ _ href =>
      exact ⟨_, .single (child_ne_rootRef (by simp) href) (by simp [Callback.fixed]),
        Or.inl ⟨rfl, by simp⟩⟩
  | addFriend _ href =>
      exact ⟨_, .single (child_ne_rootRef husers href) (by simp [Callback.fixed]),
        Or.inl ⟨rfl, by simp⟩⟩
  | rowTapped _ _ _ _ _ hfriendRef href =>
      refine ⟨_, ⟨?_, fun k o screen ho hcallback => ?_⟩, Or.inl ⟨rfl, by simp⟩⟩
      · simpa using ⟨child_ne_rootRef husers hfriendRef, child_ne_rootRef (by simp) href⟩
      · -- the friend's observer comes first, then the one of the messages
        match k with
        | 0 =>
            cases ho
            cases hcallback
        | 1 =>
            cases ho
            cases hcallback
            simp
        | k + 2 => simp at ho
  | loginKnown hfires _ hknown =>
      subst hknown
      exact hfire _ rfl hfires h.filter_delivered rfl
  | loginNew hfires | chatList hfires | createExists hfires | create hfires =>
      exact hfire _ rfl hfires h.filter_delivered rfl
  | lookupMissing hfires | friend hfires | message hfires => exact hfire _ rfl hfires rfl rfl
  | lookupFound hfires _ _ _ href =>
      obtain ⟨chatbox, hchatbox, hcreate⟩ := bind_eq_ok.mp href
      have hne : chatbox ≠ [] := child_ne_rootRef (by simp) hchatbox
      exact ⟨_, .single (child_ne_rootRef hne hcreate) (by simp [Callback.fixed]),
        Or.inr ⟨_, _, _, _, _, _, rfl, hfires, rfl, rfl⟩⟩

theorem Outcome.belowRoot (h : dev.BelowRoot) (hout : dev.Outcome server action dev')
    (hlive : ∀ randomId, action ≠ .relaunch randomId) : dev'.BelowRoot := by
  obtain ⟨os, hos, ⟨hobs, -⟩ | ⟨i, _, ref, _, callback', snapshot, -, hfires, -, hobs⟩⟩ :=
    hout.observers_eq h hlive
  all_goals
    intro o ho
    rw [hobs] at ho
    rcases List.mem_append.mp ho with ho | ho
  · exact h o ho
  · exact hos.belowRoot o ho
  · rcases hfires.mem_observersDelivered ho with ho | rfl
    · exact h o ho
    · obtain ⟨last, hmem⟩ := hfires.mem
      have hroot := h _ hmem
      exact hroot
  · exact hos.belowRoot o ho

/-- **Frame.** An observer is as it was unless it fired. -/
theorem Outcome.observer_of_ne (h : dev.BelowRoot) (hout : dev.Outcome server action dev')
    (hlive : ∀ randomId, action ≠ .relaunch randomId) {i : Nat} {o : Observer}
    (ho : dev.observers[i]? = some o) (hne : ∀ timestamp, action ≠ .fire i timestamp) :
    dev'.observers[i]? = some o := by
  have hlt := (List.getElem?_eq_some_iff.mp ho).1
  obtain ⟨os, -, ⟨hobs, -⟩ | ⟨j, timestamp, _, _, callback', snapshot, rfl, -, -, hobs⟩⟩ :=
    hout.observers_eq h hlive
  · rw [hobs, List.getElem?_append_left hlt, ho]
  · have hj : j ≠ i := fun hj => hne timestamp (by rw [hj])
    rw [hobs, List.getElem?_append_left (by simpa [observersDelivered] using hlt),
      observersDelivered_of_ne hj, ho]

/-- An observer that fires is told what is at its location, which is news. -/
theorem Outcome.observer_of_fire (h : dev.BelowRoot) {i : Nat} {timestamp : Int64}
    (hout : dev.Outcome server (.fire i timestamp) dev') {o : Observer}
    (ho : dev.observers[i]? = some o) :
    o.last ≠ some ((dev.view server).subtree o.ref) ∧ ∃ callback', callback'.fixed = o.callback.fixed ∧
      dev'.observers[i]? = some ⟨o.ref, callback', some ((dev.view server).subtree o.ref)⟩ := by
  have hlt := (List.getElem?_eq_some_iff.mp ho).1
  obtain ⟨os, -, ⟨-, hno⟩ | ⟨j, timestamp', ref, callback, callback', snapshot, heq, hfires, hfixed,
      hobs⟩⟩ := hout.observers_eq h (by simp)
  · exact absurd rfl (hno i timestamp)
  · obtain ⟨rfl, -⟩ := Action.fire.inj heq
    obtain ⟨last, ho', hsnapshot, hnews⟩ := hfires
    obtain rfl := Option.some.inj (ho'.symm.trans ho)
    refine ⟨by rw [← hsnapshot]; exact hnews, callback', hfixed, ?_⟩
    rw [hobs, List.getElem?_append_left (by simpa [observersDelivered] using hlt),
      observersDelivered_self ho, ← hsnapshot]

end Device

/-! ### One process in its environment -/

/-- One process, and the data on the server as they are now. -/
structure Client where
  server : Snapshot
  dev : Device

/-- What can happen to a process in its life. -/
inductive Happening
  | act (action : Action)
  /-- The data on the server are now `server`, with the `flushed` oldest queued writes
  of this process applied. -/
  | sync (server : Snapshot) (flushed : Nat)

namespace Client

/-- The process was just started. -/
def Initial (c : Client) : Prop := ∃ accessToken randomId, c.dev = Device.launch accessToken randomId

/-- One happening. Starting anew is the end of this process. -/
def step (c : Client) : Happening → Except Fault Client
  | .act (.relaunch _) => .error .disabled
  | .act action => do
      let dev ← c.dev.act c.server action
      return { c with dev }
  | .sync server flushed =>
      .ok ⟨server, { c.dev with pending := c.dev.pending.drop flushed }⟩

/-- The states a process can come to. -/
abbrev Reachable : Client → Prop := Transition.Reach step Initial fun _ _ => True

/-- What happens to a process from `c₀` on. -/
abbrev RunFrom (c₀ : Client) : List (Client × Happening × Client) → Client → Prop :=
  Transition.Trace step (fun c => c = c₀) fun _ _ => True

theorem RunFrom.single {c c' : Client} {e : Happening} (h : c.step e = .ok c') :
    RunFrom c [(c, e, c')] c' := by
  have hstart : RunFrom c [] c := .start rfl
  exact hstart.next trivial h

/-- The data at a location, as the process sees them. -/
def value (c : Client) (ref : Path) : Snapshot := (c.dev.view c.server).subtree ref

theorem step_act_inv {c c' : Client} {action : Action} (h : c.step (.act action) = .ok c') :
    (∀ randomId, action ≠ .relaunch randomId) ∧ c'.server = c.server ∧
      c.dev.Outcome c.server action c'.dev := by
  have hlive : ∀ randomId, action ≠ .relaunch randomId := by
    rintro randomId rfl
    cases h
  rw [step] at h
  · obtain ⟨dev, hact, hc⟩ := bind_eq_ok.mp h
    cases hc
    exact ⟨hlive, rfl, Device.act_inv hact⟩
  · exact hlive

theorem step_act {c : Client} {action : Action} {dev : Device}
    (hlive : ∀ randomId, action ≠ .relaunch randomId) (h : c.dev.act c.server action = .ok dev) :
    c.step (.act action) = .ok { c with dev } := by
  rw [step]
  · rw [h]
    rfl
  · exact hlive

/-- **Invariants of a process** in any environment. A property that a process just started
has, that does not depend on the queue, and that every action keeps. -/
theorem device_invariant {P : Device → Prop}
    (hlaunch : ∀ accessToken randomId, P (Device.launch accessToken randomId))
    (hpending : ∀ dev ws, P dev → P { dev with pending := ws })
    (hact : ∀ {dev dev' server action}, P dev → dev.Outcome server action dev' →
      (∀ randomId, action ≠ .relaunch randomId) → P dev')
    {c : Client} (h : Reachable c) : P c.dev := by
  refine h.invariant (I := fun c => P c.dev) ?_ ?_
  · intro c hc
    obtain ⟨accessToken, randomId, hdev⟩ := hc
    rw [hdev]
    exact hlaunch accessToken randomId
  · intro c e c' _ hP _ hstep
    cases e with
    | act action =>
        obtain ⟨hlive, -, hout⟩ := step_act_inv hstep
        exact hact hP hout hlive
    | sync server flushed =>
        cases hstep
        exact hpending _ _ hP

/-! ### What an observer is told -/

theorem belowRoot_step {c c' : Client} {e : Happening} (hroot : c.dev.BelowRoot)
    (hstep : c.step e = .ok c') : c'.dev.BelowRoot := by
  cases e with
  | act action =>
      obtain ⟨hlive, -, hout⟩ := step_act_inv hstep
      exact hout.belowRoot hroot hlive
  | sync server flushed =>
      cases hstep
      exact hroot

theorem belowRoot {c : Client} (h : Reachable c) : c.dev.BelowRoot :=
  device_invariant (fun _ _ => by simp [Device.BelowRoot, Device.launch]) (fun _ _ h => h)
    (fun h hout hlive => hout.belowRoot h hlive) h

/-- The data at `ref`, where observer `i` is registered. -/
def watch (i : Nat) (ref : Path) : Transition.Watch Client Happening Snapshot where
  value c := c.value ref
  last c := c.dev.observers[i]?.bind (·.last)
  tells
    | .act (.fire j _) => j = i
    | _ => false

theorem tells_iff {i : Nat} {ref : Path} {e : Happening} :
    (watch i ref).tells e = true ↔ ∃ timestamp, e = .act (.fire i timestamp) := by
  constructor
  · intro h
    unfold watch at h
    dsimp only at h
    split at h
    · next j timestamp =>
      obtain rfl := of_decide_eq_true h
      exact ⟨timestamp, rfl⟩
    · cases h
  · intro hcase
    obtain ⟨timestamp, rfl⟩ := hcase
    simp [watch]

/-- Observer `i` is registered at `ref` with this closure. -/
def Observes (c : Client) (i : Nat) (ref : Path) (callback : Callback) : Prop :=
  ∃ o, c.dev.observers[i]? = some o ∧ o.ref = ref ∧ o.callback.fixed = callback.fixed

/-- A closure that assigns to no captured variable stays what it is. -/
theorem Observes.create {c : Client} {i : Nat} {ref : Path} {friend user : User}
    (h : c.Observes i ref (.create friend user)) :
    ∃ last, c.dev.observers[i]? = some ⟨ref, .create friend user, last⟩ := by
  obtain ⟨⟨oref, callback, last⟩, ho, rfl, hfixed⟩ := h
  obtain rfl : callback = .create friend user := by
    cases callback <;> simp_all [Callback.fixed]
  exact ⟨last, ho⟩

theorem Observes.lookup {c : Client} {i : Nat} {ref : Path} {id : String}
    (h : c.Observes i ref (.lookup id)) :
    ∃ last, c.dev.observers[i]? = some ⟨ref, .lookup id, last⟩ := by
  obtain ⟨⟨oref, callback, last⟩, ho, rfl, hfixed⟩ := h
  obtain rfl : callback = .lookup id := by
    cases callback <;> simp_all [Callback.fixed]
  exact ⟨last, ho⟩

/-- An observer stays, and is told the data at its location. -/
theorem observes_step {c c' : Client} {e : Happening} {i : Nat} {ref : Path} {callback : Callback}
    (hroot : c.dev.BelowRoot) (h : c.Observes i ref callback) (hstep : c.step e = .ok c') :
    c'.Observes i ref callback ∧ (watch i ref).Lawful (c, e, c') := by
  obtain ⟨o, ho, rfl, hfixed⟩ := h
  cases e with
  | sync server flushed =>
      cases hstep
      exact ⟨⟨o, ho, rfl, hfixed⟩, by simp [watch], by simp [watch], fun _ => rfl⟩
  | act action =>
      obtain ⟨hlive, hserver, hout⟩ := step_act_inv hstep
      cases htells : (watch i o.ref).tells (.act action) with
      | true =>
          obtain ⟨timestamp, heq⟩ := tells_iff.mp htells
          cases heq
          obtain ⟨hnews, callback', hfixed', ho'⟩ := hout.observer_of_fire hroot ho
          refine ⟨⟨_, ho', rfl, hfixed'.trans hfixed⟩, fun _ => ?_, fun _ => ?_, fun hno => ?_⟩
          · simpa [watch, ho, value] using hnews
          · simp [watch, ho', value]
          · exact absurd htells (by simp [hno])
      | false =>
          have ho' : c'.dev.observers[i]? = some o := by
            refine hout.observer_of_ne hroot hlive ho fun timestamp heq => ?_
            subst heq
            simp [watch] at htells
          refine ⟨⟨o, ho', rfl, hfixed⟩, fun hyes => ?_, fun hyes => ?_, fun _ => ?_⟩
          · exact absurd htells (by simp [hyes])
          · exact absurd htells (by simp [hyes])
          · simp [watch, ho, ho']

theorem RunFrom.belowRoot {c₀ c : Client} {tr : List (Client × Happening × Client)}
    (hroot : c₀.dev.BelowRoot) (h : RunFrom c₀ tr c) : c.dev.BelowRoot := by
  induction h with
  | start h =>
      subst h
      exact hroot
  | next _ _ hstep ih => exact belowRoot_step ih hstep

/-- **What an observer is told** along the life of its process. -/
theorem RunFrom.observes {c₀ c : Client} {tr : List (Client × Happening × Client)} {i : Nat}
    {ref : Path} {callback : Callback} (hroot : c₀.dev.BelowRoot)
    (h₀ : c₀.Observes i ref callback) (h : RunFrom c₀ tr c) :
    c.Observes i ref callback ∧ ∀ x ∈ tr, (watch i ref).Lawful x := by
  induction h with
  | start h =>
      subst h
      exact ⟨h₀, by simp⟩
  | @next tr c c' e h _ hstep ih =>
      obtain ⟨hobs, hlaw⟩ := ih
      obtain ⟨hobs', hlaw'⟩ := observes_step (RunFrom.belowRoot hroot h) hobs hstep
      exact ⟨hobs', List.forall_mem_append.mpr ⟨hlaw, List.forall_mem_singleton.mpr hlaw'⟩⟩

/-- Every step of a run is taken while the observer is registered. -/
theorem RunFrom.observes_of_mem {c₀ c : Client} {tr : List (Client × Happening × Client)} {i : Nat}
    {ref : Path} {callback : Callback} (hroot : c₀.dev.BelowRoot)
    (h₀ : c₀.Observes i ref callback) (h : RunFrom c₀ tr c) :
    ∀ x ∈ tr, x.1.Observes i ref callback ∧ x.1.step x.2.1 = .ok x.2.2 := by
  intro x hx
  obtain ⟨⟨tr', -, hx'⟩, -, hstep⟩ := h.mem hx
  exact ⟨(RunFrom.observes hroot h₀ hx').1, hstep⟩

theorem RunFrom.reachable {c₀ c : Client} {tr : List (Client × Happening × Client)}
    (h₀ : Reachable c₀) (h : RunFrom c₀ tr c) : Reachable c := by
  induction h with
  | start h =>
      subst h
      exact h₀
  | next _ _ hstep ih => exact .next ih trivial hstep

/-- The process once `observe` was called. -/
def observing (c : Client) (ref : Path) (callback : Callback) : Client :=
  { c with dev := c.dev.observe ref callback }

theorem belowRoot_observing {c : Client} {ref : Path} {callback : Callback}
    (hroot : c.dev.BelowRoot) (href : ref ≠ rootRef) : (c.observing ref callback).dev.BelowRoot :=
  List.forall_mem_append.mpr ⟨hroot, List.forall_mem_singleton.mpr href⟩

theorem observers_observing (c : Client) (ref : Path) (callback : Callback) :
    (c.observing ref callback).dev.observers[c.dev.observers.length]? = some ⟨ref, callback, none⟩ :=
  List.getElem?_concat_length

theorem observes_observing (c : Client) (ref : Path) (callback : Callback) :
    (c.observing ref callback).Observes c.dev.observers.length ref callback :=
  ⟨_, c.observers_observing ref callback, rfl, rfl⟩

/-- **What the observer of a call is told**, if Firebase misses nothing: the data at the
time of the call, then every change. -/
theorem told_of_observing {c₀ c : Client} {tr : List (Client × Happening × Client)} {ref : Path}
    {callback : Callback} (hroot : c₀.dev.BelowRoot) (href : ref ≠ rootRef)
    (hrun : RunFrom (c₀.observing ref callback) tr c)
    (hprompt : ∀ x ∈ tr, (watch c₀.dev.observers.length ref).Prompt x)
    (hsettled : (watch c₀.dev.observers.length ref).last c = some (c.value ref)) :
    (watch c₀.dev.observers.length ref).told tr =
      c₀.value ref :: (watch c₀.dev.observers.length ref).changes tr := by
  obtain ⟨-, hlaw⟩ := RunFrom.observes (belowRoot_observing hroot href)
    (c₀.observes_observing ref callback) hrun
  have hstart : (watch c₀.dev.observers.length ref).last (c₀.observing ref callback) = none := by
    show ((c₀.observing ref callback).dev.observers[c₀.dev.observers.length]?).bind _ = none
    rw [observers_observing]
    rfl
  have htold := Transition.Watch.told_eq hrun hlaw hprompt hstart hsettled
  exact htold

/-- The snapshots that observer `i` delivers in a run. -/
def snapshots (i : Nat) (tr : List (Client × Happening × Client)) : List Snapshot :=
  tr.filterMap fun x =>
    match x.2.1 with
    | .act (.fire j _) => if j = i then x.1.dev.observers[i]?.map fun o => x.1.value o.ref else none
    | _ => none

@[simp] theorem snapshots_nil (i : Nat) : snapshots i [] = [] := rfl

theorem snapshots_of_fire {tr : List (Client × Happening × Client)} {c c' : Client} {i : Nat}
    {timestamp : Int64} {o : Observer} (ho : c.dev.observers[i]? = some o) :
    snapshots i (tr ++ [(c, .act (.fire i timestamp), c')]) = snapshots i tr ++ [c.value o.ref] := by
  rw [snapshots, snapshots, List.filterMap_append]
  simp [ho]

theorem snapshots_of_ne {tr : List (Client × Happening × Client)} {c c' : Client} {e : Happening}
    {i : Nat} (hne : ∀ timestamp, e ≠ .act (.fire i timestamp)) :
    snapshots i (tr ++ [(c, e, c')]) = snapshots i tr := by
  rw [snapshots, snapshots, List.filterMap_append, List.append_right_eq_self]
  refine List.filterMap_eq_nil_iff.mpr fun x hx => ?_
  obtain rfl := List.mem_singleton.mp hx
  dsimp only
  split
  · next j timestamp =>
    exact if_neg fun hj => hne timestamp (by rw [hj])
  · rfl

/-- An observer delivers what it is told. -/
theorem RunFrom.snapshots_eq {c₀ c : Client} {tr : List (Client × Happening × Client)} {i : Nat}
    {ref : Path} {callback : Callback} (hroot : c₀.dev.BelowRoot)
    (h₀ : c₀.Observes i ref callback) (h : RunFrom c₀ tr c) :
    snapshots i tr = (watch i ref).told tr := by
  refine List.filterMap_congr fun x hx => ?_
  obtain ⟨⟨o, ho, rfl, -⟩, -⟩ := RunFrom.observes_of_mem hroot h₀ h x hx
  split
  · next j timestamp heq => simp [heq, watch, ho, eq_comm]
  · next hother =>
    have hquiet : (watch i o.ref).tells x.2.1 = false := by
      refine Bool.eq_false_iff.mpr fun htells => ?_
      obtain ⟨timestamp, heq⟩ := tells_iff.mp htells
      exact hother i timestamp heq
    simp [hquiet]

/-- What a firing observer runs: its closure, on the data at its location. -/
theorem step_fire_inv {c c' : Client} {i : Nat} {timestamp : Int64} {o : Observer}
    (h : c.step (.act (.fire i timestamp)) = .ok c') (ho : c.dev.observers[i]? = some o) :
    c'.server = c.server ∧ c.dev.fire i (c.value o.ref) timestamp o.callback = .ok c'.dev := by
  rw [step] at h
  · obtain ⟨dev, hact, hc⟩ := bind_eq_ok.mp h
    cases hc
    simp only [Device.act, bind_eq_ok, enabled_eq_ok] at hact
    obtain ⟨o', ho', hact⟩ := hact
    cases ho.symm.trans ho'
    split at hact
    · cases hact
    · exact ⟨rfl, hact⟩
  · simp

end Client

/-! ### Devices of a system -/

namespace System

variable {ι : Type} [DecidableEq ι]

/-- The process of `δ` with the data on the server. -/
def client (s : System ι) (δ : ι) : Client := ⟨s.server.tree, s.devices δ⟩

/-- A step of the system, as the process of `δ` sees it. -/
def seenBy (δ : ι) (x : System ι × Event ι × System ι) : Client × Happening × Client :=
  (x.1.client δ,
    match x.2.1 with
    | .act δ' action => if δ' = δ then .act action else .sync x.2.2.server.tree 0
    | .flush δ' => .sync x.2.2.server.tree (if δ' = δ then 1 else 0),
    x.2.2.client δ)

/-- **Simulation.** While the process of `δ` lives, every step of the system is a
happening of its life. -/
theorem step_client {s s' : System ι} {e : Event ι} {δ : ι} (hlive : NotRestarted δ e)
    (hstep : s.step e = .ok s') :
    (s.client δ).step (seenBy δ (s, e, s')).2.1 = .ok (s'.client δ) := by
  cases e with
  | act δ' action =>
      obtain ⟨dev, hact, rfl⟩ := step_act_eq_ok.mp hstep
      by_cases hδ : δ' = δ
      · subst hδ
        have hlive' : ∀ randomId, action ≠ .relaunch randomId := by
          rintro randomId rfl
          exact hlive rfl
        simp only [seenBy, if_pos, client, Function.update_self]
        exact Client.step_act hlive' hact
      · simp [seenBy, hδ, client, Client.step, Function.update_of_ne (Ne.symm hδ)]
  | flush δ' =>
      obtain ⟨w, ws, hpending, rfl⟩ := step_flush_eq_ok.mp hstep
      by_cases hδ : δ' = δ
      · subst hδ
        simp [seenBy, client, Client.step, hpending]
      · simp [seenBy, hδ, client, Client.step, Function.update_of_ne (Ne.symm hδ)]

/-- A run of the system is a life of each of its processes. -/
theorem RunFrom.client {guard : System ι → Event ι → Prop} {s₀ s : System ι} {δ : ι}
    {tr : List (System ι × Event ι × System ι)} (hguard : ∀ s e, guard s e → NotRestarted δ e)
    (h : RunFrom guard s₀ tr s) :
    Client.RunFrom (s₀.client δ) (tr.map (seenBy δ)) (s.client δ) := by
  induction h with
  | start h =>
      subst h
      exact .start rfl
  | next _ hg hstep ih =>
      rw [List.map_append]
      exact .next ih trivial (step_client (hguard _ _ hg) hstep)

/-- What a device comes to is what a process comes to. -/
theorem Reachable.client {guard : System ι → Event ι → Prop} {s : System ι}
    (h : Reachable guard s) (δ : ι) : Client.Reachable (s.client δ) := by
  refine h.invariant (I := fun s => Client.Reachable (s.client δ)) ?_ ?_
  · intro s hs
    obtain ⟨randomId, -, hδ⟩ := hs.2 δ
    exact .start ⟨none, randomId, hδ⟩
  · intro s e s' _ ih _ hstep
    by_cases hlive : NotRestarted δ e
    · exact .next ih trivial (step_client hlive hstep)
    · -- the process ends, and a new one begins
      obtain ⟨randomId, rfl⟩ : ∃ randomId, e = .act δ (.relaunch randomId) := by
        unfold NotRestarted at hlive
        split at hlive
        · exact ⟨_, by rw [not_not.mp hlive]⟩
        · exact absurd trivial hlive
      obtain ⟨dev, hact, rfl⟩ := step_act_eq_ok.mp hstep
      cases Device.act_inv hact with
      | relaunch =>
          refine .start ⟨(s.devices δ).accessToken, randomId, ?_⟩
          simp [System.client]

end System

/-! ### A sample life -/

/-- A registered user. -/
def sampleUser (id : UserId) : UserRecord := ⟨id, "name " ++ id, "Online", "url " ++ id⟩

/-- User 1's row for user 2. -/
def sampleRow (text : String) (ts : Int64) : ChatRecord :=
  ⟨"1_2", "name 2", text, "SENT_BY_FRIEND", true, ts, "url 2"⟩

/-- A database with users 1 and 2 and further records. -/
def sampleData (records : List Record) : Snapshot :=
  applyAll ∅ ((Record.user (sampleUser "1") :: .user (sampleUser "2") :: records).map Record.write)

/-- A process just started, with such a database. -/
def sampleClient (records : List Record) : Client :=
  ⟨sampleData records, Device.launch none (sampleId 'x')⟩

/-- User 1 logs in and comes to the home screen. -/
def sampleLife : List Happening :=
  [.act (.logIn "1"), .act .fetchFacebookData, .act (.reply 0 (some (sampleMe "1"))),
    .act (.fire 0 0)]

theorem Client.initial_sampleClient (records : List Record) : (sampleClient records).Initial :=
  ⟨none, sampleId 'x', rfl⟩

/-- What a sample run reaches is reachable. -/
theorem Client.reachable_of_run {records : List Record} {es : List Happening} {c : Client}
    (h : Transition.run Client.step (fun _ _ => true) (sampleClient records) es = some c) :
    Client.Reachable c :=
  .of_run (fun _ _ _ => trivial) (.start (Client.initial_sampleClient records)) h

/-- A sample run from `c₀` on. -/
theorem Client.runFrom_of_run {c₀ c : Client} {es : List Happening}
    (h : Transition.run Client.step (fun _ _ => true) c₀ es = some c) :
    Client.RunFrom c₀ (Transition.steps Client.step c₀ es) c := by
  have hrun : Client.RunFrom c₀ [] c₀ := .start rfl
  simpa using (hrun.steps_of_run (fun _ _ _ => trivial) h).1

end MyChat
