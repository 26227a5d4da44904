import MyChat.Client
import MyChat.AccountIsolation

/-!
# MyChat.ChatTable

The table of the home screen. `cellForRowAt` makes a new cell each time and appends it to
`rowList`; `cellTouchDownHandle` looks the tapped cell up in `rowList` and takes its
position for the row. So a tap opens the chat of its row exactly when the cell for row `r`
was the `r`-th one asked for since the list was delivered, and the id of the chat can be
split (`tap_opens_row_iff`).
-/

namespace MyChat

/-! ### One row -/

/-- The image views of a row that `asyncLoadingPhoto` is called for. -/
inductive RowImage
  | messState
  | avatar
  deriving DecidableEq

/-- `ChatTableRow`: its labels, and the photos it asked for. -/
structure ChatTableRow where
  nameLabel : Option String
  messLabel : Option String
  messStateIsHidden : Bool
  photos : List (RowImage × String)
  deriving DecidableEq

namespace ChatTableRow

/-- A row as it comes from its nib. -/
def new : ChatTableRow := ⟨none, none, false, []⟩

/-- `PhotoHelper.asyncLoadingPhoto`, up to the download: `URL(string:)` forces the url. -/
def asyncLoadingPhoto (self : ChatTableRow) (url : Option String) (imageView : RowImage) :
    Except Fault ChatTableRow := do
  let url ← unwrap "url" url
  return { self with photos := self.photos ++ [(imageView, url)] }

/-- The branches of `setUpViewWith`. -/
inductive Branch
  | sentFromYou
  | sentFromFriend
  | seenFromYou
  | seenFromFriend
  deriving DecidableEq

/-- The branch that `setUpViewWith` takes. There is none for any other state. -/
def branch (messState : Option String) : Option Branch :=
  if messState = some "SENT_FROM_YOU" then some .sentFromYou
  else if messState = some "SENT_FROM_FRIEND" then some .sentFromFriend
  else if messState = some "SEEN_FROM_YOU" then some .seenFromYou
  else if messState = some "SEEN_FROM_FRIEND" then some .seenFromFriend
  else none

/-- `setUpViewWith`. -/
def setUpViewWith (self : ChatTableRow) (name mess messState avatarUrl : Option String) :
    Except Fault ChatTableRow := do
  let self := { self with nameLabel := name, messLabel := mess }
  let self ←
    match branch messState with
    | some .sentFromYou => .ok { self with messStateIsHidden := false }
    | some .sentFromFriend => .ok { self with messStateIsHidden := false }
    | some .seenFromYou => .ok { self with messStateIsHidden := true }
    | some .seenFromFriend =>
        asyncLoadingPhoto { self with messStateIsHidden := false } avatarUrl .messState
    | none => .ok self
  asyncLoadingPhoto self avatarUrl .avatar

end ChatTableRow

/-! ### The table -/

/-- `UITableViewCell`, told from the others by the number of cells made before it, with
the row view in it. -/
structure UITableViewCell where
  id : Nat
  view : ChatTableRow
  deriving DecidableEq

/-- What `HomeViewController` knows of its table, and how many cells were ever made. -/
structure ChatTable where
  chatList : List ChatRef
  /-- `rowList`, by the cells' numbers. -/
  rowList : List Nat
  made : Nat

namespace ChatTable

/-- `fetchListOfChatBoxDidEnd`. -/
def fetchListOfChatBoxDidEnd (self : ChatTable) (chatList : List ChatRef) : ChatTable :=
  { self with chatList, rowList := [] }

/-- `tableView(_:cellForRowAt:)`. -/
def cellForRowAt (self : ChatTable) (dev : Device) (row : Nat) :
    Except Fault (ChatTable × UITableViewCell) := do
  let entry ← self.chatList[row]?.elim (.error .indexOutOfRange) .ok
  let object ← enabled dev.chats[entry]?
  let view ← ChatTableRow.new.setUpViewWith object.chat.name object.chat.lastMessenger
    object.chat.messState object.chat.avatarUrl
  return ({ self with rowList := self.rowList ++ [self.made], made := self.made + 1 },
    ⟨self.made, view⟩)

/-- The calls of `cellForRowAt` for these rows, each in the state of the process at the
time, with the cells they returned. -/
def cellsForRowsAt (self : ChatTable) :
    List (Device × Nat) → Except Fault (ChatTable × List UITableViewCell)
  | [] => .ok (self, [])
  | (dev, row) :: requests => do
      let (self, cell) ← self.cellForRowAt dev row
      let (self, cells) ← self.cellsForRowsAt requests
      return (self, cell :: cells)

/-- The screen that a tap presents for entry `i` of the chat list. -/
def screenAt (chatList : List ChatRef) (dev : Device) (i : Nat) : Except Fault ChatBoxViewController := do
  let entry ← enabled chatList[i]?
  let object ← enabled dev.chats[entry]?
  let ids ← unwrap "ids" (object.chat.chatId.map (componentsSeparatedBy · '_'))
  let friendId ← ids[1]?.elim (.error .indexOutOfRange) .ok
  return {
    friendId := some friendId, currentUser := some dev.currentUser, currentChatBox := some entry,
    messages := [], nameLabel := none }

/-- One round of the loop in `cellTouchDownHandle`, for the `i`-th cell of `rowList`. -/
def touch (chatList : List ChatRef) (dev : Device) (cell : Nat)
    (presented : List ChatBoxViewController) : Nat × Nat → Except Fault (List ChatBoxViewController)
  | (c, i) =>
      if i < chatList.length ∧ c = cell then do
        let vc ← screenAt chatList dev i
        return presented ++ [vc]
      else return presented

/-- `cellTouchDownHandle` for the button in `cell`: the screens it presents. -/
def cellTouchDownHandle (self : ChatTable) (dev : Device) (cell : Nat) :
    Except Fault (List ChatBoxViewController) :=
  self.rowList.zipIdx.foldlM (touch self.chatList dev cell) []

end ChatTable

/-- A row tap is the presentation of the entry's screen. -/
theorem HomeViewController.cellTouchDownHandle_eq {dev : Device} {home i : Nat}
    {vc : HomeViewController} (hvc : dev.homes[home]? = some vc) :
    HomeViewController.cellTouchDownHandle dev home i =
      ChatTable.screenAt vc.chatList dev i >>= ChatBoxViewController.viewDidLoad dev := by
  rw [HomeViewController.cellTouchDownHandle, hvc]
  simp only [ChatTable.screenAt, bind_assoc]
  rfl

/-! ### What the lists of a process hold -/

/-- Objects of the process, none twice. -/
structure Entries (dev : Device) (chatList : List ChatRef) : Prop where
  nodup : chatList.Nodup
  allocated : ∀ r ∈ chatList, r < dev.chats.length

theorem Entries.mono {dev dev' : Device} {chatList : List ChatRef} (h : Entries dev chatList)
    (hlength : dev.chats.length ≤ dev'.chats.length) : Entries dev' chatList :=
  ⟨h.nodup, fun r hr => (h.allocated r hr).trans_le hlength⟩

/-- The objects that a snapshot is decoded to are new ones. -/
theorem Entries.append {dev dev' : Device} {chatList : List ChatRef} {objects : List ChatObject}
    (h : Entries dev chatList) (hchats : dev'.chats = dev.chats ++ objects) :
    Entries dev' (chatList ++ List.range' dev.chats.length objects.length) := by
  refine ⟨List.nodup_append.mpr ⟨h.nodup, List.nodup_range', ?_⟩, fun r hr => ?_⟩
  · intro r hr r' hr'
    exact ((h.allocated r hr).trans_le (List.mem_range'_1.mp hr').1).ne
  · rw [hchats, List.length_append]
    rcases List.mem_append.mp hr with hr | hr
    · exact (h.allocated r hr).trans_le (Nat.le_add_right _ _)
    · exact (List.mem_range'_1.mp hr).2

/-- Every captured list and every chat list is one of objects of the process. -/
structure EntriesInv (dev : Device) : Prop where
  captured : ∀ ref owner chatList last, ⟨ref, .chatList owner chatList, last⟩ ∈ dev.observers →
    Entries dev chatList
  homes : ∀ vc ∈ dev.homes, Entries dev vc.chatList

theorem entriesInv_launch (accessToken : Option UserId) (randomId : String) :
    EntriesInv (Device.launch accessToken randomId) :=
  ⟨by simp [Device.launch], by simp [Device.launch]⟩

/-- **Step.** A list grows by new objects only. -/
theorem entriesInv_outcome {dev dev' : Device} {server : Snapshot} {action : Action}
    (h : EntriesInv dev) (hout : dev.Outcome server action dev')
    (hlive : ∀ randomId, action ≠ .relaunch randomId) : EntriesInv dev' := by
  have hlength : dev.chats.length ≤ dev'.chats.length := by
    simpa [Device.places] using (hout.places_prefix hlive).length_le
  have hcaptured : ∀ {i ref owner chatList snapshot},
      dev.Fires server i ref (.chatList owner chatList) snapshot → Entries dev chatList := by
    intro i ref owner chatList snapshot hfires
    obtain ⟨last, hmem⟩ := hfires.mem
    exact h.captured ref owner chatList last hmem
  constructor
  · intro ref owner chatList last hmem
    rcases hout.observes hmem with hmem | hobs
    · exact (h.captured ref owner chatList last hmem).mono hlength
    · cases hobs with
      | chatList => exact ⟨List.nodup_nil, by simp⟩
      | fired hfires => exact (hcaptured hfires).mono hlength
      | firedChatList hfires hobjects =>
          obtain ⟨objects, hobjects', hchats, -⟩ := chatList_fire_inv hout hfires
          cases hobjects.symm.trans hobjects'
          exact (hcaptured hfires).append hchats
  · intro vc hvc
    have hold : vc ∈ dev.homes → Entries dev' vc.chatList := fun hvc => (h.homes vc hvc).mono hlength
    have hpush : ∀ user, vc ∈ dev.homes ++ [⟨user, []⟩] → Entries dev' vc.chatList := by
      intro user hvc
      rcases List.mem_append.mp hvc with hvc | hvc
      · exact hold hvc
      · rw [List.mem_singleton.mp hvc]
        exact ⟨List.nodup_nil, by simp⟩
    cases hout with
    | relaunch => exact absurd rfl (hlive _)
    | loginKnown | loginNew => exact hpush _ hvc
    | chatList hfires hobjects hlist =>
        rcases Device.mem_handed hvc with hvc | ⟨vc', -, rfl⟩
        · exact hold hvc
        · rw [hlist]
          exact (hcaptured hfires).append rfl
    | _ => exact hold hvc

theorem Client.entriesInv {c : Client} (h : Client.Reachable c) : EntriesInv c.dev := by
  refine Client.device_invariant entriesInv_launch ?_
    (fun h hout hlive => entriesInv_outcome h hout hlive) h
  intro dev ws hentries
  exact ⟨fun ref owner chatList last hmem =>
      (hentries.captured ref owner chatList last hmem).mono le_rfl,
    fun vc hvc => (hentries.homes vc hvc).mono le_rfl⟩

/-! ### Calls of `cellForRowAt` -/

namespace ChatTable

variable {self self' : ChatTable} {dev : Device} {requests : List (Device × Nat)}
  {cells : List UITableViewCell}

/-- The `k`-th call appends the `k`-th new cell, whatever the row. -/
theorem cellsForRowsAt_inv (h : self.cellsForRowsAt requests = .ok (self', cells)) :
    self'.chatList = self.chatList ∧ cells.length = requests.length ∧
      self'.rowList = self.rowList ++ List.range' self.made requests.length ∧
      (∀ (k : Nat) cell, cells[k]? = some cell → cell.id = self.made + k) ∧
      ∀ x ∈ requests, x.2 < self.chatList.length := by
  induction requests generalizing self cells with
  | nil =>
      cases h
      simp
  | cons x requests ih =>
      obtain ⟨dev, row⟩ := x
      obtain ⟨⟨table, cell⟩, hcell, h⟩ := bind_eq_ok.mp h
      obtain ⟨⟨table', cells'⟩, hcells, h⟩ := bind_eq_ok.mp h
      cases h
      simp only [cellForRowAt, bind_eq_ok, enabled_eq_ok] at hcell
      obtain ⟨entry, hentry, object, -, view, -, hcell⟩ := hcell
      cases hcell
      obtain ⟨hchatList, hlength, hrowList, hids, hrows⟩ := ih hcells
      refine ⟨hchatList, by simp [hlength], ?_, ?_, ?_⟩
      · rw [hrowList, List.length_cons, List.range'_succ, List.append_assoc]
        rfl
      · intro k cell hk
        cases k with
        | zero =>
            cases hk
            rfl
        | succ k =>
            rw [hids k cell hk]
            exact Nat.add_right_comm _ _ _
      · refine List.forall_mem_cons.mpr ⟨?_, hrows⟩
        by_contra hout
        rw [List.getElem?_eq_none (Nat.not_lt.mp hout)] at hentry
        cases hentry

variable {chatList : List ChatRef} {cell : Nat} {presented : List ChatBoxViewController}

/-- Rounds for other cells present nothing. -/
theorem foldlM_touch_of_not_mem {rowList : List Nat} {j : Nat} (h : cell ∉ rowList) :
    (rowList.zipIdx j).foldlM (touch chatList dev cell) presented = .ok presented := by
  induction rowList generalizing j with
  | nil => rfl
  | cons c rowList ih =>
      obtain ⟨hne, h⟩ := not_or.mp (fun hmem => h (List.mem_cons.mpr hmem))
      rw [List.zipIdx_cons, List.foldlM_cons, touch, if_neg fun hcase => hne hcase.2.symm]
      exact ih h

/-- The cell is found at its only position, and that is taken for the row. -/
theorem foldlM_touch {s n k j : Nat} (hk : k < n) (hcell : cell = s + k) :
    ((List.range' s n).zipIdx j).foldlM (touch chatList dev cell) presented =
      if j + k < chatList.length then do
        let vc ← screenAt chatList dev (j + k)
        return presented ++ [vc]
      else .ok presented := by
  -- cell numbers and positions grow together, so the induction moves both
  induction n generalizing s k j with
  | zero => omega
  | succ n ih =>
      rw [List.range'_succ, List.zipIdx_cons, List.foldlM_cons, touch]
      cases k with
      | zero =>
          have hrest : ∀ presented, ((List.range' (s + 1) n).zipIdx (j + 1)).foldlM
              (touch chatList dev cell) presented = .ok presented := fun _ =>
            foldlM_touch_of_not_mem fun hmem => by
              have := (List.mem_range'_1.mp hmem).1
              omega
          simp only [Nat.add_zero] at hcell ⊢
          by_cases hlt : j < chatList.length
          · rw [if_pos ⟨hlt, hcell.symm⟩, if_pos hlt, bind_assoc]
            simp only [pure_bind, hrest]
            rfl
          · rw [if_neg fun hcase => hlt hcase.1, if_neg hlt]
            exact hrest presented
      | succ k =>
          rw [if_neg (by omega)]
          have hk' : j + (k + 1) = j + 1 + k := by omega
          rw [hk']
          exact ih (by omega) (by omega)

end ChatTable

/-! ### Taps -/

/-- `components(separatedBy: "_")` has a second component. -/
theorem second_component_iff {s : String} :
    (∃ c, (componentsSeparatedBy s '_')[1]? = some c) ↔ '_' ∈ s.toList := by
  constructor
  · intro h
    by_contra hno
    rw [componentsSeparatedBy_of_not_mem hno] at h
    simp at h
  · intro h
    obtain ⟨a, b, hab⟩ := List.append_of_mem h
    have hlength : 1 < (componentsSeparatedBy s '_').length := by
      have ha := List.length_pos_iff.mpr (List.splitOn_ne_nil '_' a)
      have hb := List.length_pos_iff.mpr (List.splitOn_ne_nil '_' b)
      rw [componentsSeparatedBy, hab, List.splitOn_append_cons_self, List.length_map,
        List.length_append]
      omega
    exact ⟨_, List.getElem?_eq_getElem hlength⟩

theorem ChatTable.screenAt_eq_ok {chatList : List ChatRef} {dev : Device} {i : Nat}
    {vc : ChatBoxViewController} :
    ChatTable.screenAt chatList dev i = .ok vc ↔ ∃ entry object chatId friendId,
      chatList[i]? = some entry ∧ dev.chats[entry]? = some object ∧
      object.chat.chatId = some chatId ∧ (componentsSeparatedBy chatId '_')[1]? = some friendId ∧
      vc = ⟨some friendId, some dev.currentUser, some entry, [], none⟩ := by
  simp only [ChatTable.screenAt, bind_eq_ok, enabled_eq_ok, unwrap_eq_ok, Option.map_eq_some_iff]
  constructor
  · intro h
    obtain ⟨entry, hentry, object, hobject, ids, ⟨chatId, hchatId, rfl⟩, friendId, hfriend, hvc⟩ := h
    cases hids : (componentsSeparatedBy chatId '_')[1]? with
    | none => simp [hids] at hfriend
    | some friendId' =>
        rw [hids] at hfriend
        cases hfriend
        exact ⟨entry, object, chatId, friendId, hentry, hobject, hchatId, hids,
          (Except.ok.inj hvc).symm⟩
  · intro h
    obtain ⟨entry, object, chatId, friendId, hentry, hobject, hchatId, hfriend, rfl⟩ := h
    exact ⟨entry, hentry, object, hobject, _, ⟨chatId, hchatId, rfl⟩, friendId, by rw [hfriend]; rfl, rfl⟩

/-- A tap on `cell` presents one screen, for entry `r` of the chat list. -/
def OpensRow (table : ChatTable) (dev : Device) (cell r : Nat) : Prop :=
  ∃ vc, table.cellTouchDownHandle dev cell = .ok [vc] ∧ vc.currentChatBox.isSome ∧
    vc.currentChatBox = table.chatList[r]?

/-- A tap on the `k`-th cell asked for presents the screen of entry `k`, if any. -/
theorem ChatTable.cellTouchDownHandle_eq {before table : ChatTable} {chatList : List ChatRef}
    {requests : List (Device × Nat)} {cells : List UITableViewCell} {cell : UITableViewCell}
    {k : Nat} (dev : Device)
    (hcells : (before.fetchListOfChatBoxDidEnd chatList).cellsForRowsAt requests =
      .ok (table, cells)) (hcell : cells[k]? = some cell) :
    table.cellTouchDownHandle dev cell.id =
      if k < chatList.length then do
        let screen ← ChatTable.screenAt chatList dev k
        return [screen]
      else .ok [] := by
  obtain ⟨hchatList, hlength, hrowList, hids, -⟩ := ChatTable.cellsForRowsAt_inv hcells
  have hchatList : table.chatList = chatList := hchatList
  have hk : k < requests.length := hlength ▸ (List.getElem?_eq_some_iff.mp hcell).1
  rw [ChatTable.cellTouchDownHandle, hrowList, hchatList]
  refine (ChatTable.foldlM_touch hk (hids k cell hcell)).trans ?_
  simp only [Nat.zero_add, List.nil_append]

/-- **When a tap opens the row's chat.** The cell for row `r` was the `r`-th one asked for
since the list was delivered, and the `chatId` of the entry has a `_`. -/
theorem tap_opens_row_iff {c : Client} {home : Nat} {vc : HomeViewController}
    {requests : List (Device × Nat)} {before table : ChatTable} {cells : List UITableViewCell}
    {cell : UITableViewCell} {dev : Device} {k r : Nat} (hreach : Client.Reachable c)
    (hvc : c.dev.homes[home]? = some vc)
    (hcells : (before.fetchListOfChatBoxDidEnd vc.chatList).cellsForRowsAt requests =
      .ok (table, cells))
    (hrequest : requests[k]? = some (dev, r)) (hcell : cells[k]? = some cell) :
    OpensRow table c.dev cell.id r ↔ k = r ∧ ∃ entry object chatId, vc.chatList[r]? = some entry ∧
      c.dev.chats[entry]? = some object ∧ object.chat.chatId = some chatId ∧
      '_' ∈ chatId.toList := by
  obtain ⟨hchatList, -, -, -, hrows⟩ := ChatTable.cellsForRowsAt_inv hcells
  have hchatList : table.chatList = vc.chatList := hchatList
  have hnodup := ((Client.entriesInv hreach).homes vc (List.mem_of_getElem? hvc)).nodup
  have hr : r < vc.chatList.length := hrows (dev, r) (List.mem_of_getElem? hrequest)
  have htap := ChatTable.cellTouchDownHandle_eq c.dev hcells hcell
  constructor
  · intro h
    obtain ⟨screen, hscreen, hsome, hentry⟩ := h
    rw [htap] at hscreen
    split at hscreen
    · next hlt =>
      obtain ⟨screen', hscreen', heq⟩ := bind_eq_ok.mp hscreen
      cases heq
      obtain ⟨entry, object, chatId, friendId, hk', hobject, hchatId, hfriend, rfl⟩ :=
        ChatTable.screenAt_eq_ok.mp hscreen'
      have hr' : vc.chatList[r]? = some entry := by
        rw [← hchatList]
        exact hentry.symm
      -- no object is in the list twice: the entry that is opened tells its row
      obtain rfl : k = r := by
        refine (List.getElem?_inj hlt hnodup).mp ?_
        rw [hk', hr']
      exact ⟨rfl, entry, object, chatId, hr', hobject, hchatId,
        second_component_iff.mp ⟨friendId, hfriend⟩⟩
    · cases hscreen
  · intro h
    obtain ⟨rfl, entry, object, chatId, hentry, hobject, hchatId, hsplit⟩ := h
    obtain ⟨friendId, hfriend⟩ := second_component_iff.mpr hsplit
    have hscreen := ChatTable.screenAt_eq_ok.mpr
      ⟨entry, object, chatId, friendId, hentry, hobject, hchatId, hfriend, rfl⟩
    refine ⟨⟨some friendId, some c.dev.currentUser, some entry, [], none⟩, ?_, rfl, ?_⟩
    · rw [htap, if_pos hr, hscreen]
      rfl
    · rw [hchatList]
      exact hentry.symm

/-- User 1 has three chats, and they are on the home screen. -/
def sampleChats : List Record :=
  [.chat "1" "2" (sampleRow "hi" 10), .chat "1" "3" ⟨"1_3", "name 3", "ho", "SEEN", false, 20, "url 3"⟩,
    .chat "1" "4" ⟨"1_4", "name 4", "hey", "SEEN", false, 30, "url 4"⟩]

def sampleHome : List Happening := sampleLife ++ [.act (.homeWillAppear 0), .act (.fire 1 0)]

/-- The table asks for these rows of the list just delivered. -/
def sampleCells (c : Client) (vc : HomeViewController) (rows : List Nat) :
    Except Fault (ChatTable × List UITableViewCell) :=
  (ChatTable.fetchListOfChatBoxDidEnd ⟨[], [], 0⟩ vc.chatList).cellsForRowsAt
    (rows.map fun row => (c.dev, row))

theorem tap_opens_row_sample :
    ∃ c vc table cell, Client.Reachable c ∧ c.dev.homes[0]? = some vc ∧
      (OpensRow table c.dev cell 1 ↔ 1 = 1 ∧ ∃ entry object chatId, vc.chatList[1]? = some entry ∧
        c.dev.chats[entry]? = some object ∧ object.chat.chatId = some chatId ∧
        '_' ∈ chatId.toList) := by
  have hrun : ((Transition.run Client.step (fun _ _ => true) (sampleClient sampleChats)
      sampleHome).bind fun c => c.dev.homes[0]?.bind fun vc =>
        (sampleCells c vc [0, 1]).toOption.bind fun x => x.2[1]?).isSome := by
    decide +kernel
  obtain ⟨cell, hrun⟩ := Option.isSome_iff_exists.mp hrun
  obtain ⟨c, hc, hrun⟩ := Option.bind_eq_some_iff.mp hrun
  obtain ⟨vc, hvc, hrun⟩ := Option.bind_eq_some_iff.mp hrun
  obtain ⟨⟨table, cells⟩, hcells, hcell⟩ := Option.bind_eq_some_iff.mp hrun
  exact ⟨c, vc, table, cell.id, Client.reachable_of_run hc, hvc,
    tap_opens_row_iff (Client.reachable_of_run hc) hvc (eq_ok_of_toOption hcells) rfl hcell⟩

/-- The table asks for row 0 again after row 1. A tap on that cell opens the chat of row 2. -/
theorem tap_opens_other_row :
    ¬ ∀ (c : Client) (home : Nat) (vc : HomeViewController) (requests : List (Device × Nat))
      (before table : ChatTable) (cells : List UITableViewCell) (cell : UITableViewCell)
      (dev : Device) (k r : Nat), Client.Reachable c → c.dev.homes[home]? = some vc →
      (before.fetchListOfChatBoxDidEnd vc.chatList).cellsForRowsAt requests = .ok (table, cells) →
      requests[k]? = some (dev, r) → cells[k]? = some cell → OpensRow table c.dev cell.id r := by
  intro h
  have hrun : ((Transition.run Client.step (fun _ _ => true) (sampleClient sampleChats)
      sampleHome).bind fun c => c.dev.homes[0]?.bind fun vc =>
        (sampleCells c vc [0, 1, 0]).toOption.bind fun x => x.2[2]?.map fun cell =>
          decide ((x.1.cellTouchDownHandle c.dev cell.id).toOption.map
              (·.map ChatBoxViewController.currentChatBox) = some [vc.chatList[2]?]) &&
            decide (vc.chatList[2]? ≠ x.1.chatList[0]?)) = some true := by
    decide +kernel
  obtain ⟨c, hc, hrun⟩ := Option.bind_eq_some_iff.mp hrun
  obtain ⟨vc, hvc, hrun⟩ := Option.bind_eq_some_iff.mp hrun
  obtain ⟨⟨table, cells⟩, hcells, hrun⟩ := Option.bind_eq_some_iff.mp hrun
  obtain ⟨cell, hcell, hstate⟩ := Option.map_eq_some_iff.mp hrun
  simp only [Bool.and_eq_true, decide_eq_true_eq] at hstate
  obtain ⟨screen, htap, -, hentry⟩ := h c 0 vc _ ⟨[], [], 0⟩ table cells cell c.dev 2 0
    (Client.reachable_of_run hc) hvc (eq_ok_of_toOption hcells) rfl hcell
  rw [htap] at hstate
  have hopened : screen.currentChatBox = vc.chatList[2]? := by
    simpa [Except.toOption] using hstate.1
  exact hstate.2 (hopened.symm.trans hentry)

end MyChat
