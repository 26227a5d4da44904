import MyChat.ChatTable
import Mathlib.Data.List.Chain

/-!
# MyChat.PhotoHelper

`asyncLoadingPhoto` on one image view. A call puts a block on a concurrent queue, the block
downloads the data and puts a second one on the main queue, and that one sets the image.
Nothing ties the second block to the latest call, it forces data that a failed download
does not have, and it sets nil for data that are no image. `photos_right_iff` says which
runs get by without these.

What `URL(string:)` and `UIImage(data:)` accept is left open.
-/

namespace MyChat

namespace PhotoHelper

variable {URL Data Image : Type}

/-! ### The image view and its blocks -/

/-- An image view, and what `asyncLoadingPhoto` has in flight for it. Requests are numbered
as they are made. -/
structure UIImageView (URL Data Image : Type) where
  image : Option Image
  requests : List URL
  /-- The blocks on the global queue. They run side by side. -/
  loading : List Nat
  /-- The blocks on the main queue, in the order they will run, with the `data` each captured. -/
  queued : List (Nat × Option Data)
  deriving DecidableEq

/-- A view that shows `image` before the first call. -/
def UIImageView.showing (image : Option Image) : UIImageView URL Data Image := ⟨image, [], [], []⟩

/-- `asyncLoadingPhoto`, up to the first block. -/
def asyncLoadingPhoto (urlOfString : String → Option URL) (self : UIImageView URL Data Image)
    (url : Option String) : Except Fault (UIImageView URL Data Image) := do
  let url ← unwrap "url" url
  match urlOfString url with
  | none => return self
  | some url =>
      return { self with
        requests := self.requests ++ [url], loading := self.loading ++ [self.requests.length] }

/-- The block of request `k` on the global queue, when `try? Data(contentsOf:)` returns. -/
def downloaded (self : UIImageView URL Data Image) (k : Nat) (data : Option Data) :
    Except Fault (UIImageView URL Data Image) :=
  if k ∈ self.loading then
    .ok { self with loading := self.loading.erase k, queued := self.queued ++ [(k, data)] }
  else .error .disabled

/-- The body of a block on the main queue. -/
def setImage (uiImage : Data → Option Image) (self : UIImageView URL Data Image)
    (data : Option Data) : Except Fault (UIImageView URL Data Image) := do
  let data ← unwrap "data" data
  return { self with image := uiImage data }

/-- The main queue runs its next block. -/
def display (uiImage : Data → Option Image) (self : UIImageView URL Data Image) :
    Except Fault (UIImageView URL Data Image) :=
  match self.queued with
  | [] => .error .disabled
  | (_, data) :: queued => setImage uiImage { self with queued } data

/-- What happens to an image view: a call, the end of a download, a block on the main queue. -/
inductive Event (Data : Type)
  | call (url : String)
  | downloaded (k : Nat) (data : Option Data)
  | display
  deriving DecidableEq

/-- One step. Calls, downloads and blocks come in any order that the queues allow. -/
def step (urlOfString : String → Option URL) (uiImage : Data → Option Image)
    (self : UIImageView URL Data Image) : Event Data → Except Fault (UIImageView URL Data Image)
  | .call url => asyncLoadingPhoto urlOfString self (some url)
  | .downloaded k data => downloaded self k data
  | .display => display uiImage self

variable {urlOfString : String → Option URL} {uiImage : Data → Option Image}
  {self self' : UIImageView URL Data Image}

/-- A call traps only without a url string. -/
theorem asyncLoadingPhoto_ok_iff {url : Option String} :
    (∃ self', asyncLoadingPhoto urlOfString self url = .ok self') ↔ url.isSome := by
  cases url with
  | none => simp [asyncLoadingPhoto, unwrap, bind, Except.bind]
  | some url =>
      refine ⟨fun _ => rfl, fun _ => ?_⟩
      rw [asyncLoadingPhoto, unwrap_some]
      cases hu : urlOfString url with
      | none => exact ⟨self, by simp only [bind, Except.bind, hu]; rfl⟩
      | some u => exact ⟨_, by simp only [bind, Except.bind, hu]; rfl⟩

/-- **The steps.** A string that is no url changes nothing, a call for a url adds a request, a
download moves its request to the end of the main queue, and a block sets the image to what
its data are. -/
theorem step_cases {event : Event Data} (h : step urlOfString uiImage self event = .ok self') :
    (∃ url, event = .call url ∧ urlOfString url = none ∧ self' = self) ∨
    (∃ url u, event = .call url ∧ urlOfString url = some u ∧
      self' = { self with
        requests := self.requests ++ [u], loading := self.loading ++ [self.requests.length] }) ∨
    (∃ k data, event = .downloaded k data ∧ k ∈ self.loading ∧
      self' = { self with
        loading := self.loading.erase k, queued := self.queued ++ [(k, data)] }) ∨
    ∃ k data queued, event = .display ∧ self.queued = (k, some data) :: queued ∧
      self' = { self with image := uiImage data, queued } := by
  cases event with
  | call url =>
      obtain ⟨url', hurl, h⟩ := bind_eq_ok.mp h
      obtain rfl : url = url' := by simpa using hurl
      cases hu : urlOfString url with
      | none =>
          rw [hu] at h
          exact Or.inl ⟨url, rfl, hu, (Except.ok.inj h).symm⟩
      | some u =>
          rw [hu] at h
          exact Or.inr (Or.inl ⟨url, u, rfl, hu, (Except.ok.inj h).symm⟩)
  | downloaded k data =>
      simp only [step, downloaded] at h
      split at h
      · next hk => exact Or.inr (Or.inr (Or.inl ⟨k, data, rfl, hk, (Except.ok.inj h).symm⟩))
      · cases h
  | display =>
      simp only [step, display] at h
      split at h
      · cases h
      · next k data queued hqueued =>
        obtain ⟨data', hdata, h⟩ := bind_eq_ok.mp h
        obtain rfl : data = some data' := unwrap_eq_ok.mp hdata
        exact Or.inr (Or.inr (Or.inr ⟨k, data', queued, rfl, hqueued, (Except.ok.inj h).symm⟩))

/-! ### What a run did -/

/-- The downloads that ended, in the order they did. -/
def downloads (events : List (Event Data)) : List (Nat × Option Data) :=
  events.filterMap fun event =>
    match event with
    | .downloaded k data => some (k, data)
    | _ => none

/-- How many blocks the main queue ran. -/
def displays (events : List (Event Data)) : Nat :=
  events.countP fun event =>
    match event with
    | .display => true
    | _ => false

/-- How many of the calls were for a url. -/
def requested (urlOfString : String → Option URL) (events : List (Event Data)) : Nat :=
  events.countP fun event =>
    match event with
    | .call url => (urlOfString url).isSome
    | _ => false

/-- The downloads whose second block ran: the main queue is first in, first out. -/
def shown (events : List (Event Data)) : List (Nat × Option Data) :=
  (downloads events).take (displays events)

/-- The image of a download that succeeded. -/
def photo (uiImage : Data → Option Image) (download : Nat × Option Data) : Option Image :=
  download.2.bind uiImage

/-- What the view showed, one after the other. -/
def images (uiImage : Data → Option Image) (image : Option Image) (events : List (Event Data)) :
    List (Option Image) :=
  image :: (shown events).map (photo uiImage)

section

variable {events : List (Event Data)} {k : Nat} {data : Option Data} {url : String}

@[simp] theorem downloads_call : downloads (events ++ [.call url]) = downloads events := by
  simp [downloads]

@[simp] theorem downloads_downloaded :
    downloads (events ++ [.downloaded k data]) = downloads events ++ [(k, data)] := by
  simp [downloads]

@[simp] theorem downloads_display : downloads (events ++ [.display]) = downloads events := by
  simp [downloads]

@[simp] theorem displays_call : displays (events ++ [.call url]) = displays events := by
  simp [displays]

@[simp] theorem displays_downloaded :
    displays (events ++ [.downloaded k data]) = displays events := by
  simp [displays]

@[simp] theorem displays_display : displays (events ++ [.display]) = displays events + 1 := by
  simp [displays]

@[simp] theorem requested_call :
    requested urlOfString (events ++ [.call url]) =
      requested urlOfString events + if (urlOfString url).isSome then 1 else 0 := by
  simp [requested, List.countP_append, List.countP_cons]

@[simp] theorem requested_downloaded :
    requested urlOfString (events ++ [.downloaded k data]) = requested urlOfString events := by
  simp [requested]

@[simp] theorem requested_display :
    requested urlOfString (events ++ [.display]) = requested urlOfString events := by
  simp [requested]

@[simp] theorem shown_call : shown (events ++ [.call url]) = shown events := by
  simp [shown]

theorem shown_downloaded (hle : displays events ≤ (downloads events).length) :
    shown (events ++ [.downloaded k data]) = shown events := by
  simp [shown, List.take_append_of_le_length hle]

theorem shown_display {d : Nat × Option Data} {queued : List (Nat × Option Data)}
    (h : (downloads events).drop (displays events) = d :: queued) :
    shown (events ++ [.display]) = shown events ++ [d] := by
  have hlt : displays events < (downloads events).length := by
    by_contra hge
    rw [List.drop_eq_nil_of_le (Nat.not_lt.mp hge)] at h
    cases h
  rw [shown, downloads_display, displays_display, List.take_add_one, shown]
  rw [List.drop_eq_getElem_cons hlt] at h
  rw [List.getElem?_eq_getElem hlt, (List.cons.inj h).1]
  rfl

end

/-- The view after a run: its queues and its image, told from what happened. -/
structure History (urlOfString : String → Option URL) (uiImage : Data → Option Image)
    (image : Option Image) (events : List (Event Data)) (view : UIImageView URL Data Image) :
    Prop where
  le : displays events ≤ (downloads events).length
  queued : view.queued = (downloads events).drop (displays events)
  delivered : ∀ d ∈ shown events, d.2.isSome
  image : (images uiImage image events).getLast? = some view.image
  requests : view.requests.length = requested urlOfString events
  /-- Each request is loading or done, and only once. -/
  numbers : (view.loading ++ (downloads events).map Prod.fst).Perm
    (List.range view.requests.length)

/-- **Step.** -/
theorem History.step {image : Option Image} {events : List (Event Data)} {event : Event Data}
    (h : History urlOfString uiImage image events self)
    (hstep : step urlOfString uiImage self event = .ok self') :
    History urlOfString uiImage image (events ++ [event]) self' := by
  obtain ⟨hle, hqueued, hdelivered, himage, hrequests, hnumbers⟩ := h
  rcases step_cases hstep with ⟨url, rfl, hurl, rfl⟩ | ⟨url, u, rfl, hurl, rfl⟩ |
    ⟨k, data, rfl, hk, rfl⟩ | ⟨k, data, queued, rfl, hhead, rfl⟩
  · refine ⟨by simpa using hle, by simpa using hqueued, by simpa using hdelivered,
      by simpa [images] using himage, by simpa [hurl] using hrequests, by simpa using hnumbers⟩
  · refine ⟨by simpa using hle, by simpa using hqueued, by simpa using hdelivered,
      by simpa [images] using himage, by simpa [hurl] using hrequests, ?_⟩
    -- the new request is the next number
    rw [downloads_call, List.length_append, List.length_singleton, List.range_succ]
    refine List.Perm.trans ?_ (hnumbers.append_right [self.requests.length])
    rw [List.append_assoc, List.append_assoc]
    exact List.perm_append_comm.append_left self.loading
  · have hshown : shown (events ++ [.downloaded k data]) = shown events := shown_downloaded hle
    refine ⟨?_, ?_, by rwa [hshown], by rwa [images, hshown], by simpa using hrequests, ?_⟩
    · rw [displays_downloaded, downloads_downloaded, List.length_append]
      omega
    · rw [displays_downloaded, downloads_downloaded, List.drop_append_of_le_length hle, hqueued]
    · -- the number moves from the loading ones to the done ones
      refine List.Perm.trans ?_ hnumbers
      rw [downloads_downloaded, List.map_append, ← List.append_assoc]
      refine List.perm_append_comm.trans ?_
      exact (List.perm_cons_erase hk).symm.append_right ((downloads events).map Prod.fst)
  · rw [hqueued] at hhead
    have hshown := shown_display hhead
    refine ⟨?_, ?_, ?_, ?_, by simpa using hrequests, by simpa using hnumbers⟩
    · have := congrArg List.length hhead
      rw [List.length_drop, List.length_cons] at this
      rw [displays_display, downloads_display]
      omega
    · rw [displays_display, downloads_display, ← List.drop_drop, hhead]
      rfl
    · intro d hd
      rw [hshown] at hd
      rcases List.mem_append.mp hd with hd | hd
      · exact hdelivered d hd
      · rw [List.mem_singleton.mp hd]
        rfl
    · rw [images, hshown, List.map_append, ← List.cons_append]
      exact List.getLast?_concat

/-- The events of a run. -/
def events (tr : List (UIImageView URL Data Image × Event Data × UIImageView URL Data Image)) :
    List (Event Data) :=
  tr.map fun x => x.2.1

/-- The runs on a view that shows `image`, with every order of calls, downloads and blocks. -/
abbrev Run (urlOfString : String → Option URL) (uiImage : Data → Option Image)
    (image : Option Image) :
    List (UIImageView URL Data Image × Event Data × UIImageView URL Data Image) →
      UIImageView URL Data Image → Prop :=
  Transition.Trace (step urlOfString uiImage) (fun self => self = .showing image) fun _ _ => True

variable {image : Option Image}
  {tr : List (UIImageView URL Data Image × Event Data × UIImageView URL Data Image)}

/-- **Run.** -/
theorem Run.history (h : Run urlOfString uiImage image tr self) :
    History urlOfString uiImage image (events tr) self := by
  induction h with
  | start h =>
      subst h
      exact ⟨le_rfl, rfl, by simp [events, shown, downloads], rfl, rfl, List.Perm.refl []⟩
  | next _ _ hs ih =>
      rw [events, List.map_append]
      exact ih.step hs

/-! ### Latest photo wins, failures are harmless -/

/-- The image of the last of the first `n` requests whose download succeeded. -/
def latestPhoto (uiImage : Data → Option Image) (n : Nat) (downloads : List (Nat × Option Data)) :
    Option Image :=
  (List.range n).reverse.findSome? fun k => (downloads.lookup k).bind (·.bind uiImage)

@[simp] theorem latestPhoto_nil (n : Nat) : latestPhoto uiImage n [] = none := by
  rw [latestPhoto, List.findSome?_eq_none_iff]
  intro k _
  rfl

/-- What the calls on one view have to do: neither a call nor its block on the main queue
traps, a block whose download did not succeed leaves the image unchanged, and once all is done
the view shows the image of the last requested url whose download succeeded. -/
structure PhotosRight (urlOfString : String → Option URL) (uiImage : Data → Option Image)
    (tr : List (UIImageView URL Data Image × Event Data × UIImageView URL Data Image))
    (view : UIImageView URL Data Image) : Prop where
  calls : ∀ url, ∃ view', asyncLoadingPhoto urlOfString view (some url) = .ok view'
  safe : ∀ d ∈ view.queued, ∀ what, setImage uiImage view d.2 ≠ .error (.foundNil what)
  unchanged : ∀ x ∈ tr, x.2.1 = .display → (∀ d ∈ x.1.queued.head?, photo uiImage d = none) →
    x.2.2.image = x.1.image
  latest : view.loading = [] → view.queued = [] → ∀ i,
    latestPhoto uiImage view.requests.length (downloads (events tr)) = some i → view.image = some i

/-- What a run needs for that: every download brings data, data that are no image come while
no image is shown, and the download that ends last brings the image that the last requested
url with an image brought. -/
structure Harmless (urlOfString : String → Option URL) (uiImage : Data → Option Image)
    (image : Option Image) (events : List (Event Data)) : Prop where
  data : ∀ d ∈ downloads events, d.2.isSome
  noBlank : (images uiImage image events).IsChain fun before after => before.isSome → after.isSome
  lastIsLatest : displays events = requested urlOfString events → ∀ i,
    latestPhoto uiImage (requested urlOfString events) (downloads events) = some i →
      (downloads events).getLast?.bind (photo uiImage) = some i

theorem setImage_ne_foundNil_iff {data : Option Data} :
    (∀ what, setImage uiImage self data ≠ .error (.foundNil what)) ↔ data.isSome := by
  cases data with
  | none => simpa using ⟨"data", rfl⟩
  | some data => exact ⟨fun _ => rfl, fun _ what h => by cases h⟩

/-- The main queue is safe exactly when every download brought data. -/
theorem Run.safe_iff (h : Run urlOfString uiImage image tr self) :
    (∀ d ∈ self.queued, ∀ what, setImage uiImage self d.2 ≠ .error (.foundNil what)) ↔
      ∀ d ∈ downloads (events tr), d.2.isSome := by
  simp only [setImage_ne_foundNil_iff]
  have hsplit : downloads (events tr) = shown (events tr) ++ self.queued := by
    rw [h.history.queued]
    exact (List.take_append_drop _ _).symm
  rw [hsplit]
  constructor
  · intro hqueued d hd
    rcases List.mem_append.mp hd with hd | hd
    · exact h.history.delivered d hd
    · exact hqueued d hd
  · exact fun hall d hd => hall d (List.mem_append_right _ hd)

/-- The image is never lost exactly when no image is followed by data that are none. -/
theorem Run.unchanged_iff (h : Run urlOfString uiImage image tr self) :
    (∀ x ∈ tr, x.2.1 = .display → (∀ d ∈ x.1.queued.head?, photo uiImage d = none) →
      x.2.2.image = x.1.image) ↔
    (images uiImage image (events tr)).IsChain fun before after =>
      before.isSome → after.isSome := by
  induction h with
  | start => simp [events, images, shown, downloads]
  | @next tr s s' event h _ hs ih =>
      have hhistory := Run.history h
      have hevents : events (tr ++ [(s, event, s')]) = events tr ++ [event] := by simp [events]
      simp only [List.forall_mem_append, List.forall_mem_singleton, hevents]
      rw [ih]
      rcases step_cases hs with ⟨url, rfl, -, -⟩ | ⟨url, u, rfl, -, -⟩ |
        ⟨k, data, rfl, -, -⟩ | ⟨k, data, queued, rfl, hhead, rfl⟩
      · simp [images]
      · simp [images]
      · simp [images, shown_downloaded hhistory.le]
      · -- the block of this step shows one image more
        have hdrop := hhistory.queued.symm.trans hhead
        have himages : images uiImage image (events tr ++ [.display]) =
            images uiImage image (events tr) ++ [uiImage data] := by
          simp [images, shown_display hdrop, photo]
        rw [himages, List.isChain_append]
        refine and_congr_right fun _ => ?_
        simp only [hhistory.image, hhead, List.head?_cons, Option.mem_some_iff, forall_eq', photo,
          Option.bind_some, List.isChain_singleton, true_and]
        cases uiImage data with
        | none =>
            cases himage : s.image <;> simp
        | some i => simp

/-- All is done when as many blocks ran as urls were requested. -/
theorem Run.done_iff (h : Run urlOfString uiImage image tr self) :
    self.loading = [] ∧ self.queued = [] ↔
      displays (events tr) = requested urlOfString (events tr) := by
  obtain ⟨hle, hqueued, -, -, hrequests, hnumbers⟩ := h.history
  have hlength := hnumbers.length_eq
  rw [List.length_append, List.length_map, List.length_range] at hlength
  rw [← List.length_eq_zero_iff, ← List.length_eq_zero_iff, hqueued, List.length_drop]
  omega

/-- Once all is done, the view shows what came last. -/
theorem Run.image_of_done (h : Run urlOfString uiImage image tr self)
    (hdone : displays (events tr) = requested urlOfString (events tr)) {d : Nat × Option Data}
    (hd : (downloads (events tr)).getLast? = some d) : self.image = photo uiImage d := by
  have hqueued := (h.done_iff.mpr hdone).2
  rw [h.history.queued, List.drop_eq_nil_iff] at hqueued
  have himage := h.history.image
  rw [images, shown, List.take_of_length_le hqueued, List.getLast?_cons, List.getLast?_map, hd]
    at himage
  exact (Option.some.inj himage).symm

/-- The view shows the latest photo exactly when it came last. -/
theorem Run.latest_iff (h : Run urlOfString uiImage image tr self) :
    (self.loading = [] → self.queued = [] → ∀ i,
      latestPhoto uiImage self.requests.length (downloads (events tr)) = some i →
        self.image = some i) ↔
    (displays (events tr) = requested urlOfString (events tr) → ∀ i,
      latestPhoto uiImage (requested urlOfString (events tr)) (downloads (events tr)) = some i →
        (downloads (events tr)).getLast?.bind (photo uiImage) = some i) := by
  rw [h.history.requests, ← and_imp, h.done_iff]
  refine forall_congr' fun hdone => forall_congr' fun i => forall_congr' fun hlatest => ?_
  cases hlast : (downloads (events tr)).getLast? with
  | none =>
      -- without a download there is no latest photo
      rw [List.getLast?_eq_none_iff.mp hlast, latestPhoto_nil] at hlatest
      cases hlatest
  | some d => rw [h.image_of_done hdone hlast, Option.bind_some]

/-- **When photos are right.** -/
theorem photos_right_iff (hrun : Run urlOfString uiImage image tr self) :
    PhotosRight urlOfString uiImage tr self ↔ Harmless urlOfString uiImage image (events tr) := by
  constructor
  · intro h
    exact ⟨hrun.safe_iff.mp h.safe, hrun.unchanged_iff.mp h.unchanged, hrun.latest_iff.mp h.latest⟩
  · intro h
    exact ⟨fun url => asyncLoadingPhoto_ok_iff.mpr rfl, hrun.safe_iff.mpr h.data,
      hrun.unchanged_iff.mpr h.noBlank, hrun.latest_iff.mpr h.lastIsLatest⟩

/-- What `run` does is a run. -/
theorem Run.of_run {events' : List (Event Data)}
    (h : Transition.run (step urlOfString uiImage) (fun _ _ => true) (.showing image) events' =
      some self) : ∃ tr, Run urlOfString uiImage image tr self ∧ events tr = events' := by
  have hstart : Run urlOfString uiImage image [] (.showing image) := .start rfl
  obtain ⟨tr, htr, hevents⟩ := Transition.Trace.of_run (fun _ _ _ => trivial) hstart h
  exact ⟨tr, htr, hevents⟩

/-- `URL(string:)` on the strings of the samples. -/
def sampleUrl (s : String) : Option String := if s = "" then none else some s

/-- `UIImage(data:)` on the data of the samples. -/
def sampleImage (data : String) : Option String := if data = "" then none else some data

/-- The profile changes twice, and the downloads end in this order. -/
def twoChanges (first second : Nat × String) : List (Event String) :=
  [.call "old", .call "new", .downloaded first.1 (some first.2),
    .downloaded second.1 (some second.2), .display, .display]

theorem photos_right_sample : ∃ tr self, Run sampleUrl sampleImage none tr self ∧
    (PhotosRight sampleUrl sampleImage tr self ↔
      Harmless sampleUrl sampleImage none (events tr)) := by
  have hrun : Transition.run (step sampleUrl sampleImage) (fun _ _ => true) (.showing none)
      (twoChanges (0, "old photo") (1, "new photo")) =
        some ⟨some "new photo", ["old", "new"], [], []⟩ := by
    decide +kernel
  obtain ⟨tr, htr, -⟩ := Run.of_run hrun
  exact ⟨tr, _, htr, photos_right_iff htr⟩

/-- The download of the old photo ends last, and the old photo stays. -/
theorem old_photo_stays :
    ¬ ∀ (image : Option String)
      (tr : List (UIImageView String String String × Event String × UIImageView String String String))
      (self : UIImageView String String String),
      Run sampleUrl sampleImage image tr self → PhotosRight sampleUrl sampleImage tr self := by
  intro h
  have hrun : Transition.run (step sampleUrl sampleImage) (fun _ _ => true) (.showing none)
      (twoChanges (1, "new photo") (0, "old photo")) =
        some ⟨some "old photo", ["old", "new"], [], []⟩ := by
    decide +kernel
  obtain ⟨tr, htr, hevents⟩ := Run.of_run hrun
  have hlatest : latestPhoto sampleImage 2 (downloads (events tr)) = some "new photo" := by
    rw [hevents]
    decide +kernel
  have hshown := (h none tr _ htr).latest rfl rfl "new photo" hlatest
  exact absurd hshown (by decide)

/-! ### One photo after the other -/

/-- Data that are images keep the view filled. -/
theorem isChain_images {events : List (Event Data)}
    (h : ∀ d ∈ downloads events, (photo uiImage d).isSome) :
    (images uiImage image events).IsChain fun before after => before.isSome → after.isSome := by
  have hshown : ∀ i ∈ (shown events).map (photo uiImage), i.isSome := by
    intro i hi
    obtain ⟨d, hd, rfl⟩ := List.mem_map.mp hi
    exact h d (List.mem_of_mem_take hd)
  refine List.isChain_cons.mpr ⟨fun i hi _ => hshown i (List.mem_of_mem_head? hi), ?_⟩
  refine List.Pairwise.isChain (List.pairwise_of_forall_mem_list ?_)
  exact fun _ _ i hi _ => hshown i hi

/-- When the downloads end in order, the latest photo is the last one. -/
theorem latestPhoto_concat {init : List (Nat × Option Data)} {k : Nat} {data : Option Data}
    {i : Image} (hinit : init.map Prod.fst = List.range k) (hi : photo uiImage (k, data) = some i) :
    latestPhoto uiImage (k + 1) (init ++ [(k, data)]) = some i := by
  have hnone : init.lookup k = none := by
    rw [List.lookup_eq_none_iff]
    intro d hd
    have hlt : d.1 < k := List.mem_range.mp (hinit ▸ List.mem_map_of_mem hd)
    simpa using hlt.ne'
  have hlookup : (init ++ [(k, data)]).lookup k = some data := by
    rw [List.lookup_append, hnone]
    simp
  rw [latestPhoto, List.range_succ, List.reverse_append, List.reverse_singleton,
    List.singleton_append, List.findSome?_cons, hlookup, Option.bind_some]
  have hbind : data.bind uiImage = some i := hi
  rw [hbind]

/-- Downloads that end in the order of their requests, and all bring images, are harmless. -/
theorem Run.harmless_of_sorted (h : Run urlOfString uiImage image tr self)
    (hphoto : ∀ d ∈ downloads (events tr), (photo uiImage d).isSome)
    (hsorted : ((downloads (events tr)).map Prod.fst).Pairwise (· < ·)) :
    Harmless urlOfString uiImage image (events tr) := by
  refine ⟨fun d hd => Option.isSome_of_isSome_bind (hphoto d hd), isChain_images hphoto, ?_⟩
  intro hdone i hlatest
  have hnumbers := h.history.numbers
  rw [(h.done_iff.mpr hdone).1, h.history.requests, List.nil_append] at hnumbers
  have hrange : (downloads (events tr)).map Prod.fst =
      List.range (requested urlOfString (events tr)) :=
    hnumbers.eq_of_pairwise' hsorted List.pairwise_lt_range
  rcases List.eq_nil_or_concat (downloads (events tr)) with hnil | ⟨init, ⟨k, data⟩, hconcat⟩
  · rw [hnil, latestPhoto_nil] at hlatest
    cases hlatest
  · rw [List.concat_eq_append] at hconcat
    obtain ⟨n, hn⟩ : ∃ n, requested urlOfString (events tr) = n + 1 :=
      Nat.exists_eq_succ_of_ne_zero fun hzero => by simp [hzero, hconcat] at hrange
    -- the last download is the one with the last number
    rw [hn, List.range_succ, hconcat, List.map_append] at hrange
    obtain ⟨hinit, hlast⟩ := List.append_inj' hrange rfl
    obtain rfl : k = n := by simpa using hlast
    obtain ⟨i', hi'⟩ := Option.isSome_iff_exists.mp (hphoto (k, data) (by simp [hconcat]))
    rw [hn, hconcat, latestPhoto_concat hinit hi'] at hlatest
    rw [hconcat, List.getLast?_concat, Option.bind_some, hi', hlatest]

/-! ### Who calls -/

/-- Up to the first block, a call is the forced unwrap of its url. -/
theorem asyncLoadingPhoto_bind {β : Type} {url : Option String} (x : Except Fault β) :
    (asyncLoadingPhoto urlOfString self url >>= fun _ => x) = unwrap "url" url >>= fun _ => x := by
  cases url with
  | none => rfl
  | some url =>
      obtain ⟨self', hself'⟩ : ∃ self', asyncLoadingPhoto urlOfString self (some url) = .ok self' :=
        asyncLoadingPhoto_ok_iff.mpr rfl
      rw [hself']
      rfl

/-- The friend observer calls `asyncLoadingPhoto` with the `avatarUrl` of each snapshot. -/
theorem friendValue_eq (dev : Device) (i screen : Nat) (snapshot : Snapshot) :
    ChatBoxViewController.friendValue dev i screen snapshot = do
      let dict ← unwrap "dict" snapshot.dictionary?
      let _ ← asyncLoadingPhoto urlOfString self (dict.string? "avatarUrl")
      let name ← unwrap "name" (dict.string? "name")
      let dev := dev.delivered i (.friend screen) snapshot
      return { dev with
        screens := dev.screens.modify screen fun vc => { vc with nameLabel := name } } := by
  rw [ChatBoxViewController.friendValue]
  refine bind_congr fun dict => ?_
  rw [asyncLoadingPhoto_bind]

/-- A row of the home screen calls it for its two image views. -/
theorem rowAsyncLoadingPhoto_ok_iff {row : ChatTableRow} {url : Option String}
    {imageView : RowImage} : (∃ row', row.asyncLoadingPhoto url imageView = .ok row') ↔
      ∃ self', asyncLoadingPhoto urlOfString self url = .ok self' := by
  rw [asyncLoadingPhoto_ok_iff]
  cases url with
  | none => simp [ChatTableRow.asyncLoadingPhoto, unwrap, bind, Except.bind]
  | some url => exact ⟨fun _ => rfl, fun _ => ⟨_, rfl⟩⟩

end PhotoHelper

end MyChat
