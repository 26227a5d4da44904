import Mathlib.Logic.Function.Basic
import Mathlib.Data.List.Nodup

/-!
# NetChange

**What several changes to a map amount to.** A map `κ → Option α` is changed one key at a
time; a `Change` is one of the three ways to do so and records what was there and what is
there now. `Leads f cs f'` says that the changes `cs`, one after another, turn `f` into
`f'`: each finds what it says was there.

An accumulator keeps one change for each key. `Change.compose` puts a change after the
one kept so far, which may leave nothing, and fails on changes that do not meet.
`Tracks f acc f'` says that what the accumulator keeps is the difference between `f` and
`f'`. Changes that lead from `f'` to `f''` always meet what is kept, and then the
difference between `f` and `f''` is kept (`Tracks.leads`).
-/

namespace NetChange

variable {κ α : Type*}

/-- A change under one key. -/
inductive Change (α : Type*)
  | added (new : α)
  | removed (old : α)
  | changed (new old : α)
  deriving DecidableEq, Repr

namespace Change

/-- What was there. -/
def before : Change α → Option α
  | added _ => none
  | removed old => some old
  | changed _ old => some old

/-- What is there now. -/
def after : Change α → Option α
  | added new => some new
  | removed _ => none
  | changed new _ => some new

@[simp] theorem before_added (a : α) : (added a).before = none := rfl
@[simp] theorem before_removed (a : α) : (removed a).before = some a := rfl
@[simp] theorem before_changed (a b : α) : (changed a b).before = some b := rfl
@[simp] theorem after_added (a : α) : (added a).after = some a := rfl
@[simp] theorem after_removed (a : α) : (removed a).after = none := rfl
@[simp] theorem after_changed (a b : α) : (changed a b).after = some a := rfl

/-- `d` after `c`: `some none` if nothing is left of them, `none` if they do not fit. -/
def compose (c d : Change α) : Option (Option (Change α)) :=
  match d, c with
  | added new, removed old => some (some (changed new old))
  | removed _, added _ => some none
  | removed _, changed _ old => some (some (removed old))
  | changed new _, added _ => some (some (added new))
  | changed new _, changed _ old => some (some (changed new old))
  | _, _ => none

/-- What is kept goes from `before` to `after`: nothing, only if they are the same. -/
def Spans (before after : Option α) : Option (Change α) → Prop
  | none => before = after
  | some e => e.before = before ∧ e.after = after

/-- Changes that meet can be composed. -/
theorem compose_of_meet {c d : Change α} (h : c.after = d.before) :
    ∃ e, compose c d = some e ∧ Spans c.before d.after e := by
  cases c with
  | added a =>
      cases d with
      | added b => cases h
      | removed b => exact ⟨_, rfl, rfl⟩
      | changed b b' => exact ⟨_, rfl, rfl, rfl⟩
  | removed a =>
      cases d with
      | added b => exact ⟨_, rfl, rfl, rfl⟩
      | removed b => cases h
      | changed b b' => cases h
  | changed a a' =>
      cases d with
      | added b => cases h
      | removed b => exact ⟨_, rfl, rfl, rfl⟩
      | changed b b' => exact ⟨_, rfl, rfl, rfl⟩

end Change

variable [DecidableEq κ]

/-! ### Changes one after another -/

/-- The changes turn the first map into the second. -/
def Leads (f : κ → Option α) : List (κ × Change α) → (κ → Option α) → Prop
  | [], f' => f = f'
  | (k, c) :: cs, f' => f k = c.before ∧ Leads (Function.update f k c.after) cs f'

variable {f f' f'' : κ → Option α} {k : κ} {c : Change α} {cs ds : List (κ × Change α)}

@[simp] theorem leads_nil : Leads f [] f' ↔ f = f' := Iff.rfl

theorem leads_cons :
    Leads f ((k, c) :: cs) f' ↔ f k = c.before ∧ Leads (Function.update f k c.after) cs f' :=
  Iff.rfl

theorem leads_append : Leads f (cs ++ ds) f'' ↔ ∃ f', Leads f cs f' ∧ Leads f' ds f'' := by
  induction cs generalizing f with
  | nil => simp
  | cons x cs ih =>
      obtain ⟨k, c⟩ := x
      simp only [List.cons_append, leads_cons, ih, ← exists_and_left, and_assoc]

/-- Changes determine where they lead. -/
theorem Leads.unique (h : Leads f cs f') (h' : Leads f cs f'') : f' = f'' := by
  induction cs generalizing f with
  | nil => exact h.symm.trans h'
  | cons x cs ih => exact ih h.2 h'.2

/-- A key that no change mentions keeps its value. -/
theorem Leads.eq_of_forall_ne (h : Leads f cs f') (hk : ∀ x ∈ cs, x.1 ≠ k) : f' k = f k := by
  induction cs generalizing f with
  | nil => rw [leads_nil.mp h]
  | cons x cs ih =>
      obtain ⟨hx, hxs⟩ := List.forall_mem_cons.mp hk
      rw [ih h.2 hxs, Function.update_of_ne hx.symm]

/-- Changes under different keys lead from `f` to `f'` if each says what is there before
and after, and no other key differs. -/
theorem leads_of_nodup (hkeys : (cs.map Prod.fst).Nodup)
    (hmem : ∀ x ∈ cs, f x.1 = x.2.before ∧ f' x.1 = x.2.after)
    (hother : ∀ k, k ∉ cs.map Prod.fst → f k = f' k) : Leads f cs f' := by
  induction cs generalizing f with
  | nil => exact funext fun k => hother k (by simp)
  | cons x cs ih =>
      obtain ⟨k, c⟩ := x
      obtain ⟨hnotin, hkeys⟩ := List.nodup_cons.mp hkeys
      obtain ⟨⟨hbefore, hafter⟩, hmem⟩ := List.forall_mem_cons.mp hmem
      refine ⟨hbefore, ih hkeys (fun x hx => ?_) fun j hj => ?_⟩
      · have hne : x.1 ≠ k := fun h => hnotin (h ▸ List.mem_map.mpr ⟨x, hx, rfl⟩)
        rw [Function.update_of_ne hne]
        exact hmem x hx
      · by_cases hjk : j = k
        · subst hjk
          rw [Function.update_self, hafter]
        · rw [Function.update_of_ne hjk]
          exact hother j (by simp [hjk, hj])

/-! ### Accumulated changes -/

/-- What is kept for each key is the difference between the two maps. -/
def Tracks (f : κ → Option α) (acc : κ → Option (Change α)) (f' : κ → Option α) : Prop :=
  ∀ k, Change.Spans (f k) (f' k) (acc k)

omit [DecidableEq κ] in
theorem tracks_refl (f : κ → Option α) : Tracks f (fun _ => none) f := fun _ => rfl

/-- One more change. -/
def track (acc : κ → Option (Change α)) (k : κ) (c : Change α) : Option (κ → Option (Change α)) :=
  match acc k with
  | none => some (Function.update acc k (some c))
  | some old => (Change.compose old c).map (Function.update acc k)

/-- A change that finds what is there can be tracked. -/
theorem Tracks.track {acc : κ → Option (Change α)} (h : Tracks f acc f') (hc : f' k = c.before) :
    ∃ acc', NetChange.track acc k c = some acc' ∧ Tracks f acc' (Function.update f' k c.after) := by
  have hother : ∀ {e : Option (Change α)}, Change.Spans (f k) c.after e →
      Tracks f (Function.update acc k e) (Function.update f' k c.after) := by
    intro e he j
    by_cases hj : j = k
    · subst hj
      simpa using he
    · simpa [hj] using h j
  have hk := h k
  unfold NetChange.track
  cases hacc : acc k with
  | none =>
      rw [hacc] at hk
      exact ⟨_, rfl, hother ⟨hc.symm.trans hk.symm, rfl⟩⟩
  | some old =>
      rw [hacc] at hk
      obtain ⟨e, he, hspans⟩ := Change.compose_of_meet (hk.2.trans hc)
      rw [hk.1] at hspans
      exact ⟨_, by dsimp only; rw [he]; rfl, hother hspans⟩

/-- **Tracking.** Changes that lead on from the second map can be tracked, and what is
kept then is the difference to where they lead. -/
theorem Tracks.leads {acc : κ → Option (Change α)} (h : Tracks f acc f') (hcs : Leads f' cs f'') :
    ∃ acc', cs.foldlM (fun acc x => NetChange.track acc x.1 x.2) acc = some acc' ∧
      Tracks f acc' f'' := by
  induction cs generalizing acc f' with
  | nil =>
      rw [leads_nil] at hcs
      exact ⟨acc, rfl, hcs ▸ h⟩
  | cons x cs ih =>
      obtain ⟨k, c⟩ := x
      obtain ⟨hc, hcs⟩ := leads_cons.mp hcs
      obtain ⟨acc₁, hacc₁, h₁⟩ := h.track hc
      obtain ⟨acc₂, hacc₂, h₂⟩ := ih h₁ hcs
      exact ⟨acc₂, by rw [List.foldlM_cons, hacc₁]; exact hacc₂, h₂⟩

/-- What is kept, in any order, leads from the first map to the second. -/
theorem Tracks.leads_of_mem {acc : κ → Option (Change α)} (h : Tracks f acc f')
    (hkeys : (cs.map Prod.fst).Nodup) (hmem : ∀ x, x ∈ cs ↔ acc x.1 = some x.2) : Leads f cs f' := by
  refine leads_of_nodup hkeys (fun x hx => ?_) fun k hk => ?_
  · have hspans := h x.1
    rw [(hmem x).mp hx] at hspans
    exact ⟨hspans.1.symm, hspans.2.symm⟩
  · have hspans := h k
    cases hacc : acc k with
    | none =>
        rw [hacc] at hspans
        exact hspans
    | some c => exact absurd (List.mem_map_of_mem ((hmem (k, c)).mpr hacc)) hk

/-! ### One change for each key -/

/-- A single change for each key, and each of them a difference. -/
structure Distinct (cs : List (κ × Change α)) : Prop where
  keys : (cs.map Prod.fst).Nodup
  differ : ∀ x ∈ cs, x.2.before ≠ x.2.after

omit [DecidableEq κ] in
theorem distinct_nil : Distinct ([] : List (κ × Change α)) := ⟨by simp, by simp⟩

omit [DecidableEq κ] in
theorem distinct_singleton (k : κ) {c : Change α} (h : c.before ≠ c.after) : Distinct [(k, c)] :=
  ⟨by simp, by simpa using h⟩

omit [DecidableEq κ] in
theorem Distinct.append (h : Distinct cs) (h' : Distinct ds)
    (hdisj : ∀ x ∈ cs, ∀ y ∈ ds, x.1 ≠ y.1) : Distinct (cs ++ ds) where
  keys := by
    rw [List.map_append, List.nodup_append']
    refine ⟨h.keys, h'.keys, fun k hk hk' => ?_⟩
    obtain ⟨x, hx, rfl⟩ := List.mem_map.mp hk
    obtain ⟨y, hy, heq⟩ := List.mem_map.mp hk'
    exact hdisj x hx y hy heq.symm
  differ := fun x hx => (List.mem_append.mp hx).elim (h.differ x) (h'.differ x)

/-- With one change for each key, every change tells what is there before all and after. -/
theorem Leads.of_mem (h : Leads f cs f') (hkeys : (cs.map Prod.fst).Nodup) {x : κ × Change α}
    (hx : x ∈ cs) : f x.1 = x.2.before ∧ f' x.1 = x.2.after := by
  induction cs generalizing f with
  | nil => cases hx
  | cons y cs ih =>
      obtain ⟨k, c⟩ := y
      obtain ⟨hnotin, hkeys⟩ := List.nodup_cons.mp hkeys
      have hne : ∀ y ∈ cs, y.1 ≠ k := fun y hy heq => hnotin (List.mem_map.mpr ⟨y, hy, heq⟩)
      rcases List.mem_cons.mp hx with rfl | hx
      · exact ⟨h.1, by rw [h.2.eq_of_forall_ne hne, Function.update_self]⟩
      · have hrest := ih h.2 hkeys hx
        rwa [Function.update_of_ne (hne x hx)] at hrest

/-- Nothing is kept for keys that no change mentions. -/
theorem foldlM_track_of_notin {acc acc' : κ → Option (Change α)}
    (h : cs.foldlM (fun acc x => NetChange.track acc x.1 x.2) acc = some acc')
    (hk : ∀ x ∈ cs, x.1 ≠ k) : acc' k = acc k := by
  induction cs generalizing acc with
  | nil =>
      cases h
      rfl
  | cons x cs ih =>
      obtain ⟨hx, hxs⟩ := List.forall_mem_cons.mp hk
      rw [List.foldlM_cons] at h
      obtain ⟨acc₁, hacc₁, h⟩ := Option.bind_eq_some_iff.mp h
      rw [ih h hxs]
      unfold NetChange.track at hacc₁
      split at hacc₁
      · cases hacc₁
        exact Function.update_of_ne hx.symm _ _
      · obtain ⟨e, -, rfl⟩ := Option.map_eq_some_iff.mp hacc₁
        exact Function.update_of_ne hx.symm _ _

/-- What is kept for distinct changes is a difference. -/
theorem Distinct.differ_of_tracks (hd : Distinct cs) (h : Leads f cs f')
    {acc : κ → Option (Change α)} (htracks : Tracks f acc f')
    (hacc : cs.foldlM (fun acc x => NetChange.track acc x.1 x.2) (fun _ => none) = some acc)
    (hc : acc k = some c) : c.before ≠ c.after := by
  have hspans := htracks k
  rw [hc] at hspans
  rw [hspans.1, hspans.2]
  by_cases hk : ∃ x ∈ cs, x.1 = k
  · obtain ⟨x, hx, rfl⟩ := hk
    obtain ⟨hbefore, hafter⟩ := h.of_mem hd.keys hx
    rw [hbefore, hafter]
    exact hd.differ x hx
  · rw [foldlM_track_of_notin hacc fun x hx heq => hk ⟨x, hx, heq⟩] at hc
    cases hc

end NetChange
