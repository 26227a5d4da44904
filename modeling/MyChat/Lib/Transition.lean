import Mathlib.Data.Set.Insert
import Mathlib.Data.Set.Lattice
import Mathlib.Data.List.Induction

/-!
# Transition

**Runs of a step function that can fail.** A system is given by
`step : σ → α → Except ε σ`: an action either leads to the next state or fails
(it is not enabled, or it stops the process). `Reach step init guard` are the
states that some run reaches when every action taken satisfies `guard` in the
state it is taken in; `Reach.invariant` is the induction over such runs.

The second half is about first-in first-out queues whose entries depend on
earlier ones: `Causal ok H xs` says that each entry of `xs` finds what it needs
among the facts `H` and the entries before it. Taking the head moves it into `H`
and keeps the rest causal (`Causal.tail`), other queues profit from a growing `H`
(`Causal.mono`), and appending needs only the new entries to be checked
(`Causal.append_iff`).
-/

namespace Transition

variable {σ α ε : Type*}

/-- The states reached from `init` by runs whose steps all satisfy `guard`. -/
inductive Reach (step : σ → α → Except ε σ) (init : σ → Prop) (guard : σ → α → Prop) : σ → Prop
  | start {s : σ} : init s → Reach step init guard s
  | next {s s' : σ} {a : α} : Reach step init guard s → guard s a → step s a = .ok s' →
      Reach step init guard s'

variable {step : σ → α → Except ε σ} {init : σ → Prop} {guard guard' : σ → α → Prop}

/-- **Invariants.** A property of the initial states that every allowed step keeps
holds in every state reached. The step may use that its source is reachable. -/
theorem Reach.invariant {I : σ → Prop} (hinit : ∀ s, init s → I s)
    (hstep : ∀ s a s', Reach step init guard s → I s → guard s a → step s a = .ok s' → I s')
    {s : σ} (h : Reach step init guard s) : I s := by
  induction h with
  | start h => exact hinit _ h
  | next hr hg hs ih => exact hstep _ _ _ hr ih hg hs

/-- Steps from reachable states may be judged by another guard. -/
theorem Reach.mono_of_reach (hg : ∀ s a, Reach step init guard s → guard s a → guard' s a) {s : σ}
    (h : Reach step init guard s) : Reach step init guard' s := by
  induction h with
  | start h => exact .start h
  | next hr hga hs ih => exact .next ih (hg _ _ hr hga) hs

/-- A weaker guard reaches more. -/
theorem Reach.mono (hg : ∀ s a, guard s a → guard' s a) {s : σ} (h : Reach step init guard s) :
    Reach step init guard' s :=
  h.mono_of_reach fun s a _ => hg s a

/-- Take the actions of a list in order, as long as they are allowed and succeed. -/
def run (step : σ → α → Except ε σ) (allowed : σ → α → Bool) : σ → List α → Option σ
  | s, [] => some s
  | s, a :: as =>
      if allowed s a then
        match step s a with
        | .ok s' => run step allowed s' as
        | .error _ => none
      else none

/-- The steps that the actions of a list take, up to the first that fails. -/
def steps (step : σ → α → Except ε σ) : σ → List α → List (σ × α × σ)
  | _, [] => []
  | s, a :: as =>
      match step s a with
      | .ok s' => (s, a, s') :: steps step s' as
      | .error _ => []

theorem run_cons_eq_some {allowed : σ → α → Bool} {s s' : σ} {a : α} {as : List α} :
    run step allowed s (a :: as) = some s' ↔
      allowed s a = true ∧ ∃ t, step s a = .ok t ∧ run step allowed t as = some s' := by
  rw [run]
  by_cases ha : allowed s a = true
  · rw [if_pos ha]
    cases step s a <;> simp [ha]
  · simp [ha]

/-- What `run` computes is reachable. -/
theorem Reach.of_run {allowed : σ → α → Bool} (hallowed : ∀ s a, allowed s a = true → guard s a)
    {s s' : σ} {as : List α} (h : Reach step init guard s)
    (hrun : run step allowed s as = some s') : Reach step init guard s' := by
  induction as generalizing s with
  | nil =>
      obtain rfl : s = s' := by simpa [run] using hrun
      exact h
  | cons a as ih =>
      obtain ⟨ha, t, ht, hrun⟩ := run_cons_eq_some.mp hrun
      exact ih (.next h (hallowed s a ha) ht) hrun

/-! ### Runs with their steps -/

/-- A run with the steps it took, oldest first. -/
inductive Trace (step : σ → α → Except ε σ) (init : σ → Prop) (guard : σ → α → Prop) :
    List (σ × α × σ) → σ → Prop
  | start {s : σ} : init s → Trace step init guard [] s
  | next {tr : List (σ × α × σ)} {s s' : σ} {a : α} : Trace step init guard tr s → guard s a →
      step s a = .ok s' → Trace step init guard (tr ++ [(s, a, s')]) s'

namespace Trace

variable {tr : List (σ × α × σ)} {s : σ} {P : σ → α → Prop}

/-- A run whose steps all satisfy `P` is a run under the stronger guard. -/
theorem strengthen (h : Trace step init guard tr s) (hP : ∀ x ∈ tr, P x.1 x.2.1) :
    Trace step init (fun s a => guard s a ∧ P s a) tr s := by
  induction h with
  | start h => exact .start h
  | @next tr s s' a _ hg hs ih =>
      have ih := ih fun x hx => hP x (List.mem_append_left _ hx)
      exact .next ih ⟨hg, hP (s, a, s') (by simp)⟩ hs

theorem reachable (h : Trace step init guard tr s) : Reach step init guard s := by
  induction h with
  | start h => exact .start h
  | next _ hg hs ih => exact .next ih hg hs

theorem reach (h : Trace step init guard tr s) (hP : ∀ x ∈ tr, P x.1 x.2.1) :
    Reach step init (fun s a => guard s a ∧ P s a) s :=
  (h.strengthen hP).reachable

/-- The steps of a run are steps, from states that its beginning reaches. -/
theorem mem (h : Trace step init guard tr s) {x : σ × α × σ} (hx : x ∈ tr) :
    (∃ tr', tr' <+: tr ∧ Trace step init guard tr' x.1) ∧ guard x.1 x.2.1 ∧
      step x.1 x.2.1 = .ok x.2.2 := by
  induction h with
  | start => simp at hx
  | @next tr s s' a h hg hs ih =>
      rcases List.mem_append.mp hx with hx | hx
      · obtain ⟨⟨tr', hpre, htr'⟩, hstep⟩ := ih hx
        exact ⟨⟨tr', hpre.trans (List.prefix_append tr _), htr'⟩, hstep⟩
      · obtain rfl := List.mem_singleton.mp hx
        exact ⟨⟨tr, List.prefix_append tr _, h⟩, hg, hs⟩

/-- A run is a run up to any of its steps, that step, and a run from there on. -/
theorem split {tr₁ tr₂ : List (σ × α × σ)} {x : σ × α × σ}
    (h : Trace step init guard (tr₁ ++ x :: tr₂) s) :
    Trace step init guard tr₁ x.1 ∧ guard x.1 x.2.1 ∧ step x.1 x.2.1 = .ok x.2.2 ∧
      Trace step (fun s => s = x.2.2) guard tr₂ s := by
  induction tr₂ using List.reverseRecOn generalizing s with
  | nil =>
      generalize htr : tr₁ ++ [x] = tr at h
      cases h with
      | start => simp at htr
      | next h hg hs =>
          obtain ⟨rfl, hx⟩ := List.append_inj' htr rfl
          obtain rfl := (List.cons.inj hx).1
          exact ⟨h, hg, hs, .start rfl⟩
  | append_singleton tr₂ y ih =>
      -- the last step of the run is `y`
      generalize htr : tr₁ ++ x :: (tr₂ ++ [y]) = tr at h
      cases h with
      | start => simp at htr
      | next h hg hs =>
          rw [← List.cons_append, ← List.append_assoc] at htr
          obtain ⟨rfl, hy⟩ := List.append_inj' htr rfl
          obtain rfl := (List.cons.inj hy).1
          obtain ⟨h₁, hgx, hx, h₂⟩ := ih h
          exact ⟨h₁, hgx, hx, .next h₂ hg hs⟩

/-- What `run` does is a trace. -/
theorem steps_of_run {allowed : σ → α → Bool} (hallowed : ∀ s a, allowed s a = true → guard s a)
    {s s' : σ} {as : List α} (h : Trace step init guard tr s)
    (hrun : run step allowed s as = some s') :
    Trace step init guard (tr ++ steps step s as) s' ∧ (steps step s as).map (fun x => x.2.1) = as := by
  induction as generalizing s tr with
  | nil =>
      obtain rfl : s = s' := by simpa [run] using hrun
      exact ⟨by simpa [steps] using h, rfl⟩
  | cons a as ih =>
      obtain ⟨ha, t, ht, hrun⟩ := run_cons_eq_some.mp hrun
      obtain ⟨htr, hmap⟩ := ih (.next h (hallowed s a ha) ht) hrun
      simp only [steps, ht]
      exact ⟨by simpa using htr, by rw [List.map_cons, hmap]⟩

theorem of_run {allowed : σ → α → Bool} (hallowed : ∀ s a, allowed s a = true → guard s a)
    {s s' : σ} {as : List α} (h : Trace step init guard tr s)
    (hrun : run step allowed s as = some s') : ∃ tr', Trace step init guard (tr ++ tr') s' ∧
      tr'.map (fun x => x.2.1) = as :=
  ⟨steps step s as, steps_of_run hallowed h hrun⟩

end Trace

/-! ### Queues with dependencies -/

/-- Every entry of the queue is `ok` given the facts `H` and the entries before it. -/
def Causal {β : Type*} (ok : Set β → β → Prop) (H : Set β) : List β → Prop
  | [] => True
  | x :: xs => ok H x ∧ Causal ok (insert x H) xs

namespace Causal

variable {β : Type*} {ok : Set β → β → Prop} {H H' : Set β} {x : β} {xs ys : List β}

@[simp] theorem nil : Causal ok H [] := trivial

theorem head (h : Causal ok H (x :: xs)) : ok H x := h.1

/-- Taking the head makes it a fact for the rest. -/
theorem tail (h : Causal ok H (x :: xs)) : Causal ok (insert x H) xs := h.2

/-- More facts keep a queue causal, when `ok` only asks for facts to be there. -/
theorem mono (hok : ∀ {H H' x}, H ⊆ H' → ok H x → ok H' x) (hH : H ⊆ H')
    (h : Causal ok H xs) : Causal ok H' xs := by
  induction xs generalizing H H' with
  | nil => trivial
  | cons x xs ih => exact ⟨hok hH h.1, ih (Set.insert_subset_insert hH) h.2⟩

theorem append_iff : Causal ok H (xs ++ ys) ↔ Causal ok H xs ∧ Causal ok (H ∪ {x | x ∈ xs}) ys := by
  induction xs generalizing H with
  | nil => simp
  | cons x xs ih =>
      have hset : insert x H ∪ {y | y ∈ xs} = H ∪ {y | y ∈ x :: xs} := by
        ext y
        simp only [Set.mem_union, Set.mem_insert_iff, Set.mem_ofPred_eq, List.mem_cons]
        tauto
      rw [List.cons_append, Causal, Causal, ih, hset, and_assoc]

/-- Each entry is `ok` given all facts and all entries. -/
theorem ok_of_mem (hok : ∀ {H H' x}, H ⊆ H' → ok H x → ok H' x) (h : Causal ok H xs) (hx : x ∈ xs) :
    ok (H ∪ {x | x ∈ xs}) x := by
  obtain ⟨ys, zs, rfl⟩ := List.append_of_mem hx
  refine hok ?_ (append_iff.mp h).2.head
  intro y hy
  rcases hy with hy | hy
  · exact Or.inl hy
  · exact Or.inr (List.mem_append_left _ hy)

end Causal

end Transition
