import MyChat.Lib.Transition
import Mathlib.Data.List.Infix
import Mathlib.Data.List.Chain

/-!
# Watch

**Watching a value along a run.** In each state there is a value; some actions tell it
to a watcher. The watcher is told the value of the moment, and only if it is news
(`Watch.Lawful`), but by itself nothing says when: a value may come and go unnoticed.

`Watch.told_eq` is about runs in which that does not happen, neither along the way
(`Watch.Prompt`) nor at the end: the watcher is told the first value and then every
change, in order.
-/

namespace Transition

variable {σ α ε V : Type*}

/-- A value, what the watcher was told last, and the actions that tell it. -/
structure Watch (σ α V : Type*) where
  value : σ → V
  last : σ → Option V
  tells : α → Bool

namespace Watch

variable (W : Watch σ α V)

/-- The watcher is told the present value when it is news, and by no other action. -/
structure Lawful (x : σ × α × σ) : Prop where
  news : W.tells x.2.1 = true → W.last x.1 ≠ some (W.value x.1)
  told : W.tells x.2.1 = true → W.last x.2.2 = some (W.value x.1)
  quiet : W.tells x.2.1 = false → W.last x.2.2 = W.last x.1

/-- The value is left only after the watcher was told. -/
def Prompt (x : σ × α × σ) : Prop :=
  W.value x.2.2 ≠ W.value x.1 → W.tells x.2.1 = true ∨ W.last x.1 = some (W.value x.1)

instance [DecidableEq V] (x : σ × α × σ) : Decidable (W.Prompt x) :=
  inferInstanceAs (Decidable
    (W.value x.2.2 ≠ W.value x.1 → W.tells x.2.1 = true ∨ W.last x.1 = some (W.value x.1)))

/-- What the watcher is told in a run. -/
def told (tr : List (σ × α × σ)) : List V :=
  tr.filterMap fun x => if W.tells x.2.1 then some (W.value x.1) else none

@[simp] theorem told_nil : W.told [] = [] := rfl

theorem told_append (tr tr' : List (σ × α × σ)) : W.told (tr ++ tr') = W.told tr ++ W.told tr' :=
  List.filterMap_append

variable {W}

theorem told_of_tells {tr : List (σ × α × σ)} {s s' : σ} {a : α} (h : W.tells a = true) :
    W.told (tr ++ [(s, a, s')]) = W.told tr ++ [W.value s] := by
  rw [told_append]
  simp [told, h]

theorem told_of_quiet {tr : List (σ × α × σ)} {s s' : σ} {a : α} (h : W.tells a = false) :
    W.told (tr ++ [(s, a, s')]) = W.told tr := by
  rw [told_append]
  simp [told, h]

theorem mem_told {tr : List (σ × α × σ)} {v : V} :
    v ∈ W.told tr ↔ ∃ x ∈ tr, W.tells x.2.1 = true ∧ W.value x.1 = v := by
  simp [told]

/-- Relating what is told earlier to what is told later is relating the steps that tell. -/
theorem pairwise_told {R : V → V → Prop} {tr : List (σ × α × σ)} :
    (W.told tr).Pairwise R ↔
      tr.Pairwise fun x y => W.tells x.2.1 → W.tells y.2.1 → R (W.value x.1) (W.value y.1) := by
  rw [told, List.pairwise_filterMap]
  refine List.Pairwise.iff fun x y => ?_
  by_cases hx : W.tells x.2.1 <;> by_cases hy : W.tells y.2.1 <;> simp [hx, hy]

/-- A watcher that was told something is told once if that is all it is told. -/
theorem told_once_iff {tr : List (σ × α × σ)} {v : V} {vs : List V} (h : W.told tr = v :: vs) :
    (tr.Pairwise fun x y => W.tells x.2.1 → ¬ W.tells y.2.1) ↔ vs = [] := by
  have hpair : (W.told tr).Pairwise (fun _ _ => False) ↔ vs = [] := by
    rw [h, List.pairwise_cons, List.eq_nil_iff_forall_not_mem]
    refine and_iff_left_of_imp fun hnone => ?_
    rw [List.eq_nil_iff_forall_not_mem.mpr hnone]
    exact List.Pairwise.nil
  rw [← hpair, pairwise_told]

section changes

variable [DecidableEq V] (W)

/-- The new values, in the order in which the value changes. -/
def changes (tr : List (σ × α × σ)) : List V :=
  tr.filterMap fun x => if W.value x.2.2 = W.value x.1 then none else some (W.value x.2.2)

@[simp] theorem changes_nil : W.changes [] = [] := rfl

theorem changes_append (tr tr' : List (σ × α × σ)) :
    W.changes (tr ++ tr') = W.changes tr ++ W.changes tr' :=
  List.filterMap_append

theorem changes_eq_nil_iff {tr : List (σ × α × σ)} :
    W.changes tr = [] ↔ ∀ x ∈ tr, W.value x.2.2 = W.value x.1 := by
  simp [changes]

variable {W}

theorem changes_of_eq {tr : List (σ × α × σ)} {s s' : σ} {a : α} (h : W.value s' = W.value s) :
    W.changes (tr ++ [(s, a, s')]) = W.changes tr := by
  rw [changes_append]
  simp [changes, h]

theorem changes_of_ne {tr : List (σ × α × σ)} {s s' : σ} {a : α} (h : W.value s' ≠ W.value s) :
    W.changes (tr ++ [(s, a, s')]) = W.changes tr ++ [W.value s'] := by
  rw [changes_append]
  simp [changes, h]

end changes

section runs

variable {step : σ → α → Except ε σ} {guard : σ → α → Prop} {s₀ s : σ} {tr : List (σ × α × σ)}

/-- The watcher was told last what it was told last in the run. -/
theorem last_eq (h : Trace step (fun s => s = s₀) guard tr s) (hlaw : ∀ x ∈ tr, W.Lawful x)
    (hstart : W.last s₀ = none) : W.last s = (W.told tr).getLast? := by
  induction h with
  | start h =>
      subst h
      simpa using hstart
  | @next tr s s' a h hg hs ih =>
      have hx := hlaw (s, a, s') (by simp)
      cases htells : W.tells a with
      | true => rw [hx.told htells, told_of_tells htells, List.getLast?_concat]
      | false =>
          rw [hx.quiet htells, told_of_quiet htells]
          exact ih fun x hx => hlaw x (List.mem_append_left _ hx)

variable [DecidableEq V]

/-- How far the watcher has got: it was told nothing yet, it was told everything, or
the present value is the one thing it was not told. -/
inductive Progress (W : Watch σ α V) (s₀ : σ) (tr : List (σ × α × σ)) (s : σ) : Prop
  | fresh (hlast : W.last s = none) (hvalue : W.value s = W.value s₀) (htold : W.told tr = [])
      (hchanges : W.changes tr = [])
  | settled (hlast : W.last s = some (W.value s)) (htold : W.told tr = W.value s₀ :: W.changes tr)
  | behind (hlast : W.last s ≠ none) (hne : W.last s ≠ some (W.value s))
      (htold : W.told tr ++ [W.value s] = W.value s₀ :: W.changes tr)

theorem progress (h : Trace step (fun s => s = s₀) guard tr s) (hlaw : ∀ x ∈ tr, W.Lawful x)
    (hprompt : ∀ x ∈ tr, W.Prompt x) (hstart : W.last s₀ = none) : Progress W s₀ tr s := by
  induction h with
  | start h =>
      subst h
      exact .fresh hstart rfl rfl rfl
  | @next tr s s' a h hg hs ih =>
      have hx : W.Lawful (s, a, s') := hlaw _ (by simp)
      have hp : W.Prompt (s, a, s') := hprompt _ (by simp)
      have ih := ih (fun x hx => hlaw x (List.mem_append_left _ hx))
        fun x hx => hprompt x (List.mem_append_left _ hx)
      cases htells : W.tells a with
      | true =>
          -- whatever was missing is told now; the step itself may change the value again
          have hlast := hx.told htells
          have htold : W.told (tr ++ [(s, a, s')]) = W.value s₀ :: W.changes tr := by
            rw [told_of_tells htells]
            cases ih with
            | fresh _ hvalue htold hchanges => rw [htold, hchanges, hvalue, List.nil_append]
            | settled hlast => exact absurd hlast (hx.news htells)
            | behind _ _ htold => exact htold
          by_cases hvalue : W.value s' = W.value s
          · refine .settled (by rw [hvalue]; exact hlast) ?_
            rw [htold, changes_of_eq hvalue]
          · refine .behind (fun hnone => by simp [hlast] at hnone) ?_ ?_
            · intro heq
              exact hvalue (Option.some.inj (hlast.symm.trans heq)).symm
            · rw [htold, changes_of_ne hvalue, List.cons_append]
      | false =>
          have hlast : W.last s' = W.last s := hx.quiet htells
          by_cases hvalue : W.value s' = W.value s
          · cases ih with
            | fresh hnone hv htold hchanges =>
                exact .fresh (hlast.trans hnone) (hvalue.trans hv)
                  (by rw [told_of_quiet htells, htold]) (by rw [changes_of_eq hvalue, hchanges])
            | settled hl htold =>
                refine .settled (by rw [hlast, hvalue]; exact hl) ?_
                rw [told_of_quiet htells, changes_of_eq hvalue, htold]
            | behind hnone hne htold =>
                refine .behind (by rw [hlast]; exact hnone) (by rw [hlast, hvalue]; exact hne) ?_
                rw [told_of_quiet htells, changes_of_eq hvalue, hvalue, htold]
          · -- only a watcher that knows the present value lets it go
            have hknown : W.last s = some (W.value s) :=
              (hp hvalue).resolve_left (by simp [htells])
            cases ih with
            | fresh hnone => simp [hnone] at hknown
            | settled hl htold =>
                refine .behind (by simp [hlast, hl]) ?_ ?_
                · intro heq
                  rw [hlast, hl] at heq
                  exact hvalue (Option.some.inj heq).symm
                · rw [told_of_quiet htells, changes_of_ne hvalue, htold, List.cons_append]
            | behind hnone hne => exact absurd hknown hne

/-- **What a watcher is told** in a run that misses nothing: the first value, then every
change. -/
theorem told_eq (h : Trace step (fun s => s = s₀) guard tr s) (hlaw : ∀ x ∈ tr, W.Lawful x)
    (hprompt : ∀ x ∈ tr, W.Prompt x) (hstart : W.last s₀ = none)
    (hend : W.last s = some (W.value s)) : W.told tr = W.value s₀ :: W.changes tr := by
  cases progress h hlaw hprompt hstart with
  | fresh hlast => simp [hlast] at hend
  | settled _ htold => exact htold
  | behind _ hne => exact absurd hend hne

/-- At any time the watcher was told the first changes, in order. -/
theorem told_isPrefix (h : Trace step (fun s => s = s₀) guard tr s) (hlaw : ∀ x ∈ tr, W.Lawful x)
    (hprompt : ∀ x ∈ tr, W.Prompt x) (hstart : W.last s₀ = none) :
    W.told tr <+: W.value s₀ :: W.changes tr := by
  cases progress h hlaw hprompt hstart with
  | fresh _ _ htold =>
      rw [htold]
      exact List.nil_prefix
  | settled _ htold => rw [htold]
  | behind _ _ htold => exact ⟨_, htold⟩

/-- What every change satisfies, the values of a run satisfy one after the other. -/
theorem isChain_changes {R : V → V → Prop} (h : Trace step (fun s => s = s₀) guard tr s)
    (hR : ∀ x ∈ tr, W.value x.2.2 = W.value x.1 ∨ R (W.value x.1) (W.value x.2.2)) :
    (W.value s₀ :: W.changes tr).IsChain R ∧
      (W.value s₀ :: W.changes tr).getLast? = some (W.value s) := by
  induction h with
  | start h =>
      subst h
      exact ⟨List.isChain_singleton _, rfl⟩
  | @next tr s s' a _ _ _ ih =>
      obtain ⟨hchain, hlast⟩ := ih fun x hx => hR x (List.mem_append_left _ hx)
      by_cases hvalue : W.value s' = W.value s
      · rw [changes_of_eq hvalue, hvalue]
        exact ⟨hchain, hlast⟩
      · rw [changes_of_ne hvalue, ← List.cons_append]
        refine ⟨hchain.append (List.isChain_singleton _) fun v hv v' hv' => ?_,
          List.getLast?_concat⟩
        obtain rfl := Option.some.inj (hlast.symm.trans hv)
        obtain rfl := Option.some.inj hv'
        exact (hR (s, a, s') (by simp)).resolve_left hvalue

end runs

end Watch

end Transition
