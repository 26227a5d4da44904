import Mathlib.Data.List.Basic

/-!
# Avoids

**Computations that cannot fail in certain ways.** `Avoids bad x` says that the
computation `x` does not end with an error that is `bad`; it may succeed or end with
another error. There is one rule for each way a computation is put together, so a
proof follows the program: `bind` leaves the parts, and the second part may use what
the first one returned.
-/

/-- `x` does not fail with a `bad` error. -/
def Avoids {ε α : Type*} (bad : ε → Prop) (x : Except ε α) : Prop :=
  ∀ e, x = .error e → ¬ bad e

namespace Avoids

variable {ε : Type*} {α β : Type} {bad : ε → Prop}

theorem ok (a : α) : Avoids bad (.ok a : Except ε α) := by
  intro e h
  cases h

theorem error {e : ε} (h : ¬ bad e) : Avoids bad (.error e : Except ε α) := by
  intro e' he
  cases he
  exact h

/-- A computation that succeeds avoids everything. -/
theorem of_ok {x : Except ε α} (h : ∃ a, x = .ok a) : Avoids bad x := by
  obtain ⟨a, rfl⟩ := h
  exact ok a

theorem bind {x : Except ε α} {f : α → Except ε β} (hx : Avoids bad x)
    (hf : ∀ a, x = .ok a → Avoids bad (f a)) : Avoids bad (x >>= f) := by
  cases x with
  | error e =>
      intro e' he
      obtain rfl : e = e' := by simpa [Bind.bind, Except.bind] using he
      exact hx e rfl
  | ok a => exact hf a rfl

/-- A loop avoids what its body avoids on every element. -/
theorem mapM {f : α → Except ε β} {as : List α} (h : ∀ a ∈ as, Avoids bad (f a)) :
    Avoids bad (as.mapM f) := by
  induction as with
  | nil => exact ok []
  | cons a as ih =>
      rw [List.mapM_cons]
      refine (h a List.mem_cons_self).bind fun b _ => ?_
      refine (ih fun a ha => h a (List.mem_cons_of_mem _ ha)).bind fun bs _ => ?_
      exact ok (b :: bs)

end Avoids
