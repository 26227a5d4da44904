import Mathlib.Data.List.Pairwise
import Mathlib.Data.List.Sublists

/-!
# CounterTable

**Tables whose keys come from a counter.** An entry gets the number that the counter has
and goes to the end, so the keys grow along the table, and the counter is above them
(`Counted`). A key is there at most once: it can be looked up (`Counted.lookup_of_mem`),
and taking it out leaves what was before it and what was behind it
(`Counted.exists_of_lookup`).
-/

namespace CounterTable

variable {β : Type*} {ks ks' : List Nat} {n k : Nat} {l : List (Nat × β)} {v : β}

/-- The numbers grow, and the counter is above them. -/
def Counted (ks : List Nat) (n : Nat) : Prop := (ks ++ [n]).Pairwise (· < ·)

theorem counted_nil (n : Nat) : Counted [] n := List.pairwise_singleton _ n

theorem Counted.lt (h : Counted ks n) (hk : k ∈ ks) : k < n :=
  (List.pairwise_append.mp h).2.2 k hk n (List.mem_singleton.mpr rfl)

theorem Counted.pairwise (h : Counted ks n) : ks.Pairwise (· < ·) := (List.pairwise_append.mp h).1

theorem Counted.next (h : Counted ks n) : Counted (ks ++ [n]) (n + 1) := by
  refine List.pairwise_append.mpr ⟨h, List.pairwise_singleton _ _, fun k hk m hm => ?_⟩
  rw [List.mem_singleton.mp hm]
  rcases List.mem_append.mp hk with hk | hk
  · exact (h.lt hk).trans (Nat.lt_succ_self n)
  · rw [List.mem_singleton.mp hk]
    exact Nat.lt_succ_self n

/-- The counter may go on alone. -/
theorem Counted.succ (h : Counted ks n) : Counted ks (n + 1) :=
  h.next.sublist ((List.sublist_append_left ks [n]).append_right [n + 1])

theorem Counted.sublist (h : Counted ks n) (hsub : ks'.Sublist ks) : Counted ks' n :=
  List.Pairwise.sublist (hsub.append_right [n]) h

theorem Counted.lookup_of_mem (h : Counted (l.map Prod.fst) n) (hmem : (k, v) ∈ l) :
    l.lookup k = some v := by
  obtain ⟨as, bs, rfl⟩ := List.append_of_mem hmem
  refine List.lookup_eq_some_iff.mpr ⟨as, bs, rfl, fun x hx => ?_⟩
  have hgrow := h.pairwise
  rw [List.map_append, List.pairwise_append] at hgrow
  have hlt : x.1 < k := hgrow.2.2 x.1 (List.mem_map_of_mem hx) k List.mem_cons_self
  simpa using hlt.ne'

/-- **An entry is taken out**: the keys before it are smaller. -/
theorem Counted.exists_of_lookup (h : Counted (l.map Prod.fst) n) (hlookup : l.lookup k = some v) :
    ∃ as bs, l = as ++ (k, v) :: bs ∧ l.filter (fun x => x.1 ≠ k) = as ++ bs ∧
      ∀ x ∈ as, x.1 < k := by
  obtain ⟨as, bs, rfl, -⟩ := List.lookup_eq_some_iff.mp hlookup
  have hgrow := h.pairwise
  rw [List.map_append, List.pairwise_append, List.map_cons, List.pairwise_cons] at hgrow
  have has : ∀ x ∈ as, x.1 < k := fun x hx =>
    hgrow.2.2 x.1 (List.mem_map_of_mem hx) k List.mem_cons_self
  have hbs : ∀ x ∈ bs, k < x.1 := fun x hx => hgrow.2.1.1 x.1 (List.mem_map_of_mem hx)
  refine ⟨as, bs, rfl, ?_, has⟩
  rw [List.filter_append, List.filter_cons_of_neg (by simp),
    List.filter_eq_self.mpr fun x hx => by simpa using (has x hx).ne,
    List.filter_eq_self.mpr fun x hx => by simpa using (hbs x hx).ne']

end CounterTable
