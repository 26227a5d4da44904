import MyChat.Lib.SortedList
import Mathlib.Data.List.Induction
import Mathlib.Data.String.Basic

/-!
# MyChat.Keys

How the Firebase client orders the keys of a node: `FUtilities`' `compareKey:toKey:`.
Keys that spell a 32-bit integer come first, in numeric order, then all others, by
UTF-16 code unit. `[MIN_NAME]` and `[MAX_NAME]`, recognised by identity, are below and
above everything.

The comparison is transitive (`FKey.instTransCmp`), but it does not tell all keys
apart: an integer may be spelled with a minus sign in front of zeroes, and `-0` and
`00` have the same value and the same length. `compareName_eq_iff` says that these are
the only keys it confuses. The children of a node are kept by this comparison, so a
`Plain` key, one that is no negative zero, is what the modules on nodes ask for.
-/

namespace MyChat

/-- A key of a node, or one of the two names that only bound a range of keys. -/
inductive FKey
  | minName
  | maxName
  | name (key : String)
  deriving DecidableEq, Repr

namespace FUtilities

/-- The UTF-16 code units of a character. -/
def utf16 (c : Char) : List Nat :=
  if c.toNat < 0x10000 then [c.toNat]
  else [0xD800 + (c.toNat - 0x10000) / 0x400, 0xDC00 + (c.toNat - 0x10000) % 0x400]

/-- What `characterAtIndex:` reads, from 0 to `length`. -/
def characters (str : String) : List Nat := str.toList.flatMap utf16

/-- `c >= '0' && c <= '9'`. -/
def isDigit (c : Nat) : Bool := '0'.toNat ≤ c && c ≤ '9'.toNat

/-- The loop of `tryParseStringToInt` over the digits. -/
def digitsValue (digits : List Nat) : Option Int :=
  if digits.all isDigit then some (digits.foldl (fun value c => value * 10 + (c - '0'.toNat : Int)) 0)
  else none

/-- `value < INTEGER_32_MIN || value > INTEGER_32_MAX` is refused. -/
def inRange (value : Int) : Option Int :=
  if value < -2147483648 ∨ 2147483647 < value then none else some value

/-- `tryParseStringToInt`, on the characters. -/
def tryParseCharacters : List Nat → Option Int
  | [] => none
  | c :: rest =>
      if 11 < (c :: rest).length then none
      else if c = '-'.toNat then
        if rest = [] then none
        else ((digitsValue rest).map fun value => -value).bind inRange
      else (digitsValue (c :: rest)).bind inRange

/-- `tryParseStringToInt`. -/
def tryParseStringToInt (str : String) : Option Int := tryParseCharacters (characters str)

/-- `[a compare:b options:NSLiteralSearch]`. -/
def literalCompare (a b : String) : Ordering := compare (characters a) (characters b)

/-- `compareKey:toKey:` on two keys. -/
def compareName (a b : String) : Ordering :=
  match tryParseStringToInt a, tryParseStringToInt b with
  | some aAsInt, some bAsInt =>
      if aAsInt > bAsInt then .gt
      else if aAsInt < bAsInt then .lt
      else if (characters a).length > (characters b).length then .gt
      else if (characters a).length < (characters b).length then .lt
      else .eq
  | some _, none => .lt
  | none, some _ => .gt
  | none, none => literalCompare a b

/-- `compareKey:toKey:`. -/
def compareKey (a b : FKey) : Ordering :=
  if a = b then .eq
  else if a = .minName ∨ b = .maxName then .lt
  else if b = .minName ∨ a = .maxName then .gt
  else
    match a, b with
    | .name a, .name b => compareName a b
    | _, _ => .eq

/-- `keyComparator`, on the keys of a node. -/
def keyComparator (a b : String) : Ordering := compareKey (.name a) (.name b)

/-- `stringComparator`. `compare:` also identifies different spellings of one
composed character, which is left out. -/
def stringComparator (a b : String) : Ordering := literalCompare a b

/-! ### Characters -/

theorem characters_ofList (cs : List Char) : characters (String.ofList cs) = cs.flatMap utf16 := by
  simp [characters]

/-- Outside the supplementary planes a character is its own code unit. -/
theorem flatMap_utf16 {cs : List Char} (h : ∀ c ∈ cs, c.toNat < 0x10000) :
    cs.flatMap utf16 = cs.map Char.toNat := by
  induction cs with
  | nil => rfl
  | cons c cs ih =>
      obtain ⟨hc, hcs⟩ := List.forall_mem_cons.mp h
      rw [List.flatMap_cons, ih hcs, utf16, if_pos hc]
      rfl

/-- A character is read off the front of its code units. -/
theorem utf16_append_inj {c d : Char} {us vs : List Nat} (h : utf16 c ++ us = utf16 d ++ vs) :
    c = d ∧ us = vs := by
  have hcd : ∀ {c d : Char}, c.toNat = d.toNat → c = d := fun h => Char.toNat_inj.mp h
  have hscalar : ∀ c : Char, c.toNat < 0xD800 ∨ 0xDFFF < c.toNat ∧ c.toNat < 0x110000 := fun c => by
    have := c.valid
    simp only [UInt32.isValidChar, Nat.isValidChar, Char.toNat] at *
    omega
  have hc := hscalar c
  have hd := hscalar d
  unfold utf16 at h
  split at h <;> split at h <;>
    simp only [List.cons_append, List.nil_append, List.cons.injEq] at h
  · exact ⟨hcd h.1, h.2⟩
  -- a surrogate is no character of its own
  · omega
  · omega
  · exact ⟨hcd (by omega), h.2.2⟩

theorem characters_inj {a b : String} : characters a = characters b ↔ a = b := by
  refine ⟨fun h => ?_, fun h => h ▸ rfl⟩
  have hflat : ∀ cs ds : List Char, cs.flatMap utf16 = ds.flatMap utf16 → cs = ds := by
    intro cs
    induction cs with
    | nil =>
        intro ds h
        cases ds with
        | nil => rfl
        | cons d ds =>
            simp only [List.flatMap_nil, List.flatMap_cons, utf16] at h
            split at h <;> simp at h
    | cons c cs ih =>
        intro ds h
        cases ds with
        | nil =>
            simp only [List.flatMap_nil, List.flatMap_cons, utf16] at h
            split at h <;> simp at h
        | cons d ds =>
            obtain ⟨rfl, hrest⟩ := utf16_append_inj (by simpa using h)
            rw [ih ds hrest]
  exact String.toList_inj.mp (hflat _ _ h)

/-! ### The order -/

/-- Where a key stands: its class, then value and length of an integer, then the
characters of any other key. -/
def rank : FKey → Nat × Int × Nat × List Nat
  | .minName => (0, 0, 0, [])
  | .maxName => (3, 0, 0, [])
  | .name key =>
      match tryParseStringToInt key with
      | some value => (1, value, (characters key).length, [])
      | none => (2, 0, 0, characters key)

/-- Ranks are compared component by component. -/
def compareRank : Nat × Int × Nat × List Nat → Nat × Int × Nat × List Nat → Ordering :=
  compareLex (compareOn Prod.fst) (compareLex (compareOn fun r => r.2.1)
    (compareLex (compareOn fun r => r.2.2.1) (compareOn fun r => r.2.2.2)))

instance : Std.TransCmp compareRank := by
  unfold compareRank
  infer_instance

theorem compareRank_eq_iff {r s : Nat × Int × Nat × List Nat} : compareRank r s = .eq ↔ r = s := by
  simp [compareRank, compareLex_eq_eq, compareOn, Prod.ext_iff]

theorem compareRank_mk (c c' : Nat) (v v' : Int) (n n' : Nat) (us us' : List Nat) :
    compareRank (c, v, n, us) (c', v', n', us') =
      (compare c c').then ((compare v v').then ((compare n n').then (compare us us'))) := rfl

theorem rank_of_int {key : String} {value : Int} (h : tryParseStringToInt key = some value) :
    rank (.name key) = (1, value, (characters key).length, []) := by simp [rank, h]

theorem rank_of_not_int {key : String} (h : tryParseStringToInt key = none) :
    rank (.name key) = (2, 0, 0, characters key) := by simp [rank, h]

theorem compareName_eq_compareRank (a b : String) :
    compareName a b = compareRank (rank (.name a)) (rank (.name b)) := by
  unfold compareName
  cases ha : tryParseStringToInt a with
  | none =>
      cases hb : tryParseStringToInt b with
      | none => simp [rank_of_not_int ha, rank_of_not_int hb, compareRank_mk, literalCompare]
      | some n =>
          rw [rank_of_not_int ha, rank_of_int hb]
          rfl
  | some m =>
      cases hb : tryParseStringToInt b with
      | none =>
          rw [rank_of_int ha, rank_of_not_int hb]
          rfl
      | some n =>
          rw [rank_of_int ha, rank_of_int hb, compareRank_mk]
          simp only [gt_iff_lt, Std.ReflCmp.compare_self, Ordering.then_eq, Ordering.eq_then]
          rcases lt_trichotomy m n with h | rfl | h
          · simp [compare_lt_iff_lt.mpr h, h, h.not_gt]
          · rcases lt_trichotomy (characters a).length (characters b).length with h | h | h
            · simp [compare_lt_iff_lt.mpr h, h, h.not_gt]
            · simp [h]
            · simp [compare_gt_iff_gt.mpr h, h]
          · simp [compare_gt_iff_gt.mpr h, h]

theorem class_name (key : String) : 0 < (rank (.name key)).1 ∧ (rank (.name key)).1 < 3 := by
  rw [rank]
  split <;> simp

theorem compareRank_of_lt {r s : Nat × Int × Nat × List Nat} (h : r.1 < s.1) :
    compareRank r s = .lt := by
  simp [compareRank, compareLex, compareOn, compare_lt_iff_lt.mpr h]

theorem compareRank_of_gt {r s : Nat × Int × Nat × List Nat} (h : s.1 < r.1) :
    compareRank r s = .gt := by
  simp [compareRank, compareLex, compareOn, compare_gt_iff_gt.mpr h]

/-- `compareKey` compares the ranks of its arguments. -/
theorem compareKey_eq_compareRank (a b : FKey) : compareKey a b = compareRank (rank a) (rank b) := by
  unfold compareKey
  by_cases hab : a = b
  · rw [if_pos hab, hab]
    exact (compareRank_eq_iff.mpr rfl).symm
  rw [if_neg hab]
  cases a with
  | minName =>
      cases b with
      | minName => exact absurd rfl hab
      | maxName => rfl
      | name b => exact (compareRank_of_lt (class_name b).1).symm
  | maxName =>
      cases b with
      | minName => rfl
      | maxName => exact absurd rfl hab
      | name b => exact (compareRank_of_gt (class_name b).2).symm
  | name a =>
      cases b with
      | minName => exact (compareRank_of_gt (class_name a).1).symm
      | maxName => exact (compareRank_of_lt (class_name a).2).symm
      | name b => exact compareName_eq_compareRank a b

instance FKey.instTransCmp : Std.TransCmp compareKey where
  eq_swap := by
    intro a b
    rw [compareKey_eq_compareRank, compareKey_eq_compareRank]
    exact Std.OrientedCmp.eq_swap
  isLE_trans := by
    intro a b c hab hbc
    rw [compareKey_eq_compareRank] at *
    exact Std.TransCmp.isLE_trans hab hbc

instance : Std.TransCmp keyComparator where
  eq_swap := by
    intro a b
    show compareKey (.name a) (.name b) = (compareKey (.name b) (.name a)).swap
    exact Std.OrientedCmp.eq_swap
  isLE_trans := by
    intro a b c hab hbc
    show (compareKey (.name a) (.name c)).isLE
    have hab : (compareKey (.name a) (.name b)).isLE := hab
    exact Std.TransCmp.isLE_trans hab hbc

instance : Std.TransCmp stringComparator where
  eq_swap := by
    intro a b
    show compare (characters a) (characters b) = (compare (characters b) (characters a)).swap
    exact Std.OrientedCmp.eq_swap
  isLE_trans := by
    intro a b c hab hbc
    show (compare (characters a) (characters c)).isLE
    have hab : (compare (characters a) (characters b)).isLE := hab
    exact Std.TransCmp.isLE_trans hab hbc

theorem literalCompare_eq_iff {a b : String} : literalCompare a b = .eq ↔ a = b := by
  rw [literalCompare, Std.LawfulEqCmp.compare_eq_iff_eq, characters_inj]

theorem stringComparator_separates (S : String → Prop) :
    SortedList.Separates stringComparator S := fun _ _ _ _ h => literalCompare_eq_iff.mp h

/-! ### Which keys are confused -/

/-- The value of a list of digits, when it is one. -/
def decimal (digits : List Nat) : Int := digits.foldl (fun value c => value * 10 + (c - '0'.toNat : Int)) 0

theorem digitsValue_eq_some_iff {digits : List Nat} {v : Int} :
    digitsValue digits = some v ↔ (∀ c ∈ digits, isDigit c) ∧ decimal digits = v := by
  simp [digitsValue, decimal]

theorem decimal_append (digits : List Nat) (c : Nat) :
    decimal (digits ++ [c]) = decimal digits * 10 + (c - '0'.toNat : Int) := by simp [decimal]

theorem isDigit_iff {c : Nat} : isDigit c ↔ 48 ≤ c ∧ c ≤ 57 := by simp [isDigit]

theorem decimal_nonneg {digits : List Nat} (h : ∀ c ∈ digits, isDigit c) : 0 ≤ decimal digits := by
  induction digits using List.reverseRecOn with
  | nil => exact le_refl 0
  | append_singleton digits c ih =>
      have hc := isDigit_iff.mp (h c (by simp))
      have hdigits := ih fun d hd => h d (List.mem_append_left _ hd)
      rw [decimal_append, show ('0'.toNat : Int) = 48 from rfl]
      omega

/-- Digits are determined by their number and their value. -/
theorem digits_eq_of_decimal {ds es : List Nat} (hd : ∀ c ∈ ds, isDigit c) (he : ∀ c ∈ es, isDigit c)
    (hlen : ds.length = es.length) (h : decimal ds = decimal es) : ds = es := by
  induction ds using List.reverseRecOn generalizing es with
  | nil => exact (List.length_eq_zero_iff.mp hlen.symm).symm
  | append_singleton ds c ih =>
      cases es using List.reverseRecOn with
      | nil => simp at hlen
      | append_singleton es e =>
          have hc := isDigit_iff.mp (hd c (by simp))
          have he' := isDigit_iff.mp (he e (by simp))
          rw [decimal_append, decimal_append, show ('0'.toNat : Int) = 48 from rfl] at h
          have hrest : ds = es :=
            ih (fun d hd' => hd d (List.mem_append_left _ hd'))
              (fun d hd' => he d (List.mem_append_left _ hd')) (by simpa using hlen) (by omega)
          rw [hrest, show c = e by rw [hrest] at h; omega]

theorem decimal_replicate (n : Nat) : decimal (List.replicate n '0'.toNat) = 0 := by
  induction n with
  | zero => rfl
  | succ n ih => rw [List.replicate_succ', decimal_append, ih]; rfl

theorem digits_eq_of_decimal_zero {ds : List Nat} (hd : ∀ c ∈ ds, isDigit c) (h : decimal ds = 0) :
    ds = List.replicate ds.length '0'.toNat := by
  refine digits_eq_of_decimal hd (fun c hc => ?_) (by simp) (by rw [h, decimal_replicate])
  rw [List.eq_of_mem_replicate hc]
  decide

theorem inRange_eq_some_iff {v w : Int} :
    inRange v = some w ↔ (-2147483648 ≤ v ∧ v ≤ 2147483647) ∧ v = w := by
  simp only [inRange, Option.ite_none_left_eq_some, Option.some.injEq, not_or, not_lt]

/-- What spells an integer: digits, or a minus sign and digits. -/
theorem tryParseCharacters_eq_some {cs : List Nat} {v : Int} (h : tryParseCharacters cs = some v) :
    cs.length ≤ 11 ∧
      (((∀ c ∈ cs, isDigit c) ∧ decimal cs = v) ∨
        ∃ ds, cs = '-'.toNat :: ds ∧ ds ≠ [] ∧ (∀ c ∈ ds, isDigit c) ∧ -decimal ds = v) := by
  unfold tryParseCharacters at h
  split at h
  · cases h
  · next c rest =>
    split at h
    · cases h
    · next hlen =>
      refine ⟨by omega, ?_⟩
      split at h
      · next hc =>
        split at h
        · cases h
        · next hrest =>
          simp only [Option.bind_eq_some_iff, Option.map_eq_some_iff] at h
          obtain ⟨_, ⟨w, hw, rfl⟩, hrange⟩ := h
          obtain ⟨hd, rfl⟩ := digitsValue_eq_some_iff.mp hw
          exact Or.inr ⟨rest, by rw [hc], hrest, hd, (inRange_eq_some_iff.mp hrange).2⟩
      · obtain ⟨w, hw, hrange⟩ := Option.bind_eq_some_iff.mp h
        obtain ⟨hd, rfl⟩ := digitsValue_eq_some_iff.mp hw
        exact Or.inl ⟨hd, (inRange_eq_some_iff.mp hrange).2⟩

/-- `-`, then `n` zeroes. -/
def negativeZero (n : Nat) : String := String.ofList ('-' :: List.replicate n '0')

/-- `0`, then `n` zeroes. -/
def zero (n : Nat) : String := String.ofList ('0' :: List.replicate n '0')

theorem characters_negativeZero (n : Nat) :
    characters (negativeZero n) = '-'.toNat :: List.replicate n '0'.toNat := by
  rw [negativeZero, characters_ofList, flatMap_utf16, List.map_cons, List.map_replicate]
  simp

theorem characters_zero (n : Nat) : characters (zero n) = List.replicate (n + 1) '0'.toNat := by
  rw [zero, characters_ofList, flatMap_utf16, List.map_cons, List.map_replicate,
    List.replicate_succ]
  simp

/-- Two integers of the same value and length: the same spelling, or zero with and
without a minus sign. -/
theorem eq_of_tryParse {a b : String} {v : Int} (ha : tryParseStringToInt a = some v)
    (hb : tryParseStringToInt b = some v) (hlen : (characters a).length = (characters b).length) :
    a = b ∨ ∃ n, 0 < n ∧ n < 11 ∧
      ((a = negativeZero n ∧ b = zero n) ∨ (a = zero n ∧ b = negativeZero n)) := by
  have hmixed : ∀ {a b : String} {ds : List Nat}, (characters a).length = (characters b).length →
      (characters a).length ≤ 11 → characters a = '-'.toNat :: ds → ds ≠ [] →
      (∀ c ∈ ds, isDigit c) → (∀ c ∈ characters b, isDigit c) → -decimal ds = decimal (characters b) →
      0 < ds.length ∧ ds.length < 11 ∧ a = negativeZero ds.length ∧ b = zero ds.length := by
    intro a b ds hlen hmax hds hne hd hb hv
    have hzero : decimal ds = 0 := by
      have := decimal_nonneg hd
      have := decimal_nonneg hb
      omega
    rw [hds, List.length_cons] at hlen hmax
    refine ⟨List.length_pos_iff.mpr hne, by omega, ?_, ?_⟩
    · rw [← characters_inj, characters_negativeZero, hds, ← digits_eq_of_decimal_zero hd hzero]
    · rw [← characters_inj, characters_zero, hlen]
      exact digits_eq_of_decimal_zero hb (by omega)
  obtain ⟨hamax, hdigits | ⟨ds, hds, hne, hd, hv⟩⟩ := tryParseCharacters_eq_some ha
  · obtain ⟨hbmax, hdigits' | ⟨es, hes, hne', he, hv'⟩⟩ := tryParseCharacters_eq_some hb
    · refine Or.inl (characters_inj.mp (digits_eq_of_decimal hdigits.1 hdigits'.1 hlen ?_))
      rw [hdigits.2, hdigits'.2]
    · obtain ⟨hpos, hlt, hbz, haz⟩ := hmixed hlen.symm hbmax hes hne' he hdigits.1 (by rw [hv', hdigits.2])
      exact Or.inr ⟨es.length, hpos, hlt, Or.inr ⟨haz, hbz⟩⟩
  · obtain ⟨hbmax, hdigits' | ⟨es, hes, hne', he, hv'⟩⟩ := tryParseCharacters_eq_some hb
    · obtain ⟨hpos, hlt, haz, hbz⟩ := hmixed hlen hamax hds hne hd hdigits'.1 (by rw [hv, hdigits'.2])
      exact Or.inr ⟨ds.length, hpos, hlt, Or.inl ⟨haz, hbz⟩⟩
    · rw [hds, hes, List.length_cons, List.length_cons] at hlen
      refine Or.inl (characters_inj.mp ?_)
      rw [hds, hes, digits_eq_of_decimal hd he (by omega) (by omega)]

theorem digitsValue_replicate (n : Nat) :
    digitsValue (List.replicate n '0'.toNat) = some 0 := by
  refine digitsValue_eq_some_iff.mpr ⟨fun c hc => ?_, decimal_replicate n⟩
  rw [List.eq_of_mem_replicate hc]
  decide

theorem tryParse_zero {n : Nat} (h : n < 11) : tryParseStringToInt (zero n) = some 0 := by
  have hlen : ¬ 11 < ('0'.toNat :: List.replicate n '0'.toNat).length := by
    simp only [List.length_cons, List.length_replicate]
    omega
  rw [tryParseStringToInt, characters_zero, List.replicate_succ, tryParseCharacters, if_neg hlen,
    if_neg (by decide), ← List.replicate_succ, digitsValue_replicate]
  rfl

theorem tryParse_negativeZero {n : Nat} (hpos : 0 < n) (h : n < 11) :
    tryParseStringToInt (negativeZero n) = some 0 := by
  have hlen : ¬ 11 < ('-'.toNat :: List.replicate n '0'.toNat).length := by
    simp only [List.length_cons, List.length_replicate]
    omega
  have hne : List.replicate n '0'.toNat ≠ [] := by simp [hpos.ne']
  rw [tryParseStringToInt, characters_negativeZero, tryParseCharacters, if_neg hlen, if_pos rfl,
    if_neg hne, digitsValue_replicate]
  rfl

theorem compareName_negativeZero {n : Nat} (hpos : 0 < n) (h : n < 11) :
    compareName (negativeZero n) (zero n) = .eq := by
  rw [compareName_eq_compareRank, rank_of_int (tryParse_negativeZero hpos h),
    rank_of_int (tryParse_zero h), compareRank_eq_iff, characters_negativeZero, characters_zero]
  simp

/-- **What `compareKey` confuses.** Two keys compare equal exactly when they are the
same, or when they are zero written with `n + 1` characters, once with a minus sign. -/
theorem compareName_eq_iff (a b : String) :
    compareName a b = .eq ↔ a = b ∨ ∃ n, 0 < n ∧ n < 11 ∧
      ((a = negativeZero n ∧ b = zero n) ∨ (a = zero n ∧ b = negativeZero n)) := by
  constructor
  · intro h
    rw [compareName_eq_compareRank, compareRank_eq_iff] at h
    cases ha : tryParseStringToInt a with
    | none =>
        cases hb : tryParseStringToInt b with
        | none =>
            rw [rank_of_not_int ha, rank_of_not_int hb] at h
            exact Or.inl (characters_inj.mp (by simpa using h))
        | some w => simp [rank_of_not_int ha, rank_of_int hb] at h
    | some v =>
        cases hb : tryParseStringToInt b with
        | none => simp [rank_of_int ha, rank_of_not_int hb] at h
        | some w =>
            rw [rank_of_int ha, rank_of_int hb] at h
            obtain ⟨rfl, hlen⟩ : v = w ∧ (characters a).length = (characters b).length := by
              simpa using h
            exact eq_of_tryParse ha hb hlen
  · intro hcase
    rcases hcase with rfl | ⟨n, hpos, hlt, ⟨rfl, rfl⟩ | ⟨rfl, rfl⟩⟩
    · rw [compareName_eq_compareRank]
      exact compareRank_eq_iff.mpr rfl
    · exact compareName_negativeZero hpos hlt
    · have h := compareName_negativeZero hpos hlt
      rw [compareName_eq_compareRank, compareRank_eq_iff] at h
      rw [compareName_eq_compareRank, h]
      exact compareRank_eq_iff.mpr rfl

/-- **The order on keys** is total and transitive, between the two names that bound a range. -/
theorem compareKey_order (a b c : FKey) :
    compareKey a b = (compareKey b a).swap ∧
      ((compareKey a b).isLE → (compareKey b c).isLE → (compareKey a c).isLE) ∧
      (compareKey .minName a).isLE ∧ (compareKey a .maxName).isLE ∧
      (compareKey a b = .eq ↔ a = b ∨ ∃ n, 0 < n ∧ n < 11 ∧
        ((a = .name (negativeZero n) ∧ b = .name (zero n)) ∨
          (a = .name (zero n) ∧ b = .name (negativeZero n)))) := by
  refine ⟨Std.OrientedCmp.eq_swap, Std.TransCmp.isLE_trans, ?_, ?_, ?_⟩
  · unfold compareKey
    split <;> simp
  · unfold compareKey
    split <;> simp
  · cases a with
    | name a =>
        cases b with
        | name b =>
            rw [compareKey_eq_compareRank, ← compareName_eq_compareRank, compareName_eq_iff]
            simp only [FKey.name.injEq]
        | minName => simp [compareKey]
        | maxName => simp [compareKey]
    | minName => cases b <;> simp [compareKey]
    | maxName => cases b <;> simp [compareKey]

/-- The key is no zero with a minus sign. -/
def Plain (key : String) : Prop := ∀ n < 11, 0 < n → key ≠ negativeZero n

instance (key : String) : Decidable (Plain key) :=
  inferInstanceAs (Decidable (∀ n < 11, 0 < n → key ≠ negativeZero n))

/-- Plain keys are told apart by the order on keys. -/
theorem keyComparator_separates : SortedList.Separates keyComparator Plain := by
  intro a b ha hb h
  have hname : compareName a b = .eq := by
    rw [compareName_eq_compareRank, ← compareKey_eq_compareRank]
    exact h
  rcases (compareName_eq_iff a b).mp hname with heq | ⟨n, hpos, hlt, ⟨haz, -⟩ | ⟨-, hbz⟩⟩
  · exact heq
  · exact absurd haz (ha n hlt hpos)
  · exact absurd hbz (hb n hlt hpos)

end FUtilities

end MyChat
