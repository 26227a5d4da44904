import MyChat.Lib.PathTree
import Mathlib.Data.String.Basic
import Mathlib.Data.List.Sort

/-!
# MyChat.Firebase

The part of the Firebase Realtime Database client the app relies on: a JSON tree
addressed by paths, `child` with its path validation, `setValue`, and the casts
by which a snapshot is read back as an `NSDictionary` with typed fields.

A stored tree is a `PathTree` of scalars. `null`, an empty dictionary and an
empty array are not stored, which is what a `PathTree` does by construction.
Its key order is the order in which `snapshot.children` lists children; for keys
that are not 32-bit integers (chat ids, message ids) `compareKey:toKey:` compares
literally, which is the order on `String` used here.

Everything that stops the process is a `Fault`: a forced unwrap of nil, an index
out of range, an exception raised by `FValidation`. `disabled` is the fault of an
action that cannot be taken in the present state.
-/

namespace MyChat

/-- Why an action does not lead to a next state. -/
inductive Fault
  /-- The action cannot be taken in this state (no such row, no such observer, …). -/
  | disabled
  /-- `!` on nil, or an implicitly unwrapped optional that is nil. -/
  | foundNil (what : String)
  /-- Array subscript out of range. -/
  | indexOutOfRange
  /-- `InvalidPathValidation` raised by `child:`. -/
  | invalidPath (path : String)
  deriving DecidableEq, Repr

/-- `what!`. -/
def unwrap {α : Type} (what : String) : Option α → Except Fault α
  | some a => .ok a
  | none => .error (.foundNil what)

/-- The action is enabled only if there is something to act on. -/
def enabled {α : Type} : Option α → Except Fault α
  | some a => .ok a
  | none => .error .disabled

@[simp] theorem unwrap_some {α : Type} (what : String) (a : α) : unwrap what (some a) = .ok a := rfl

@[simp] theorem unwrap_eq_ok {α : Type} {what : String} {o : Option α} {a : α} :
    unwrap what o = .ok a ↔ o = some a := by
  cases o <;> simp [unwrap]

@[simp] theorem enabled_eq_ok {α : Type} {o : Option α} {a : α} :
    enabled o = .ok a ↔ o = some a := by
  cases o <;> simp [enabled]

/-- A computation that can fail succeeds exactly when its parts do. -/
theorem bind_eq_ok {ε α β : Type} {x : Except ε α} {f : α → Except ε β} {b : β} :
    (x >>= f) = .ok b ↔ ∃ a, x = .ok a ∧ f a = .ok b := by
  cases x <;> simp [bind, Except.bind]

theorem eq_ok_of_toOption {ε α : Type} {x : Except ε α} {a : α} (h : x.toOption = some a) :
    x = .ok a := by
  cases x with
  | error => simp [Except.toOption] at h
  | ok b => simpa [Except.toOption] using h

/-- Every result of a successful `mapM` comes from an element. -/
theorem mem_of_mapM_eq_ok {α β : Type} {f : α → Except Fault β} {as : List α} {bs : List β}
    (h : as.mapM f = .ok bs) : ∀ b ∈ bs, ∃ a ∈ as, f a = .ok b := by
  induction as generalizing bs with
  | nil =>
      cases h
      simp
  | cons a as ih =>
      rw [List.mapM_cons] at h
      simp only [bind_eq_ok] at h
      obtain ⟨b, hb, bs', hbs', h⟩ := h
      cases h
      intro b' hb'
      rcases List.mem_cons.mp hb' with rfl | hb'
      · exact ⟨a, List.mem_cons_self, hb⟩
      · obtain ⟨a', ha', hfa'⟩ := ih hbs' b' hb'
        exact ⟨a', List.mem_cons_of_mem a ha', hfa'⟩

/-! ### Values -/

/-- A scalar JSON value, as the app stores them. -/
inductive Scalar
  | string (s : String)
  | bool (b : Bool)
  | int (n : Int64)
  deriving DecidableEq, Repr

/-- `as? String`. -/
def Scalar.string? : Scalar → Option String
  | .string s => some s
  | _ => none

/-- `as? Bool`. -/
def Scalar.bool? : Scalar → Option Bool
  | .bool b => some b
  | _ => none

/-- `as? Int64`. -/
def Scalar.int? : Scalar → Option Int64
  | .int n => some n
  | _ => none

/-- The data at a location, and also a value handed to `setValue`. -/
abbrev Snapshot := PathTree String Scalar

namespace Snapshot

/-- `[FUtilities intForString:]` on a key, with the rule of `valForExport:` that a
leading zero makes it a string. -/
def intKey (key : String) : Option Nat :=
  let digits := key.toList
  if digits = [] ∨ ¬ digits.all Char.isDigit ∨ (digits.head? = some '0' ∧ 1 < digits.length) then
    none
  else
    some (digits.foldl (fun n c => 10 * n + (c.toNat - '0'.toNat)) 0)

/-- The value is exported as an `NSArray`: all keys are integers and dense enough. -/
def exportsArray (t : Snapshot) : Bool :=
  let keys := t.children.map intKey
  keys.all Option.isSome && ((keys.filterMap id).foldl max 0 < 2 * keys.length)

/-- `snapshot.value as? NSDictionary`. -/
def dictionary? (t : Snapshot) : Option Snapshot :=
  if t.children = [] ∨ t.exportsArray then none else some t

/-- `dict[key] as? String`. -/
def string? (dict : Snapshot) (key : String) : Option String := (dict.get [key]).bind Scalar.string?

/-- `dict[key] as? Bool`. -/
def bool? (dict : Snapshot) (key : String) : Option Bool := (dict.get [key]).bind Scalar.bool?

/-- `dict[key] as? Int64`. -/
def int? (dict : Snapshot) (key : String) : Option Int64 := (dict.get [key]).bind Scalar.int?

/-- `dict[key] as? Array<String?>`: the child must be exported as an array, and
every element must be a string or `NSNull`. -/
def stringArray? (dict : Snapshot) (key : String) : Option (List (Option String)) :=
  let array : Snapshot := dict.subtree [key]
  if array.children = [] ∨ ¬ array.exportsArray then none
  else
    let maxKey := (array.children.filterMap intKey).foldl max 0
    (List.range (maxKey + 1)).mapM fun i =>
      let element := array.subtree [toString i]
      if element = ∅ then some none
      else ((element.get []).bind Scalar.string?).map some

/-- A snapshot with a field whose key is not an integer is a dictionary. -/
theorem dictionary?_of_get {t : Snapshot} {v : Scalar} (key : String) (hkey : intKey key = none)
    (hget : t.get [key] = some v) : t.dictionary? = some t := by
  have hchild := PathTree.mem_children_of_get hget
  have hne : t.children ≠ [] := List.ne_nil_of_mem hchild
  have harray : t.exportsArray = false := by
    simp only [exportsArray, Bool.and_eq_false_imp]
    intro hall
    have := List.all_eq_true.mp hall _ (List.mem_map_of_mem hchild)
    simp [hkey] at this
  simp [dictionary?, hne, harray]

@[simp] theorem dictionary?_empty : dictionary? ∅ = none := rfl

theorem eq_of_dictionary? {t d : Snapshot} (h : t.dictionary? = some d) : d = t := by
  unfold dictionary? at h
  split at h
  · simp at h
  · exact (Option.some.inj h).symm

end Snapshot

/-! ### References -/

/-- The pieces of a location, from the root. -/
abbrev Path := List String

/-- `kInvalidPathCharacters`. -/
def kInvalidPathCharacters : List Char := ['[', ']', '.', '#', '$']

/-- `[FValidation isValidPathString:]`. -/
def isValidPathString (pathString : String) : Bool :=
  pathString ≠ "" && pathString.toList.all fun c => c ∉ kInvalidPathCharacters

/-- No character of the string is one that a path must not have. -/
def PathChars (s : String) : Prop := ∀ c ∈ s.toList, c ∉ kInvalidPathCharacters

instance (s : String) : Decidable (PathChars s) :=
  inferInstanceAs (Decidable (∀ c ∈ s.toList, c ∉ kInvalidPathCharacters))

theorem isValidPathString_iff {s : String} : isValidPathString s ↔ s ≠ "" ∧ PathChars s := by
  simp [isValidPathString, PathChars]

/-- `componentsSeparatedByString:`, for a separator of one character. -/
def componentsSeparatedBy (string : String) (separator : Char) : List String :=
  (string.toList.splitOn separator).map String.ofList

/-- The non-empty pieces that `[FPath childFromString:]` appends. -/
def pathPieces (childPath : String) : Path :=
  (componentsSeparatedBy childPath '/').filter (· ≠ "")

/-- `[FIRDatabaseReference child:]`. -/
def child (path : Path) (pathString : String) : Except Fault Path :=
  if isValidPathString pathString then .ok (path ++ pathPieces pathString)
  else .error (.invalidPath pathString)

/-- A string without `/` is one piece of a path. -/
theorem pathPieces_of_not_mem {s : String} (hs : s ≠ "") (h : '/' ∉ s.toList) :
    pathPieces s = [s] := by
  rw [pathPieces, componentsSeparatedBy, List.splitOn_eq_singleton h]
  simp [hs]

/-- `child` with a string without `/` goes one level down. -/
theorem child_eq_ok {path path' : Path} {s : String} (h : '/' ∉ s.toList) :
    child path s = .ok path' ↔ isValidPathString s ∧ path' = path ++ [s] := by
  unfold child
  split
  · next hv =>
    have hs : s ≠ "" := by
      rintro rfl
      simp [isValidPathString] at hv
    rw [pathPieces_of_not_mem hs h]
    simp [hv, eq_comm]
  · next hv => simp [hv]

/-- `child` stays below its reference. -/
theorem prefix_of_child {path path' : Path} {s : String} (h : child path s = .ok path') :
    path <+: path' := by
  unfold child at h
  split at h
  · cases h
    exact List.prefix_append _ _
  · cases h

/-! ### Writes -/

/-- A `setValue` call: the location and the dictionary. -/
structure Write where
  path : Path
  value : Snapshot
  deriving DecidableEq

/-- The stored tree after a write was applied. -/
def Write.apply (tree : Snapshot) (w : Write) : Snapshot := tree.graft w.path w.value

/-- The stored tree after several writes, in order. -/
def applyAll (tree : Snapshot) (ws : List Write) : Snapshot := ws.foldl Write.apply tree

@[simp] theorem applyAll_nil (tree : Snapshot) : applyAll tree [] = tree := rfl

@[simp] theorem applyAll_cons (tree : Snapshot) (w : Write) (ws : List Write) :
    applyAll tree (w :: ws) = applyAll (w.apply tree) ws := rfl

/-- What writes leave below `p` depends only on what was below `p`. -/
theorem subtree_applyAll_congr {tree tree' : Snapshot} {p : Path}
    (h : tree.subtree p = tree'.subtree p) (ws : List Write) :
    (applyAll tree ws).subtree p = (applyAll tree' ws).subtree p := by
  induction ws generalizing tree tree' with
  | nil => exact h
  | cons w ws ih => exact ih (PathTree.subtree_graft_congr h w.path w.value)

theorem applyAll_append (tree : Snapshot) (ws vs : List Write) :
    applyAll tree (ws ++ vs) = applyAll (applyAll tree ws) vs := List.foldl_append

end MyChat
