import MyChat.App
import MyChat.Lib.Transition
import Mathlib.Logic.Function.Basic

/-!
# MyChat.System

Any number of devices around one database. A `setValue` call is queued on the
device that made it; `flush` lets the server apply the oldest queued write of one
device. Between flushes the devices act in any order, each on what it sees: the
data on the server with its own queued writes on top.

The server keeps the log of the writes it applied. Only statements and proofs look
at it; the devices see the tree.
-/

namespace MyChat

/-- The database: the tree, and the applied writes that produced it. -/
structure Server where
  log : List Write
  tree : Snapshot
  tree_eq : tree = applyAll ∅ log

namespace Server

/-- A database into which nothing was written. -/
def empty : Server := ⟨[], ∅, rfl⟩

/-- The server applies a write. -/
def apply (server : Server) (w : Write) : Server where
  log := server.log ++ [w]
  tree := w.apply server.tree
  tree_eq := by rw [applyAll_append, ← server.tree_eq]; rfl

@[simp] theorem log_apply (server : Server) (w : Write) :
    (server.apply w).log = server.log ++ [w] := rfl

@[simp] theorem tree_apply (server : Server) (w : Write) :
    (server.apply w).tree = w.apply server.tree := rfl

end Server

/-- The database and the processes of all devices. -/
structure System (ι : Type) where
  server : Server
  devices : ι → Device

/-- What can happen in the system. -/
inductive Event (ι : Type)
  /-- Something happens in the process of `device`. -/
  | act (device : ι) (action : Action)
  /-- The oldest queued write of `device` is applied by the server. -/
  | flush (device : ι)

namespace System

variable {ι : Type} [DecidableEq ι]

/-- Every device was just started without a token, and nothing is stored. -/
def Initial (s : System ι) : Prop :=
  s.server = Server.empty ∧
    ∀ δ, ∃ randomId, isRandomString 20 randomId ∧ s.devices δ = Device.launch none randomId

/-- One event. -/
def step (s : System ι) : Event ι → Except Fault (System ι)
  | .act δ action => do
      let dev ← (s.devices δ).act s.server.tree action
      return { s with devices := Function.update s.devices δ dev }
  | .flush δ =>
      match (s.devices δ).pending with
      | [] => .error .disabled
      | w :: ws => .ok {
          server := s.server.apply w
          devices := Function.update s.devices δ { s.devices δ with pending := ws } }

/-- The states reached by runs whose events all satisfy `guard`. -/
abbrev Reachable (guard : System ι → Event ι → Prop) : System ι → Prop :=
  Transition.Reach step Initial guard

/-- The runs whose events all satisfy `guard`, with their steps. -/
abbrev Run (guard : System ι → Event ι → Prop) :
    List (System ι × Event ι × System ι) → System ι → Prop :=
  Transition.Trace step Initial guard

theorem step_act_eq_ok {s s' : System ι} {δ : ι} {action : Action} :
    s.step (.act δ action) = .ok s' ↔
      ∃ dev, (s.devices δ).act s.server.tree action = .ok dev ∧
        s' = { s with devices := Function.update s.devices δ dev } := by
  simp only [step, bind_eq_ok]
  refine exists_congr fun dev => and_congr_right fun _ => ?_
  exact ⟨fun h => (Except.ok.inj h).symm, fun h => by rw [h]; rfl⟩

theorem step_flush_eq_ok {s s' : System ι} {δ : ι} :
    s.step (.flush δ) = .ok s' ↔
      ∃ w ws, (s.devices δ).pending = w :: ws ∧
        s' = { server := s.server.apply w
               devices := Function.update s.devices δ { s.devices δ with pending := ws } } := by
  rw [step]
  split
  · next h => simp [h]
  · next w ws h => simp [h, eq_comm]

/-- **Invariants of the single processes.** A property that a process just started has,
that does not depend on the queue, and that every allowed action keeps. -/
theorem device_invariant {guard : System ι → Event ι → Prop} {P : ι → Device → Prop}
    (hlaunch : ∀ δ randomId, P δ (Device.launch none randomId))
    (hpending : ∀ δ dev ws, P δ dev → P δ { dev with pending := ws })
    (hact : ∀ s δ action dev', Reachable guard s → P δ (s.devices δ) → guard s (.act δ action) →
      (s.devices δ).act s.server.tree action = .ok dev' → P δ dev')
    {s : System ι} (h : Reachable guard s) : ∀ δ, P δ (s.devices δ) := by
  refine h.invariant (I := fun s => ∀ δ, P δ (s.devices δ)) ?_ ?_
  · intro s hs δ
    obtain ⟨randomId, -, hδ⟩ := hs.2 δ
    rw [hδ]
    exact hlaunch δ randomId
  · intro s e s' hr hP hguard hstep
    cases e with
    | act δ action =>
        obtain ⟨dev, hdev, rfl⟩ := step_act_eq_ok.mp hstep
        have hδ : P δ dev := hact s δ action dev hr (hP δ) hguard hdev
        exact (Function.forall_update_iff s.devices P).mpr ⟨hδ, fun δ' _ => hP δ'⟩
    | flush δ =>
        obtain ⟨w, ws, -, rfl⟩ := step_flush_eq_ok.mp hstep
        have hδ : P δ { s.devices δ with pending := ws } := hpending δ _ ws (hP δ)
        exact (Function.forall_update_iff s.devices P).mpr ⟨hδ, fun δ' _ => hP δ'⟩

end System

end MyChat
