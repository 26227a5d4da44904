import MyChat.Contract
import MyChat.Lib.Interleave

/-!
# MyChat.Flushed

Which writes a run applied, and from whose queue. The server applies the writes of one
device in the order the device queued them, and interleaves the devices in any way:
what a device issued (`stream`) is what the server applied of it followed by what is
still queued, and a flush does not change it.
-/

namespace MyChat

namespace System

variable {ι : Type} [DecidableEq ι]

/-- The runs that continue from `s₀`, with their steps. -/
abbrev RunFrom (guard : System ι → Event ι → Prop) (s₀ : System ι) :
    List (System ι × Event ι × System ι) → System ι → Prop :=
  Transition.Trace step (fun s => s = s₀) guard

/-- The writes a run applied, each with the device it was queued on. -/
def flushed (tr : List (System ι × Event ι × System ι)) : List (ι × Write) :=
  tr.filterMap fun x =>
    match x.2.1 with
    | .flush δ => (x.1.devices δ).pending.head?.map (δ, ·)
    | .act _ _ => none

/-- What `δ` issued: the applied writes, then the queued ones. -/
def stream (tr : List (System ι × Event ι × System ι)) (s : System ι) (δ : ι) : List Write :=
  Interleave.proj δ (flushed tr) ++ (s.devices δ).pending

variable {tr : List (System ι × Event ι × System ι)} {s s' s₀ : System ι} {δ : ι}

omit [DecidableEq ι] in
@[simp] theorem flushed_nil : flushed ([] : List (System ι × Event ι × System ι)) = [] := rfl

omit [DecidableEq ι] in
theorem flushed_act (action : Action) :
    flushed (tr ++ [(s, .act δ action, s')]) = flushed tr := by
  rw [flushed, flushed, List.filterMap_append]
  simp

omit [DecidableEq ι] in
theorem flushed_flush {w : Write} {ws : List Write} (h : (s.devices δ).pending = w :: ws) :
    flushed (tr ++ [(s, .flush δ, s')]) = flushed tr ++ [(δ, w)] := by
  rw [flushed, flushed, List.filterMap_append]
  simp [h]

/-- A flush moves a write from the queue to the applied ones. -/
theorem stream_flush {δ' : ι} (h : s.step (.flush δ') = .ok s') :
    stream (tr ++ [(s, .flush δ', s')]) s' δ = stream tr s δ := by
  obtain ⟨w, ws, hpending, rfl⟩ := step_flush_eq_ok.mp h
  rw [stream, stream, flushed_flush hpending, Interleave.proj_append]
  by_cases hδ : δ' = δ
  · subst hδ
    rw [Interleave.proj_singleton_self, hpending]
    simp
  · rw [Interleave.proj_singleton_of_ne hδ]
    simp only [Function.update_of_ne (Ne.symm hδ), List.append_nil]

/-- An action changes what was issued as it changes the queue. -/
theorem stream_act {δ' : ι} {action : Action} {ws : List Write}
    (h : (s'.devices δ).pending = (s.devices δ).pending ++ ws) :
    stream (tr ++ [(s, .act δ' action, s')]) s' δ = stream tr s δ ++ ws := by
  rw [stream, stream, flushed_act, h, List.append_assoc]

namespace RunFrom

variable {guard : System ι → Event ι → Prop}

/-- The log grows by the applied writes. -/
theorem log_eq (h : RunFrom guard s₀ tr s) :
    s.server.log = s₀.server.log ++ (flushed tr).map Prod.snd := by
  induction h with
  | start h =>
      subst h
      simp
  | @next tr s s' e _ _ hstep ih =>
      cases e with
      | act δ action =>
          obtain ⟨dev, -, rfl⟩ := step_act_eq_ok.mp hstep
          rw [flushed_act]
          exact ih
      | flush δ =>
          obtain ⟨w, ws, hpending, rfl⟩ := step_flush_eq_ok.mp hstep
          rw [flushed_flush hpending, List.map_append, ← List.append_assoc, ← ih]
          rfl

/-- The tree is the old one with the applied writes. -/
theorem tree_eq (h : RunFrom guard s₀ tr s) :
    s.server.tree = applyAll s₀.server.tree ((flushed tr).map Prod.snd) := by
  rw [s.server.tree_eq, h.log_eq, applyAll_append, ← s₀.server.tree_eq]

/-- What a run reaches from a reachable state is reachable. -/
theorem reachable {guard' : System ι → Event ι → Prop} (hguard : ∀ s e, guard s e → guard' s e)
    (h : RunFrom guard s₀ tr s) (h₀ : Reachable guard' s₀) : Reachable guard' s := by
  induction h with
  | start h =>
      subst h
      exact h₀
  | next _ hg hstep ih => exact .next ih (hguard _ _ hg) hstep

end RunFrom

end System

/-- The process of `δ` is not started anew. -/
def NotRestarted {ι : Type} (δ : ι) (e : Event ι) : Prop :=
  match e with
  | .act δ' (.relaunch _) => δ' ≠ δ
  | _ => True

/-- While a process runs, what it issued only grows. -/
theorem System.RunFrom.stream_eq {ι : Type} [DecidableEq ι] {guard : System ι → Event ι → Prop}
    {s s₀ : System ι} {δ : ι} {tr : List (System ι × Event ι × System ι)}
    (hguard : ∀ s e, guard s e → NotRestarted δ e) (h : System.RunFrom guard s₀ tr s) :
    ∃ later, System.stream tr s δ = (s₀.devices δ).pending ++ later := by
  induction h with
  | start h =>
      subst h
      exact ⟨[], by simp [System.stream]⟩
  | @next tr s s' e _ hg hstep ih =>
      obtain ⟨later, hstream⟩ := ih
      cases e with
      | flush δ' => exact ⟨later, by rw [System.stream_flush hstep, hstream]⟩
      | act δ' action =>
          obtain ⟨dev', hact, rfl⟩ := System.step_act_eq_ok.mp hstep
          obtain ⟨ws, hws⟩ : ∃ ws, (Function.update s.devices δ' dev' δ).pending =
              (s.devices δ).pending ++ ws := by
            by_cases hδ : δ = δ'
            · subst hδ
              rw [Function.update_self]
              rcases (Device.act_inv hact).writes with ⟨randomId, rfl, -⟩ | ⟨ws, -, hpending⟩
              · exact absurd rfl (hguard _ _ hg)
              · exact ⟨ws, hpending⟩
            · exact ⟨[], by rw [Function.update_of_ne hδ, List.append_nil]⟩
          exact ⟨later ++ ws, by rw [System.stream_act hws, hstream, List.append_assoc]⟩

/-- What a run applied are records. -/
theorem Contract.Inv.record_of_flushed {ι : Type} [DecidableEq ι] {C : Contract ι}
    {guard : System ι → Event ι → Prop} {s s₀ : System ι}
    {tr : List (System ι × Event ι × System ι)} (h : C.Inv s) (hrun : System.RunFrom guard s₀ tr s) :
    ∀ w ∈ (System.flushed tr).map Prod.snd, ∃ r : Record, w = r.write := by
  intro w hw
  have hmem : w ∈ s.server.log := by
    rw [hrun.log_eq]
    exact List.mem_append_right _ hw
  obtain ⟨δ, r, hr, -⟩ := h.log w hmem
  exact ⟨r, hr⟩

end MyChat
