import Mathlib.Data.List.Basic
import Mathlib.Tactic.Common

/-!
# Runs of a labelled machine

A machine is a partial function `step : σ → α → Option (σ × List ε)`: in a state, an action is
disabled or leads to a state and emits events.  `Run P h₀ s₀ h s` are the runs from `s₀` to `s` that
take the events from `h₀` to `h` and whose every step satisfies `P`, a condition on the events before
the step, the state before the step and the action.

A machine that answers every input with an output is a total function `step : σ → α → σ × ω`.  Some of its inputs are
hidden; they do not interfere with the others when the other inputs get the same answers with the hidden ones left out
(`Noninterference.Unwinding.outputs_eq`).  An unwinding relation reduces this to single steps: hidden inputs keep a state
related to what it was related to, and the others cannot tell related states apart.
-/

namespace Transition

variable {σ α ε : Type*} (step : σ → α → Option (σ × List ε))

inductive Run (P : List ε → σ → α → Prop) (h₀ : List ε) (s₀ : σ) : List ε → σ → Prop where
  | nil : Run P h₀ s₀ h₀ s₀
  | snoc {h : List ε} {s : σ} {a : α} {s' : σ} {ev : List ε} (hrun : Run P h₀ s₀ h s)
      (hP : P h s a) (hstep : step s a = some (s', ev)) : Run P h₀ s₀ (h ++ ev) s'

variable {step} {P Q : List ε → σ → α → Prop} {s₀ s : σ} {h₀ h : List ε}

/-- What holds at first and is kept by every step holds throughout. -/
theorem Run.invariant (hrun : Run step P h₀ s₀ h s) (I : List ε → σ → Prop) (hinit : I h₀ s₀)
    (hkeep : ∀ h s a s' ev, I h s → P h s a → step s a = some (s', ev) → I (h ++ ev) s') :
    I h s := by
  induction hrun with
  | nil => exact hinit
  | snoc _ hP hstep ih => exact hkeep _ _ _ _ _ ih hP hstep

theorem Run.trans {h' : List ε} {s' : σ} (hrun : Run step P h₀ s₀ h s) (hrun' : Run step P h s h' s') :
    Run step P h₀ s₀ h' s' := by
  induction hrun' with
  | nil => exact hrun
  | snoc _ hP hstep ih => exact .snoc ih hP hstep

theorem Run.mono (hrun : Run step P h₀ s₀ h s) (hPQ : ∀ h s a, P h s a → Q h s a) :
    Run step Q h₀ s₀ h s := by
  induction hrun with
  | nil => exact .nil
  | snoc _ hP hstep ih => exact .snoc ih (hPQ _ _ _ hP) hstep

/-- What the states of a run add to the condition on its steps. -/
theorem Run.and (hrun : Run step P h₀ s₀ h s)
    (hQ : ∀ h s a s' ev, Run step P h₀ s₀ h s → P h s a → step s a = some (s', ev) → Q h s a) :
    Run step (fun h s a => P h s a ∧ Q h s a) h₀ s₀ h s := by
  induction hrun with
  | nil => exact .nil
  | snoc hrun hP hstep ih => exact .snoc ih ⟨hP, hQ _ _ _ _ _ hrun hP hstep⟩ hstep

/-- The runs of a machine whose actions stand for those of another one. -/
theorem Run.map {β : Type*} {step' : σ → β → Option (σ × List ε)} {P' : List ε → σ → β → Prop} (f : β → α)
    (hstep : ∀ s b, step' s b = step s (f b)) (hrun : Run step' P' h₀ s₀ h s) :
    Run step (fun h s a => ∃ b, a = f b ∧ P' h s b) h₀ s₀ h s := by
  induction hrun with
  | nil => exact .nil
  | snoc _ hP hs ih => exact .snoc ih ⟨_, rfl, hP⟩ ((hstep _ _).symm.trans hs)

/-- A fixed list of actions, checking the condition at each. -/
def exec (step : σ → α → Option (σ × List ε)) (P : List ε → σ → α → Prop)
    [∀ h s a, Decidable (P h s a)] : List ε → σ → List α → Option (List ε × σ)
  | h, s, [] => some (h, s)
  | h, s, a :: as =>
    if P h s a then
      match step s a with
      | none => none
      | some (s', ev) => exec step P (h ++ ev) s' as
    else none

theorem run_of_exec [∀ h s a, Decidable (P h s a)] {as : List α} {h' : List ε} {s' : σ}
    (hrun : Run step P h₀ s₀ h s) (hexec : exec step P h s as = some (h', s')) :
    Run step P h₀ s₀ h' s' := by
  induction as generalizing h s with
  | nil =>
    cases hexec
    exact hrun
  | cons a as ih =>
    rw [exec] at hexec
    split at hexec
    · rename_i hP
      split at hexec
      · cases hexec
      · rename_i s₁ ev hstep
        exact ih (.snoc hrun hP hstep) hexec
    · cases hexec

/-- The same for a condition on the actions alone. -/
theorem exists_run_of_forall {A : α → Prop} (Q : List ε → σ → Prop) [∀ h s, Decidable (Q h s)] (as : List α)
    (hall : ∀ a ∈ as, A a)
    (hexec : (exec step (fun _ _ _ => True) h s as).any (fun r => Q r.1 r.2) = true) :
    ∃ h' s', Run step (fun _ _ a => A a) h s h' s' ∧ Q h' s' := by
  induction as generalizing h s with
  | nil => exact ⟨h, s, .nil, of_decide_eq_true hexec⟩
  | cons a as ih =>
    rw [exec, if_pos trivial] at hexec
    cases hstep : step s a with
    | none =>
      rw [hstep] at hexec
      cases hexec
    | some r =>
      rw [hstep] at hexec
      obtain ⟨h', s', hrun, hQ⟩ := ih (fun b hb => hall b (List.mem_cons_of_mem _ hb)) hexec
      exact ⟨h', s', (Run.snoc .nil (hall a List.mem_cons_self) hstep).trans hrun, hQ⟩

/-- A list of actions that runs to a state with a decidable property. -/
theorem exists_run_of_exec [∀ h s a, Decidable (P h s a)] (Q : List ε → σ → Prop)
    [∀ h s, Decidable (Q h s)] (as : List α)
    (hexec : (exec step P h₀ s₀ as).any (fun r => Q r.1 r.2) = true) :
    ∃ h s, Run step P h₀ s₀ h s ∧ Q h s := by
  cases hr : exec step P h₀ s₀ as with
  | none =>
    rw [hr] at hexec
    cases hexec
  | some r =>
    rw [hr] at hexec
    exact ⟨r.1, r.2, run_of_exec .nil hr, of_decide_eq_true hexec⟩

/-- The same from a start that may fail. -/
theorem exists_run_of_bind [∀ h s a, Decidable (P h s a)] {β : Type*} {o : Option β} (Q : List ε → σ → Prop)
    [∀ h s, Decidable (Q h s)] (start : β → σ) (as : List α)
    (hexec : (o.bind fun b => exec step P h₀ (start b) as).any (fun r => Q r.1 r.2) = true) :
    ∃ b h s, o = some b ∧ Run step P h₀ (start b) h s ∧ Q h s := by
  cases o with
  | none => cases hexec
  | some b =>
    obtain ⟨h, s, hrun, hQ⟩ := exists_run_of_exec Q as hexec
    exact ⟨b, h, s, rfl, hrun, hQ⟩

end Transition

/-! ### Hidden inputs -/

namespace Noninterference

variable {σ α ω : Type*} (step : σ → α → σ × ω)

/-- The inputs with their answers. -/
def outputs : σ → List α → List (α × ω)
  | _, [] => []
  | s, x :: xs => (x, (step s x).2) :: outputs (step s x).1 xs

structure Unwinding (hidden : α → Prop) (R : σ → σ → Prop) : Prop where
  hidden_step : ∀ {s s' x}, hidden x → R s s' → R (step s x).1 s'
  visible_step : ∀ {s s' x}, ¬ hidden x → R s s' →
    (step s x).2 = (step s' x).2 ∧ R (step s x).1 (step s' x).1

variable {step} {hidden : α → Prop} [DecidablePred hidden] {R : σ → σ → Prop}

/-- From related states, leaving out the hidden inputs changes no answer to the others. -/
theorem Unwinding.outputs_eq (h : Unwinding step hidden R) {s s' : σ} (hs : R s s') (xs : List α) :
    (outputs step s xs).filter (fun p => ¬ hidden p.1) =
      outputs step s' (xs.filter fun x => ¬ hidden x) := by
  induction xs generalizing s s' with
  | nil => rfl
  | cons x xs ih =>
    by_cases hx : hidden x
    · rw [outputs, List.filter_cons_of_neg (by simp [hx]), List.filter_cons_of_neg (by simp [hx])]
      exact ih (h.hidden_step hx hs)
    · obtain ⟨hout, hnext⟩ := h.visible_step hx hs
      rw [outputs, List.filter_cons_of_pos (by simp [hx]), List.filter_cons_of_pos (by simp [hx]),
        outputs, ih hnext, hout]

end Noninterference
