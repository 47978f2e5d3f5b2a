/-
Runs of a system whose steps may fail, under a condition on the steps that are
taken.  A run can be replayed from the list of its actions, so that a closed
one is found by evaluation.
-/
import Mathlib

namespace StepRuns

variable {S A : Type}

/-- The states that allowed steps lead to. -/
inductive Runs (step : S → A → Option S) (allowed : S → A → Prop) (start : S) :
    S → Prop where
  | refl : Runs step allowed start start
  | step {s s' : S} {action : A} (hruns : Runs step allowed start s)
      (hallowed : allowed s action) (hstep : step s action = some s') :
      Runs step allowed start s'

/-- Take steps one after the other, as long as they are allowed. -/
def replay (step : S → A → Option S) (allowed : S → A → Prop)
    [∀ s action, Decidable (allowed s action)] : S → List A → Option S
  | s, [] => some s
  | s, action :: rest =>
      if allowed s action then
        match step s action with
        | none => none
        | some s' => replay step allowed s' rest
      else none

variable {step : S → A → Option S} {allowed : S → A → Prop} {start s s' : S}

theorem Runs.invariant {P : S → Prop} (hstart : P start)
    (hstep : ∀ {s s' action}, P s → allowed s action →
      step s action = some s' → P s')
    (hruns : Runs step allowed start s) : P s := by
  induction hruns with
  | refl => exact hstart
  | step _ hallowed htaken ih => exact hstep ih hallowed htaken

variable [∀ s action, Decidable (allowed s action)] {actions : List A}

theorem replay_runs (hruns : Runs step allowed start s)
    (hreplay : replay step allowed s actions = some s') :
    Runs step allowed start s' := by
  induction actions generalizing s with
  | nil =>
      cases hreplay
      exact hruns
  | cons action rest ih =>
      rw [replay] at hreplay
      split at hreplay
      · rename_i hallowed
        split at hreplay
        · cases hreplay
        · rename_i hstep
          exact ih (hruns.step hallowed hstep) hreplay
      · cases hreplay

theorem exists_runs (check : S → Bool)
    (hcheck : (replay step allowed start actions).any check = true) :
    ∃ s, Runs step allowed start s ∧ check s := by
  cases hreplay : replay step allowed start actions with
  | none =>
      rw [hreplay] at hcheck
      cases hcheck
  | some s =>
      rw [hreplay] at hcheck
      exact ⟨s, replay_runs .refl hreplay, hcheck⟩

end StepRuns
