import Mathlib.Data.Option.Basic
import Mathlib.Order.Basic

/-!
# Runs of partial labelled transition systems

`step : σ → α → Option σ` executes one action; `none` means that the action is
not enabled. A run may be restricted by a side condition `ok` on the state
before a step and the action taken there. The module gives the induction rule
for invariants and the executable form of a run.
-/

namespace Transition

variable {σ α : Type*}

/-- The states reached from `init` by steps that all satisfy `ok`. -/
inductive RunsTo (step : σ → α → Option σ) (ok : σ → α → Prop) (init : σ) : σ → Prop where
  | start : RunsTo step ok init init
  | next {s s' : σ} {a : α} :
      RunsTo step ok init s → ok s a → step s a = some s' → RunsTo step ok init s'

/-- The states reached by any steps at all. -/
abbrev Reachable (step : σ → α → Option σ) (init : σ) : σ → Prop :=
  RunsTo step (fun _ _ => True) init

variable {step : σ → α → Option σ} {ok : σ → α → Prop} {init s : σ}

/-- An invariant holds initially and is kept by every permitted step. The step
premise may use that its source state is itself reached by permitted steps. -/
theorem RunsTo.invariant (Inv : σ → Prop) (h0 : Inv init)
    (hstep : ∀ s a s', RunsTo step ok init s → Inv s → ok s a → step s a = some s' → Inv s')
    (h : RunsTo step ok init s) : Inv s := by
  induction h with
  | start => exact h0
  | next hr hok hs ih => exact hstep _ _ _ hr ih hok hs

theorem RunsTo.trans {s' : σ} (h : RunsTo step ok init s) (h' : RunsTo step ok s s') :
    RunsTo step ok init s' := by
  induction h' with
  | start => exact h
  | next _ hok hs ih => exact .next ih hok hs

/-- Execute a list of actions, stopping with `none` when one is not enabled or
fails the side condition. -/
def run (step : σ → α → Option σ) (okb : σ → α → Bool) : σ → List α → Option σ
  | s, [] => some s
  | s, a :: as => if okb s a then (step s a).bind fun s' => run step okb s' as else none

/-- The executable run is a run. -/
theorem runsTo_of_run {okb : σ → α → Bool} (hok : ∀ s a, okb s a = true → ok s a)
    {as : List α} {s' : σ} (h : run step okb s as = some s') : RunsTo step ok s s' := by
  induction as generalizing s with
  | nil =>
    obtain rfl : s = s' := by simpa [run] using h
    exact .start
  | cons a as ih =>
    simp only [run] at h
    split at h
    · next hb =>
      obtain ⟨mid, hmid, hrest⟩ := Option.bind_eq_some_iff.mp h
      exact (RunsTo.next .start (hok _ _ hb) hmid).trans (ih hrest)
    · cases h

/-- Execute a list of actions without a side condition. -/
def exec (step : σ → α → Option σ) : σ → List α → Option σ :=
  run step fun _ _ => true

theorem reachable_of_exec {as : List α} {s' : σ} (h : exec step s as = some s') :
    Reachable step s s' :=
  runsTo_of_run (fun _ _ _ => trivial) h

end Transition
