import NgxRpc.Foundation.Runs
import Mathlib.Data.List.Basic

/-!
# Simulation of the shown events

Some actions of a system show an event, the others are internal. An abstract machine simulates the
system when every shown event is a step of it, from related to related states, and the other
actions leave it where it is. Then the events of every run are a run of the machine.

## Main definitions

- `shown` — the events of a run
- `Simulates` — one action, in both

## Main results

- `Simulates.run` — whole runs
- `exec_invariant` — what the machine's state says about the events so far
-/

namespace Transition

variable {σ τ α β : Type*} {step : σ → α → Option σ} {event : σ → α → Option β}
  {mstep : τ → β → Option τ} {R : σ → τ → Prop} {s s' : σ} {x x' : τ} {as : List α} {bs : List β}

/-- The events that a run shows, in their order. -/
def shown (step : σ → α → Option σ) (event : σ → α → Option β) : σ → List α → List β
  | _, [] => []
  | s, a :: as => (event s a).toList ++ (step s a).elim [] fun s' => shown step event s' as

/-- The machine follows the shown events, and stands still otherwise. -/
structure Simulates (step : σ → α → Option σ) (event : σ → α → Option β)
    (mstep : τ → β → Option τ) (R : σ → τ → Prop) : Prop where
  still : ∀ {s a s' x}, R s x → step s a = some s' → event s a = none → R s' x
  moves : ∀ {s a s' x b}, R s x → step s a = some s' → event s a = some b →
    ∃ x', mstep x b = some x' ∧ R s' x'

theorem exec_nil : exec mstep x [] = some x := rfl

theorem exec_cons (b : β) (bs : List β) :
    exec mstep x (b :: bs) = (mstep x b).bind fun x' => exec mstep x' bs := rfl

/-- The machine takes what a run shows. -/
theorem Simulates.run (h : Simulates step event mstep R) (hR : R s x)
    (hrun : exec step s as = some s') :
    ∃ x', exec mstep x (shown step event s as) = some x' ∧ R s' x' := by
  induction as generalizing s x with
  | nil =>
    obtain rfl : s = s' := by simpa [exec, Transition.run] using hrun
    exact ⟨x, rfl, hR⟩
  | cons a as ih =>
    rw [exec_cons] at hrun
    obtain ⟨mid, hmid, hrest⟩ := Option.bind_eq_some_iff.mp hrun
    rw [shown, hmid, Option.elim_some]
    cases he : event s a with
    | none => exact ih (h.still hR hmid he) hrest
    | some b =>
      obtain ⟨y, hy, hRy⟩ := h.moves hR hmid he
      obtain ⟨x', hx', hR'⟩ := ih hRy hrest
      refine ⟨x', ?_, hR'⟩
      rw [Option.toList_some, List.singleton_append, exec_cons, hy, Option.bind_some, hx']

/-- An invariant of the state and of the events so far. -/
theorem exec_invariant {Inv : List β → τ → Prop}
    (hstep : ∀ bs x b x', Inv bs x → mstep x b = some x' → Inv (bs ++ [b]) x') {past : List β}
    (hpast : Inv past x) (hrun : exec mstep x bs = some x') : Inv (past ++ bs) x' := by
  induction bs generalizing x past with
  | nil =>
    obtain rfl : x = x' := by simpa [exec, Transition.run] using hrun
    rwa [List.append_nil]
  | cons b bs ih =>
    rw [exec_cons] at hrun
    obtain ⟨mid, hmid, hrest⟩ := Option.bind_eq_some_iff.mp hrun
    rw [List.append_cons]
    exact ih (hstep past x b mid hpast hmid) hrest

end Transition
