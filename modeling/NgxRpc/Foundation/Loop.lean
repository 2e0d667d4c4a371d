import Mathlib.Data.Nat.Notation
import Mathlib.Data.Option.Basic

/-!
# Loops that may not end

`body s` is one round of a loop: it goes on in a new state, or leaves the loop
with a result. A loop that returns does so for some number of rounds, and a loop
whose rounds keep an invariant and never leave it returns nothing.
-/

namespace Loop

variable {σ ρ : Type*} {body : σ → σ ⊕ ρ} {s s' : σ} {r r' : ρ}

/-- The result after at most `n` rounds. -/
def loop (body : σ → σ ⊕ ρ) : ℕ → σ → Option ρ
  | 0, _ => none
  | n + 1, s =>
    match body s with
    | .inl s' => loop body n s'
    | .inr r => some r

/-- The loop ends with result `r`. -/
def Returns (body : σ → σ ⊕ ρ) (s : σ) (r : ρ) : Prop :=
  ∃ n, loop body n s = some r

theorem loop_stop (h : body s = .inr r) (n : ℕ) : loop body (n + 1) s = some r := by
  simp [loop, h]

theorem loop_next (h : body s = .inl s') (n : ℕ) : loop body (n + 1) s = loop body n s' := by
  simp [loop, h]

theorem Returns.stop (h : body s = .inr r) : Returns body s r :=
  ⟨1, loop_stop h 0⟩

theorem Returns.next (h : body s = .inl s') (hr : Returns body s' r) : Returns body s r := by
  obtain ⟨n, hn⟩ := hr
  exact ⟨n + 1, (loop_next h n).trans hn⟩

theorem returns_stop_iff (h : body s = .inr r') : Returns body s r ↔ r = r' := by
  refine ⟨?_, fun he => he ▸ .stop h⟩
  rintro ⟨n, hn⟩
  cases n with
  | zero => cases hn
  | succ n => exact Option.some.inj (hn.symm.trans (loop_stop h n))

theorem returns_next_iff (h : body s = .inl s') : Returns body s r ↔ Returns body s' r := by
  refine ⟨?_, .next h⟩
  rintro ⟨n, hn⟩
  cases n with
  | zero => cases hn
  | succ n => exact ⟨n, (loop_next h n).symm.trans hn⟩

/-- A loop returns only what some round leaves it with. -/
theorem Returns.exists_stop (h : Returns body s r) : ∃ s', body s' = .inr r := by
  obtain ⟨n, hn⟩ := h
  induction n generalizing s with
  | zero => cases hn
  | succ n ih =>
    cases hb : body s with
    | inl s' => exact ih ((loop_next hb n).symm.trans hn)
    | inr q => exact ⟨s, hb.trans (congrArg _ (Option.some.inj ((loop_stop hb n).symm.trans hn)))⟩

/-- A result that no round in the invariant leaves with is never returned. -/
theorem not_returns (Inv : σ → Prop) (hstep : ∀ s s', Inv s → body s = .inl s' → Inv s')
    (hstop : ∀ s, Inv s → body s ≠ .inr r) (hs : Inv s) : ¬Returns body s r := by
  rintro ⟨n, hn⟩
  induction n generalizing s with
  | zero => cases hn
  | succ n ih =>
    cases hb : body s with
    | inl s' => exact ih (hstep s s' hs hb) ((loop_next hb n).symm.trans hn)
    -- the loop is left here, with what the round returns
    | inr q =>
      have hq : q = r := Option.some.inj ((loop_stop hb n).symm.trans hn)
      exact hstop s hs (hq ▸ hb)

/-- A round that changes nothing is repeated for ever. -/
theorem not_returns_of_fixed (h : body s = .inl s) : ¬Returns body s r :=
  not_returns (· = s) (fun s₁ s₂ hs hb => by rw [hs, h] at hb; exact (Sum.inl.inj hb).symm)
    (fun s₁ hs hb => by rw [hs, h] at hb; cases hb) rfl

end Loop
