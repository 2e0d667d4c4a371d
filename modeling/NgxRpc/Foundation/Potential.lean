import NgxRpc.Foundation.Runs
import Mathlib.Algebra.BigOperators.Finprod
import Mathlib.Tactic.Common

/-!
# Potentials

Every step of a system is paid for at once, by the price of its action, or out of what the state
still owes. Then a run has no more steps than its actions have paid, and what was owed at its start.
What is owed is the sum over a family, of which one step changes one or two members.

## Main definitions

- `Owed` — the sum of a family of debts
- `spent` — what the actions of a run pay
- `Pays` — every step is paid for

## Main results

- `Owed.change`, `Owed.change_two` — a step that changes one member, or two
- `Pays.length_le` — a run is paid for
- `Pays.free_length_le` — a run of free actions ends
-/

namespace Transition
open Function

/-! ## Debts -/

variable {ι : Type*} {f f' : ι → ℕ} {k price : ℕ}

/-- The debts are finitely many, and they are `k` together. -/
def Owed (f : ι → ℕ) (k : ℕ) : Prop := (support f).Finite ∧ finsum f = k

theorem owed_zero : Owed (fun _ : ι => 0) 0 :=
  ⟨by simp [support], finsum_zero⟩

/-- One debt becomes another one. -/
theorem Owed.exchange (h : Owed f k) (i : ι) (hne : ∀ j, j ≠ i → f' j = f j) :
    ∃ k', Owed f' k' ∧ k' + f i = k + f' i := by
  classical
  obtain ⟨hfin, hsum⟩ := h
  let S := insert i hfin.toFinset
  have hsub : support f ⊆ S := by
    rw [Finset.coe_insert, Set.Finite.coe_toFinset]
    exact Set.subset_insert i _
  have hsub' : support f' ⊆ S := by
    intro j hj
    by_cases hji : j = i
    · exact Finset.mem_coe.mpr (hji ▸ Finset.mem_insert_self i _)
    · exact hsub (by rwa [mem_support, hne j hji] at hj)
  have hrest : ∑ j ∈ S.erase i, f' j = ∑ j ∈ S.erase i, f j :=
    Finset.sum_congr rfl fun j hj => hne j (Finset.ne_of_mem_erase hj)
  have hmem : i ∈ S := Finset.mem_insert_self i _
  refine ⟨finsum f', ⟨S.finite_toSet.subset hsub', rfl⟩, ?_⟩
  rw [← hsum, finsum_eq_sum_of_support_subset f hsub, finsum_eq_sum_of_support_subset f' hsub',
    ← Finset.add_sum_erase S f hmem, ← Finset.add_sum_erase S f' hmem, hrest]
  omega

/-- A step that changes one debt and takes one unit. -/
theorem Owed.change (h : Owed f k) (i : ι) (hne : ∀ j, j ≠ i → f' j = f j)
    (hle : f' i + 1 ≤ f i + price) : ∃ k', Owed f' k' ∧ k' + 1 ≤ k + price := by
  obtain ⟨k', hk', heq⟩ := h.exchange i hne
  exact ⟨k', hk', by omega⟩

/-- A step that changes two debts and takes one unit. -/
theorem Owed.change_two (h : Owed f k) {i j : ι} (hij : i ≠ j)
    (hne : ∀ l, l ≠ i → l ≠ j → f' l = f l) (hle : f' i + f' j + 1 ≤ f i + f j + price) :
    ∃ k', Owed f' k' ∧ k' + 1 ≤ k + price := by
  classical
  have hfirst : ∀ l, l ≠ i → update f i (f' i) l = f l := fun l hl => update_of_ne hl _ _
  have hsecond : ∀ l, l ≠ j → f' l = update f i (f' i) l := by
    intro l hl
    by_cases hli : l = i
    · rw [hli, update_self]
    · rw [update_of_ne hli, hne l hli hl]
  obtain ⟨k₁, hk₁, heq₁⟩ := h.exchange i hfirst
  obtain ⟨k₂, hk₂, heq₂⟩ := hk₁.exchange j hsecond
  rw [update_self] at heq₁
  rw [update_of_ne hij.symm] at heq₂
  exact ⟨k₂, hk₂, by omega⟩

/-! ## Runs -/

variable {σ α : Type*} {step : σ → α → Option σ} {cost : σ → α → ℕ} {Owes : σ → ℕ → Prop}
  {s s' : σ} {as : List α}

/-- What the actions of a run pay together. -/
def spent (step : σ → α → Option σ) (cost : σ → α → ℕ) : σ → List α → ℕ
  | _, [] => 0
  | s, a :: as => cost s a + (step s a).elim 0 fun s' => spent step cost s' as

/-- Every step takes one unit from what is owed and what its action pays. -/
def Pays (step : σ → α → Option σ) (cost : σ → α → ℕ) (Owes : σ → ℕ → Prop) : Prop :=
  ∀ s a s' k, Owes s k → step s a = some s' → ∃ k', Owes s' k' ∧ k' + 1 ≤ k + cost s a

/-- A run has at most as many steps as were paid for. -/
theorem Pays.length_le (h : Pays step cost Owes) {okb : σ → α → Bool} (hs : Owes s k)
    (hrun : run step okb s as = some s') :
    ∃ k', Owes s' k' ∧ as.length + k' ≤ spent step cost s as + k := by
  induction as generalizing s k with
  | nil =>
    obtain rfl : s = s' := by simpa [run] using hrun
    exact ⟨k, hs, by simp [spent]⟩
  | cons a as ih =>
    rw [run] at hrun
    split at hrun
    · obtain ⟨mid, hmid, hrest⟩ := Option.bind_eq_some_iff.mp hrun
      obtain ⟨k₁, hk₁, hle₁⟩ := h s a mid k hs hmid
      obtain ⟨k', hk', hle⟩ := ih hk₁ hrest
      refine ⟨k', hk', ?_⟩
      rw [List.length_cons, spent, hmid, Option.elim_some]
      omega
    · cases hrun

theorem spent_free {okb : σ → α → Bool} (hfree : ∀ s a, okb s a = true → cost s a = 0)
    (hrun : run step okb s as = some s') : spent step cost s as = 0 := by
  induction as generalizing s with
  | nil => rfl
  | cons a as ih =>
    rw [run] at hrun
    split at hrun
    · next hok =>
      obtain ⟨mid, hmid, hrest⟩ := Option.bind_eq_some_iff.mp hrun
      rw [spent, hmid, hfree s a hok, Option.elim_some, ih hrest]
    · cases hrun

/-- A run of free actions has no more steps than were owed before it. -/
theorem Pays.free_length_le (h : Pays step cost Owes) {okb : σ → α → Bool}
    (hfree : ∀ s a, okb s a = true → cost s a = 0) (hs : Owes s k)
    (hrun : run step okb s as = some s') : as.length ≤ k := by
  obtain ⟨k', -, hle⟩ := h.length_le hs hrun
  rw [spent_free hfree hrun] at hle
  omega

end Transition
