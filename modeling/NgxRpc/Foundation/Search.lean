import Mathlib.Data.List.Basic
import Mathlib.Tactic.Common

/-!
# Searching lists

The first occurrence of a list in another one, all occurrences replaced from left to
right, and lists that are joined with a separator.

## Main definitions

- `indexOf` — where the first occurrence starts
- `replaced` — the occurrences replaced, scanned left to right without overlap
- `Splits` — what stands between these occurrences

## Main results

- `replaced_of_splits` — replacing joins the same parts with the replacement
-/

namespace Search

/-- Where two splits at a separator agree, one of the front parts extends the other. -/
theorem append_sep_eq {α : Type} {a a' b b' : List α} {x : α} (h : a ++ x :: b = a' ++ x :: b') :
    (a = a' ∧ b = b') ∨ (∃ t, a' = a ++ x :: t ∧ b = t ++ x :: b') ∨
      ∃ t, a = a' ++ x :: t ∧ b' = t ++ x :: b := by
  obtain ⟨t, rfl, ht⟩ | ⟨t, rfl, ht⟩ := List.append_eq_append_iff.mp h
  · cases t with
    | nil => exact Or.inl ⟨by simp, by simpa using ht⟩
    | cons c t =>
      obtain ⟨rfl, rfl⟩ := List.cons.inj ht
      exact Or.inr (Or.inl ⟨t, rfl, rfl⟩)
  · cases t with
    | nil => exact Or.inl ⟨by simp, by simpa using ht.symm⟩
    | cons c t =>
      obtain ⟨rfl, rfl⟩ := List.cons.inj ht
      exact Or.inr (Or.inr ⟨t, rfl, rfl⟩)

/-- A separator that does not stand after it shows where a list was split. -/
theorem append_sep_inj {α : Type} {a a' b b' : List α} {x : α} (h : a ++ x :: b = a' ++ x :: b')
    (hb : x ∉ b) (hb' : x ∉ b') : a = a' ∧ b = b' := by
  obtain hsame | ⟨t, -, rfl⟩ | ⟨t, -, rfl⟩ := append_sep_eq h
  · exact hsame
  · simp at hb
  · simp at hb'

/-- So does a separator that does not stand before it. -/
theorem append_sep_inj_left {α : Type} {a a' b b' : List α} {x : α}
    (h : a ++ x :: b = a' ++ x :: b') (ha : x ∉ a) (ha' : x ∉ a') : a = a' ∧ b = b' := by
  obtain hsame | ⟨t, rfl, -⟩ | ⟨t, rfl, -⟩ := append_sep_eq h
  · exact hsame
  · simp at ha'
  · simp at ha

section Splits

variable {α : Type} {search l : List α}

/-- `l` consists of `pieces` with an occurrence of `search` between any two of them: the first
occurrence, then the first one behind it, and so on until there is none. -/
inductive Splits (search : List α) : List α → List (List α) → Prop where
  | last {rest} (h : ¬search <:+: rest) : Splits search rest [rest]
  | cons {a b pieces}
      (hfirst : ∀ a' b', a ++ (search ++ b) = a' ++ (search ++ b') → a.length ≤ a'.length)
      (hrest : Splits search b pieces) : Splits search (a ++ (search ++ b)) (a :: pieces)

namespace Splits

variable {pieces pieces' : List (List α)}

theorem ne_nil (h : Splits search l pieces) : pieces ≠ [] := by
  cases h with
  | last => exact List.cons_ne_nil _ _
  | cons => exact List.cons_ne_nil _ _

theorem intercalate (h : Splits search l pieces) : search.intercalate pieces = l := by
  induction h with
  | last => exact List.intercalate_singleton
  | cons _ hrest ih => rw [List.intercalate_cons_of_ne_nil hrest.ne_nil, ih, List.append_assoc]

/-- There is one way to split a list. -/
theorem unique (h : Splits search l pieces) (h' : Splits search l pieces') :
    pieces = pieces' := by
  induction h generalizing pieces' with
  | @last l hnot =>
    cases h' with
    | last => rfl
    | @cons a b => exact absurd ⟨a, b, List.append_assoc _ _ _⟩ hnot
  | @cons a b pieces hfirst _ ih =>
    generalize he : a ++ (search ++ b) = l at h'
    cases h' with
    | last hnot => exact absurd ⟨a, b, by rw [List.append_assoc, he]⟩ hnot
    | @cons a' b' pieces' hfirst' hrest' =>
      have hlen : a.length = a'.length :=
        Nat.le_antisymm (hfirst a' b' he) (hfirst' a b he.symm)
      obtain ⟨rfl, hb⟩ := List.append_inj he hlen
      obtain rfl := List.append_cancel_left hb
      rw [ih hrest']

end Splits

end Splits

variable {α : Type} [DecidableEq α] {search rep l : List α}

/-- The number of elements before the first occurrence of `search`. -/
def indexOf (search : List α) : List α → Option ℕ
  | [] => if search = [] then some 0 else none
  | c :: cs => if search <+: c :: cs then some 0 else (indexOf search cs).map (· + 1)

/-- Every occurrence of `search` replaced by `rep`, from left to right; the scan goes on
after the occurrence, and never looks at what was put in. -/
def replaced (search rep : List α) : List α → List α
  | [] => []
  | c :: cs =>
    if search <+: c :: cs then rep ++ replaced search rep (cs.drop (search.length - 1))
    else c :: replaced search rep cs
termination_by l => l.length
decreasing_by
  · simp only [List.length_drop, List.length_cons]
    omega
  · simp

/-- Without an occurrence nothing is replaced. -/
theorem replaced_of_indexOf_none (h : indexOf search l = none) : replaced search rep l = l := by
  induction l with
  | nil => rw [replaced]
  | cons c cs ih =>
    rw [indexOf] at h
    split at h
    · cases h
    · next hnot =>
      rw [replaced, if_neg hnot, ih (Option.map_eq_none_iff.mp h)]

/-- The first occurrence splits the list, and what is after it is replaced in the same way. -/
theorem replaced_of_indexOf_some (rep : List α) {i : ℕ} (hs : search ≠ [])
    (h : indexOf search l = some i) :
    ∃ a b, l = a ++ (search ++ b) ∧ a.length = i ∧
      replaced search rep l = a ++ (rep ++ replaced search rep b) := by
  induction l generalizing i with
  | nil => simp [indexOf, hs] at h
  | cons c cs ih =>
    rw [indexOf] at h
    split at h
    · next hpre =>
      have hlen : search.length - 1 + 1 = search.length := by
        have := List.length_pos_iff.mpr hs
        omega
      obtain ⟨b, hb⟩ := id hpre
      have hdrop : cs.drop (search.length - 1) = b :=
        calc cs.drop (search.length - 1) = (c :: cs).drop (search.length - 1 + 1) := rfl
          _ = b := by rw [hlen, ← hb, List.drop_left]
      refine ⟨[], b, hb.symm, Option.some.inj h, ?_⟩
      rw [replaced, if_pos hpre, hdrop]
      rfl
    · next hnot =>
      obtain ⟨j, hj, rfl⟩ := Option.map_eq_some_iff.mp h
      obtain ⟨a, b, rfl, rfl, hrep⟩ := ih hj
      refine ⟨c :: a, b, rfl, rfl, ?_⟩
      rw [replaced, if_neg hnot, hrep]
      rfl

theorem indexOf_eq_none_iff : indexOf search l = none ↔ ¬search <:+: l := by
  induction l with
  | nil => simp [indexOf]
  | cons c cs ih =>
    rw [List.infix_cons_iff, not_or, ← ih, indexOf]
    split
    · next hpre => simp [hpre]
    · next hnot => simp [hnot]

/-- No occurrence starts before the one that is found. -/
theorem le_of_indexOf {i : ℕ} (h : indexOf search l = some i) {a b : List α}
    (he : l = a ++ (search ++ b)) : i ≤ a.length := by
  induction a generalizing l i with
  | nil =>
    subst he
    rw [List.nil_append] at h
    cases hl : search ++ b with
    | nil =>
      rw [hl, indexOf, if_pos (List.append_eq_nil_iff.mp hl).1] at h
      obtain rfl := Option.some.inj h
      exact Nat.zero_le _
    | cons c cs =>
      rw [hl, indexOf, if_pos ⟨b, hl⟩] at h
      obtain rfl := Option.some.inj h
      exact Nat.zero_le _
  | cons c a ih =>
    subst he
    rw [List.cons_append] at h
    rw [indexOf] at h
    split at h
    · obtain rfl := Option.some.inj h
      exact Nat.zero_le _
    · obtain ⟨j, hj, rfl⟩ := Option.map_eq_some_iff.mp h
      exact Nat.succ_le_succ (ih hj rfl)

/-- Every list is split in some way, and replacing joins the parts with the replacement. -/
theorem exists_splits (hs : search ≠ []) (rep l : List α) :
    ∃ pieces, Splits search l pieces ∧ replaced search rep l = rep.intercalate pieces := by
  induction hn : l.length using Nat.strongRecOn generalizing l with
  | ind n ih =>
    subst hn
    cases hi : indexOf search l with
    | none =>
      refine ⟨[l], .last (indexOf_eq_none_iff.mp hi), ?_⟩
      rw [replaced_of_indexOf_none hi, List.intercalate_singleton]
    | some i =>
      obtain ⟨a, b, rfl, rfl, hrep⟩ := replaced_of_indexOf_some rep hs hi
      have hlt : b.length < (a ++ (search ++ b)).length := by
        have hpos := List.length_pos_iff.mpr hs
        simp only [List.length_append]
        omega
      obtain ⟨pieces, hrest, hpieces⟩ := ih b.length hlt b rfl
      refine ⟨a :: pieces, .cons (fun a' b' he => le_of_indexOf hi he) hrest, ?_⟩
      rw [hrep, hpieces, List.intercalate_cons_of_ne_nil hrest.ne_nil, List.append_assoc]

theorem replaced_of_splits (hs : search ≠ []) {pieces : List (List α)} (rep : List α)
    (h : Splits search l pieces) : replaced search rep l = rep.intercalate pieces := by
  obtain ⟨pieces', h', hrep⟩ := exists_splits hs rep l
  rw [hrep, h'.unique h]

/-- A single element is replaced wherever it stands. -/
theorem replaced_singleton (x y : α) (l : List α) :
    replaced [x] [y] l = l.map fun c => if c = x then y else c := by
  induction l with
  | nil => rw [replaced, List.map_nil]
  | cons c cs ih =>
    have hpre : [x] <+: c :: cs ↔ c = x := by
      rw [List.cons_prefix_cons]
      simp [eq_comm]
    rw [replaced, List.map_cons]
    simp only [hpre]
    split
    · simpa using ih
    · rw [ih]

end Search
