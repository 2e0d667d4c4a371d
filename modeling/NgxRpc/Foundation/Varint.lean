import Mathlib.Algebra.Order.Ring.Nat
import Mathlib.Data.List.Basic
import Mathlib.Tactic.Common
import Mathlib.Tactic.Ring

/-!
# Numbers in base 128

A number as bytes with seven bits each, the lowest first; the eighth bit says that more bytes
follow. Several byte strings stand for one number, since zeros may follow the highest digit,
and `write` gives the shortest of them.

## Main definitions

- `Varint.read` — the number at the front of a byte string, if it ends within `k` bytes
- `Varint.write` — the shortest form of a number
- `Varint.Whole` — a byte string that is one number

## Main results

- `whole_write`, `read_eq_some_iff` — what was written is read again, and what was read
- `length_write_le_iff` — the length of the shortest form
- `Whole.length_write_le` — it is the shortest
-/

namespace Varint

/-- The number at the front of the bytes and the bytes behind it. -/
def read : ℕ → List UInt8 → Option (ℕ × List UInt8)
  | 0, _ => none
  | _ + 1, [] => none
  | k + 1, b :: bs =>
    if b.toNat < 128 then some (b.toNat, bs)
    else (read k bs).map fun r => (b.toNat - 128 + 128 * r.1, r.2)

/-- The shortest form of a number below `128 ^ k`. -/
def write : ℕ → ℕ → List UInt8
  | 0, _ => []
  | k + 1, n =>
    if n < 128 then [UInt8.ofNat n] else UInt8.ofNat (n % 128 + 128) :: write k (n / 128)

/-- The bytes are one number, of at most `k` bytes. -/
def Whole (k : ℕ) (bytes : List UInt8) (n : ℕ) : Prop := read k bytes = some (n, [])

/-- The number that the low bits of the first `k` bytes give, when a byte follows each. -/
def digits : ℕ → List UInt8 → ℕ
  | 0, _ => 0
  | _ + 1, [] => 0
  | k + 1, b :: bs => b.toNat - 128 + 128 * digits k bs

variable {k j n m : ℕ} {b : UInt8} {bytes front rest more : List UInt8}

@[simp] theorem read_nil (k : ℕ) : read k [] = none := by cases k <;> rfl

theorem read_last (h : b.toNat < 128) : read (k + 1) (b :: bytes) = some (b.toNat, bytes) :=
  if_pos h

theorem read_more (h : 128 ≤ b.toNat) : read (k + 1) (b :: bytes) =
    (read k bytes).map fun r => (b.toNat - 128 + 128 * r.1, r.2) :=
  if_neg (Nat.not_lt.mpr h)

theorem write_of_lt (h : n < 128) : write (k + 1) n = [UInt8.ofNat n] := if_pos h

theorem write_of_ge (h : 128 ≤ n) :
    write (k + 1) n = UInt8.ofNat (n % 128 + 128) :: write k (n / 128) :=
  if_neg (Nat.not_lt.mpr h)

/-- What stands behind the number does not matter. -/
theorem read_append (h : read k bytes = some (n, rest)) (more : List UInt8) :
    read k (bytes ++ more) = some (n, rest ++ more) := by
  induction k generalizing bytes n with
  | zero => cases h
  | succ k ih =>
    cases bytes with
    | nil => cases h
    | cons b bytes =>
      obtain hb | hb := Nat.lt_or_ge b.toNat 128
      · rw [read_last hb] at h
        obtain ⟨rfl, rfl⟩ := Prod.mk.inj (Option.some.inj h)
        exact read_last hb
      · rw [read_more hb] at h
        obtain ⟨⟨n', rest'⟩, hr, he⟩ := Option.map_eq_some_iff.mp h
        obtain ⟨rfl, rfl⟩ := Prod.mk.inj he
        rw [List.cons_append, read_more hb, ih hr]
        rfl

/-- A number that is read is the front of the bytes. -/
theorem read_eq_some_iff : read k bytes = some (n, rest) ↔
    ∃ front, bytes = front ++ rest ∧ Whole k front n := by
  constructor
  · intro h
    induction k generalizing bytes n with
    | zero => cases h
    | succ k ih =>
      cases bytes with
      | nil => cases h
      | cons b bytes =>
        obtain hb | hb := Nat.lt_or_ge b.toNat 128
        · rw [read_last hb] at h
          obtain ⟨rfl, rfl⟩ := Prod.mk.inj (Option.some.inj h)
          exact ⟨[b], rfl, read_last hb⟩
        · rw [read_more hb] at h
          obtain ⟨⟨n', rest'⟩, hr, he⟩ := Option.map_eq_some_iff.mp h
          obtain ⟨rfl, rfl⟩ := Prod.mk.inj he
          obtain ⟨front, rfl, hwhole⟩ := ih hr
          refine ⟨b :: front, rfl, ?_⟩
          rw [Whole, read_more hb, show read k front = some (n', []) from hwhole]
          rfl
  · rintro ⟨front, rfl, h⟩
    exact read_append h rest

theorem Whole.read_front (h : Whole k front n) (rest : List UInt8) :
    read k (front ++ rest) = some (n, rest) :=
  read_append h rest

theorem Whole.ne_nil (h : Whole k bytes n) : bytes ≠ [] := by
  rintro rfl
  rw [Whole, read_nil] at h
  cases h

theorem Whole.length_pos (h : Whole k bytes n) : 0 < bytes.length :=
  List.length_pos_iff.mpr h.ne_nil

/-- A number is read with any larger limit. -/
theorem read_mono (hkj : k ≤ j) (h : read k bytes = some (n, rest)) :
    read j bytes = some (n, rest) := by
  induction k generalizing j bytes n rest with
  | zero => cases h
  | succ k ih =>
    obtain ⟨j, rfl⟩ := Nat.exists_eq_succ_of_ne_zero (show j ≠ 0 by omega)
    cases bytes with
    | nil => cases h
    | cons b bytes =>
      obtain hb | hb := Nat.lt_or_ge b.toNat 128
      · rwa [read_last hb] at h ⊢
      · rw [read_more hb] at h ⊢
        obtain ⟨⟨n', rest'⟩, hr, he⟩ := Option.map_eq_some_iff.mp h
        rw [ih (Nat.le_of_succ_le_succ hkj) hr, Option.map_some, he]

theorem Whole.mono (h : Whole k bytes n) (hkj : k ≤ j) : Whole j bytes n := read_mono hkj h

/-- The limit only has to hold the bytes. -/
theorem Whole.limit (h : Whole j bytes n) (hlen : bytes.length ≤ k) : Whole k bytes n := by
  induction j generalizing k bytes n with
  | zero => cases h
  | succ j ih =>
    cases bytes with
    | nil => cases h
    | cons b bytes =>
      obtain ⟨k, rfl⟩ := Nat.exists_eq_succ_of_ne_zero (show k ≠ 0 by rintro rfl; simp at hlen)
      obtain hb | hb := Nat.lt_or_ge b.toNat 128
      · rw [Whole, read_last hb] at h ⊢
        exact h
      · rw [Whole, read_more hb] at h ⊢
        obtain ⟨⟨n', rest'⟩, hr, he⟩ := Option.map_eq_some_iff.mp h
        obtain ⟨rfl, rfl⟩ := Prod.mk.inj he
        have hwhole : Whole k bytes n' := ih hr (Nat.le_of_succ_le_succ hlen)
        rw [show read k bytes = some (n', []) from hwhole]
        rfl

/-- A number whose bytes are not all there is not read with any limit. -/
theorem read_eq_none_of_short (h : read k bytes = none) (hlen : bytes.length ≤ k) (j : ℕ) :
    read j bytes = none := by
  by_contra hsome
  obtain ⟨⟨n, rest⟩, hr⟩ := Option.ne_none_iff_exists'.mp hsome
  obtain ⟨front, rfl, hwhole⟩ := read_eq_some_iff.mp hr
  have hlim : Whole k front n := hwhole.limit (by rw [List.length_append] at hlen; omega)
  rw [hlim.read_front rest] at h
  cases h

/-- A number that is too long, or ends in these bytes, does not end behind them. -/
theorem read_append_eq_none (h : read k bytes = none)
    (hend : k ≤ bytes.length ∨ ∃ b, bytes.getLast? = some b ∧ b.toNat < 128)
    (more : List UInt8) : read k (bytes ++ more) = none := by
  induction k generalizing bytes with
  | zero => rfl
  | succ k ih =>
    cases bytes with
    | nil => simp at hend
    | cons b bytes =>
      have hb : 128 ≤ b.toNat := by
        by_contra hlt
        rw [read_last (by omega)] at h
        cases h
      rw [read_more hb, Option.map_eq_none_iff] at h
      rw [List.cons_append, read_more hb, Option.map_eq_none_iff]
      apply ih h
      obtain hlen | ⟨c, hlast, hc⟩ := hend
      · exact Or.inl (Nat.le_of_succ_le_succ hlen)
      · cases bytes with
        | nil =>
          obtain rfl : b = c := by simpa using hlast
          omega
        | cons d bytes => exact Or.inr ⟨c, by simpa using hlast, hc⟩

/-- A number that does not end within `k` bytes goes on behind them. -/
theorem read_add (h : read k bytes = none) (hlen : k ≤ bytes.length) (j : ℕ) :
    read (k + j) bytes =
      (read j (bytes.drop k)).map fun r => (digits k bytes + 128 ^ k * r.1, r.2) := by
  induction k generalizing bytes with
  | zero => simp [digits]
  | succ k ih =>
    cases bytes with
    | nil => simp at hlen
    | cons b bytes =>
      have hb : 128 ≤ b.toNat := by
        by_contra hlt
        rw [read_last (by omega)] at h
        cases h
      rw [read_more hb, Option.map_eq_none_iff] at h
      rw [show k + 1 + j = k + j + 1 by omega, read_more hb, ih h (by simpa using hlen),
        Option.map_map, List.drop_succ_cons]
      refine congrArg (fun f => Option.map f _) (funext fun r => ?_)
      simp only [Function.comp_apply, digits, Nat.pow_succ, Prod.mk.injEq, and_true]
      ring

theorem digits_lt (k : ℕ) (bytes : List UInt8) : digits k bytes < 128 ^ k := by
  induction k generalizing bytes with
  | zero => simp [digits]
  | succ k ih =>
    cases bytes with
    | nil => simp [digits]
    | cons b bytes =>
      have hlt := ih bytes
      have hbyte := b.toNat_lt
      rw [digits, Nat.pow_succ]
      omega

/-! ## The shortest form -/

theorem div_lt (h : n < 128 ^ (k + 1)) : n / 128 < 128 ^ k := by
  rw [Nat.div_lt_iff_lt_mul (by decide), ← Nat.pow_succ]
  exact h

/-- What was written is read again. -/
theorem whole_write (hk : 0 < k) (h : n < 128 ^ k) : Whole k (write k n) n := by
  induction k generalizing n with
  | zero => cases hk
  | succ k ih =>
    obtain hn | hn := Nat.lt_or_ge n 128
    · have hb : (UInt8.ofNat n).toNat = n := by
        rw [UInt8.toNat_ofNat']
        omega
      rw [Whole, write_of_lt hn, read_last (by omega), hb]
    · have hb : (UInt8.ofNat (n % 128 + 128)).toNat = n % 128 + 128 := by
        rw [UInt8.toNat_ofNat']
        omega
      have hk : 0 < k := by
        by_contra hzero
        obtain rfl : k = 0 := by omega
        omega
      have hval : n % 128 + 128 - 128 + 128 * (n / 128) = n := by omega
      rw [Whole, write_of_ge hn, read_more (by omega), show read k _ = _ from ih hk (div_lt h),
        hb, Option.map_some, hval]

/-- The shortest form has at most `i` bytes exactly when the number is below `128 ^ i`. -/
theorem length_write_le_iff {i : ℕ} (hi : 0 < i) (hk : 0 < k) (h : n < 128 ^ k) :
    (write k n).length ≤ i ↔ n < 128 ^ i := by
  induction k generalizing n i with
  | zero => cases hk
  | succ k ih =>
    obtain ⟨i, rfl⟩ := Nat.exists_eq_succ_of_ne_zero hi.ne'
    obtain hn | hn := Nat.lt_or_ge n 128
    · have hpow : 128 ≤ 128 ^ (i + 1) := Nat.le_self_pow (Nat.succ_ne_zero i) 128
      simp only [write_of_lt hn, List.length_singleton, Nat.succ_eq_add_one]
      omega
    · have hk : 0 < k := by
        by_contra hzero
        obtain rfl : k = 0 := by omega
        omega
      have hpow : n / 128 < 128 ^ i ↔ n < 128 ^ (i + 1) := by
        rw [Nat.div_lt_iff_lt_mul (by decide), ← Nat.pow_succ]
      rw [write_of_ge hn, List.length_cons, Nat.succ_le_succ_iff, ← hpow]
      obtain rfl | hpos := Nat.eq_zero_or_pos i
      · have hdiv : 1 ≤ n / 128 := (Nat.one_le_div_iff (by decide)).mpr hn
        have hlen := (whole_write hk (div_lt h)).length_pos
        rw [Nat.pow_zero]
        omega
      · exact ih hpos hk (div_lt h)

theorem length_write_le (hk : 0 < k) (h : n < 128 ^ k) : (write k n).length ≤ k :=
  (length_write_le_iff hk hk h).mpr h

theorem length_write_eq {i : ℕ} (hk : 0 < k) (h : n < 128 ^ k) (hlt : n < 128 ^ (i + 1))
    (hge : i = 0 ∨ 128 ^ i ≤ n) : (write k n).length = i + 1 := by
  apply Nat.le_antisymm
  · exact (length_write_le_iff (Nat.succ_pos i) hk h).mpr hlt
  · obtain rfl | hge := hge
    · exact (whole_write hk h).length_pos
    · obtain rfl | hi := Nat.eq_zero_or_pos i
      · exact (whole_write hk h).length_pos
      · by_contra hle
        have hsmall := (length_write_le_iff hi hk h).mp (by omega)
        omega

theorem Whole.lt (h : Whole k bytes n) : n < 128 ^ bytes.length := by
  induction k generalizing bytes n with
  | zero => cases h
  | succ k ih =>
    cases bytes with
    | nil => cases h
    | cons b bytes =>
      obtain hb | hb := Nat.lt_or_ge b.toNat 128
      · rw [Whole, read_last hb] at h
        obtain ⟨rfl, rfl⟩ := Prod.mk.inj (Option.some.inj h)
        simpa using hb
      · rw [Whole, read_more hb] at h
        obtain ⟨⟨n', rest'⟩, hr, he⟩ := Option.map_eq_some_iff.mp h
        obtain ⟨rfl, rfl⟩ := Prod.mk.inj he
        have hlt := ih hr
        have hbyte := b.toNat_lt
        rw [List.length_cons, Nat.pow_succ]
        show b.toNat - 128 + 128 * n' < _
        omega

theorem Whole.length_le (h : Whole k bytes n) : bytes.length ≤ k := by
  induction k generalizing bytes n with
  | zero => cases h
  | succ k ih =>
    cases bytes with
    | nil => exact Nat.zero_le _
    | cons b bytes =>
      obtain hb | hb := Nat.lt_or_ge b.toNat 128
      · rw [Whole, read_last hb] at h
        obtain ⟨-, rfl⟩ := Prod.mk.inj (Option.some.inj h)
        exact Nat.succ_le_succ (Nat.zero_le k)
      · rw [Whole, read_more hb] at h
        obtain ⟨⟨n', rest'⟩, hr, he⟩ := Option.map_eq_some_iff.mp h
        obtain ⟨rfl, rfl⟩ := Prod.mk.inj he
        exact Nat.succ_le_succ (ih hr)

theorem read_lt (h : read k bytes = some (n, rest)) : n < 128 ^ k := by
  obtain ⟨front, -, hwhole⟩ := read_eq_some_iff.mp h
  exact hwhole.lt.trans_le (Nat.pow_le_pow_right (by decide) hwhole.length_le)

/-- No form of a number is shorter than the one that `write` gives, for this number and for the
smaller ones. -/
theorem Whole.length_write_le (h : Whole k bytes n) (hmn : m ≤ n) (hj : 0 < j)
    (hm : m < 128 ^ j) : (write j m).length ≤ bytes.length :=
  (length_write_le_iff h.length_pos hj hm).mpr (hmn.trans_lt h.lt)

end Varint
