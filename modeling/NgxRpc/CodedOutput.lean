import NgxRpc.CodedInput
import Mathlib.Tactic.IntervalCases

/-!
# The writer of protobuf

A number is written by unrolled code where there is room for the longest one, and else composed
by a loop and copied. `CodedOutputStream` writes to the regions that a stream gives out.

## Main definitions

- `writeVarint32FallbackToArray`, `writeVarint64ToArray`, `composeVarint` — the ways to write a
  number
- `varintSize32`, `varintSize64` — its length
- `CodedOutputStream` — the region at hand and the ones to come

## Main results

- `writeVarint32ToArray_eq`, `writeTagToArray_eq`, `writeVarint64ToArray_eq`,
  `composeVarint_eq` — they all write the shortest form
- `writeRaw_cases` — bytes are written whole where there is room
-/

namespace NgxRpc
open Varint

/-! ## Numbers -/

/-- `WriteVarint32FallbackToArrayInline`. -/
def writeVarint32FallbackToArray (value : UInt32) : List UInt8 :=
  let target0 := (value ||| 0x80).toUInt8
  if 2 ^ 7 ≤ value.toNat then
    let target1 := (value >>> 7 ||| 0x80).toUInt8
    if 2 ^ 14 ≤ value.toNat then
      let target2 := (value >>> 14 ||| 0x80).toUInt8
      if 2 ^ 21 ≤ value.toNat then
        let target3 := (value >>> 21 ||| 0x80).toUInt8
        if 2 ^ 28 ≤ value.toNat then [target0, target1, target2, target3, (value >>> 28).toUInt8]
        else [target0, target1, target2, target3 &&& 0x7f]
      else [target0, target1, target2 &&& 0x7f]
    else [target0, target1 &&& 0x7f]
  else [target0 &&& 0x7f]

def writeVarint32ToArray (value : UInt32) : List UInt8 :=
  if value < 0x80 then [value.toUInt8] else writeVarint32FallbackToArray value

/-- `CodedOutputStream::WriteTagToArray`. -/
def writeTagToArray (value : UInt32) : List UInt8 :=
  if value.toNat < 2 ^ 7 then [value.toUInt8]
  else if value.toNat < 2 ^ 14 then [(value ||| 0x80).toUInt8, (value >>> 7).toUInt8]
  else writeVarint32FallbackToArray value

/-- The binary search tree of `WriteVarint64ToArrayInline`. -/
def varint64Bytes (part0 part1 part2 : UInt32) : ℕ :=
  if part2 = 0 then
    if part1 = 0 then
      if part0.toNat < 2 ^ 14 then if part0.toNat < 2 ^ 7 then 1 else 2
      else if part0.toNat < 2 ^ 21 then 3 else 4
    else if part1.toNat < 2 ^ 14 then if part1.toNat < 2 ^ 7 then 5 else 6
    else if part1.toNat < 2 ^ 21 then 7 else 8
  else if part2.toNat < 2 ^ 7 then 9 else 10

/-- `WriteVarint64ToArrayInline`. -/
def writeVarint64ToArray (value : UInt64) : List UInt8 :=
  let part0 := value.toUInt32
  let part1 := (value >>> 28).toUInt32
  let part2 := (value >>> 56).toUInt32
  let size := varint64Bytes part0 part1 part2
  let target := [part0 ||| 0x80, part0 >>> 7 ||| 0x80, part0 >>> 14 ||| 0x80, part0 >>> 21 ||| 0x80,
    part1 ||| 0x80, part1 >>> 7 ||| 0x80, part1 >>> 14 ||| 0x80, part1 >>> 21 ||| 0x80,
    part2 ||| 0x80, part2 >>> 7 ||| 0x80].map UInt32.toUInt8
  (target.take size).modify (size - 1) (· &&& 0x7f)

/-- The loop of the slow paths of `WriteVarint32` and `WriteVarint64`, for at most `n` bytes. -/
def composeVarint : ℕ → UInt64 → List UInt8
  | 0, _ => []
  | n + 1, value =>
    if 0x7f < value then (value.toUInt8 &&& 0x7f ||| 0x80) :: composeVarint n (value >>> 7)
    else [value.toUInt8 &&& 0x7f]

/-- `VarintSize32`, with `VarintSize32Fallback`. -/
def varintSize32 (value : UInt32) : ℕ :=
  if value.toNat < 2 ^ 7 then 1
  else if value.toNat < 2 ^ 14 then 2
  else if value.toNat < 2 ^ 21 then 3
  else if value.toNat < 2 ^ 28 then 4
  else 5

def varintSize64 (value : UInt64) : ℕ :=
  if value.toNat < 2 ^ 35 then
    if value.toNat < 2 ^ 7 then 1
    else if value.toNat < 2 ^ 14 then 2
    else if value.toNat < 2 ^ 21 then 3
    else if value.toNat < 2 ^ 28 then 4
    else 5
  else if value.toNat < 2 ^ 42 then 6
  else if value.toNat < 2 ^ 49 then 7
  else if value.toNat < 2 ^ 56 then 8
  else if value.toNat < 2 ^ 63 then 9
  else 10

/-- `WriteLittleEndian32ToArray` for 4 bytes and `WriteLittleEndian64ToArray` for 8. -/
def writeLittleEndianToArray (size value : ℕ) : List UInt8 :=
  (List.range size).map fun i => UInt8.ofNat (value / 256 ^ i)

/-! ## They write the shortest form -/

theorem or_128_mod (n : ℕ) : (n ||| 128) % 256 = n % 128 + 128 := by
  have hor : (n ||| 128) % 2 ^ 8 = n % 2 ^ 8 ||| 128 := Nat.or_mod_two_pow
  have hlow : n % 128 < 2 ^ 7 := Nat.mod_lt _ (by decide)
  have hset : 128 ||| n % 128 = n % 128 + 128 :=
    (Nat.two_pow_add_eq_or_of_lt hlow 1).symm.trans (Nat.add_comm _ _)
  rw [show 256 = 2 ^ 8 from rfl, hor]
  obtain h | h : n % 2 ^ 8 = n % 128 ∨ n % 2 ^ 8 = n % 128 + 128 := by omega
  · rw [h, Nat.or_comm, hset]
  · rw [h, ← hset, Nat.or_right_comm, Nat.or_self]

/-- A byte that is not the last one. -/
theorem or_128_toUInt8 (value : UInt32) :
    (value ||| 0x80).toUInt8 = UInt8.ofNat (value.toNat % 128 + 128) := by
  apply UInt8.toNat_inj.mp
  rw [UInt32.toNat_toUInt8, UInt32.toNat_or, UInt8.toNat_ofNat']
  have h := or_128_mod value.toNat
  simp only [UInt32.reduceToNat]
  omega

theorem and_127_ofNat (n : ℕ) : UInt8.ofNat n &&& 0x7f = UInt8.ofNat (n % 128) := by
  apply UInt8.toNat_inj.mp
  rw [CodedInputStream.and_127_toNat, UInt8.toNat_ofNat', UInt8.toNat_ofNat']
  omega

theorem shiftRight_toNat (value : UInt32) {i : ℕ} (hi : i < 32) :
    (value >>> UInt32.ofNat i).toNat = value.toNat / 2 ^ i := by
  rw [UInt32.toNat_shiftRight, UInt32.toNat_ofNat', Nat.mod_eq_of_lt (show i < 2 ^ 32 by omega),
    Nat.mod_eq_of_lt hi, Nat.shiftRight_eq_div_pow]

/-- The byte with the seven bits from bit `i` on, when more follow. -/
theorem shift_or_toUInt8 (value : UInt32) {i : ℕ} (hi : i < 32) :
    (value >>> UInt32.ofNat i ||| 0x80).toUInt8 =
      UInt8.ofNat (value.toNat / 2 ^ i % 128 + 128) := by
  rw [or_128_toUInt8, shiftRight_toNat value hi]

/-- The last byte. -/
theorem last_toUInt8 (n : ℕ) :
    UInt8.ofNat (n % 128 + 128) &&& 0x7f = UInt8.ofNat (n % 128) := by
  rw [and_127_ofNat]
  congr 1
  omega

theorem write_div {k n i : ℕ} (h : 128 ≤ n / 2 ^ i) : write (k + 1) (n / 2 ^ i) =
    UInt8.ofNat (n / 2 ^ i % 128 + 128) :: write k (n / 2 ^ (i + 7)) := by
  rw [write_of_ge h, Nat.div_div_eq_div_mul, Nat.pow_add]

theorem write_div_last {k n i : ℕ} (h : n / 2 ^ i < 128) :
    write (k + 1) (n / 2 ^ i) = [UInt8.ofNat (n / 2 ^ i % 128)] := by
  rw [write_of_lt h, Nat.mod_eq_of_lt h]

theorem writeVarint32FallbackToArray_eq (value : UInt32) :
    writeVarint32FallbackToArray value = write 5 value.toNat := by
  have hlt := value.toNat_lt
  have h0 := or_128_toUInt8 value
  have h7 : (value >>> 7 ||| 0x80).toUInt8 = _ := shift_or_toUInt8 value (i := 7) (by decide)
  have h14 : (value >>> 14 ||| 0x80).toUInt8 = _ := shift_or_toUInt8 value (i := 14) (by decide)
  have h21 : (value >>> 21 ||| 0x80).toUInt8 = _ := shift_or_toUInt8 value (i := 21) (by decide)
  have h28 : (value >>> 28).toUInt8 = UInt8.ofNat (value.toNat / 2 ^ 28 % 128) := by
    apply UInt8.toNat_inj.mp
    rw [UInt32.toNat_toUInt8, UInt8.toNat_ofNat', show (28 : UInt32) = UInt32.ofNat 28 from rfl,
      shiftRight_toNat value (by decide)]
    omega
  rw [writeVarint32FallbackToArray]
  rw [h0, h7, h14, h21, h28]
  simp only [last_toUInt8]
  rw [show write 5 value.toNat = write 5 (value.toNat / 2 ^ 0) by rw [Nat.pow_zero, Nat.div_one]]
  by_cases h7 : 2 ^ 7 ≤ value.toNat
  · rw [if_pos h7, write_div (by omega)]
    by_cases h14 : 2 ^ 14 ≤ value.toNat
    · rw [if_pos h14, write_div (by omega)]
      by_cases h21 : 2 ^ 21 ≤ value.toNat
      · rw [if_pos h21, write_div (by omega)]
        by_cases h28 : 2 ^ 28 ≤ value.toNat
        · rw [if_pos h28, write_div (by omega), write_div_last (by omega)]
          simp
        · rw [if_neg h28, write_div_last (by omega)]
          simp
      · rw [if_neg h21, write_div_last (by omega)]
        simp
    · rw [if_neg h14, write_div_last (by omega)]
      simp
  · rw [if_neg h7, write_div_last (by omega)]
    simp

theorem writeVarint32ToArray_eq (value : UInt32) :
    writeVarint32ToArray value = write 5 value.toNat := by
  rw [writeVarint32ToArray]
  split
  · next hlt =>
    rw [write_of_lt (UInt32.lt_iff_toNat_lt.mp hlt)]
    rfl
  · exact writeVarint32FallbackToArray_eq value

theorem writeTagToArray_eq (value : UInt32) : writeTagToArray value = write 5 value.toNat := by
  rw [writeTagToArray]
  split
  · next hlt =>
    rw [write_of_lt hlt]
    rfl
  · next hge =>
    split
    · next hlt =>
      have hbyte : (value >>> 7).toUInt8 = UInt8.ofNat (value.toNat / 128) := by
        rw [show (7 : UInt32) = UInt32.ofNat 7 from rfl, ← UInt8.ofNat_uInt32ToNat,
          shiftRight_toNat value (by decide)]
        rfl
      rw [or_128_toUInt8, hbyte, write_of_ge (by omega), write_of_lt (by omega)]
    · exact writeVarint32FallbackToArray_eq value

/-- The digits with the continuation bit on all of them but the last. -/
theorem write_eq_modify {k i n : ℕ} (hk : i < k) (hlt : n < 128 ^ (i + 1))
    (hge : i = 0 ∨ 128 ^ i ≤ n) :
    write k n = ((List.range (i + 1)).map fun j => UInt8.ofNat (n / 128 ^ j % 128 + 128)).modify i
      (· &&& 0x7f) := by
  induction i generalizing k n with
  | zero =>
    obtain ⟨k, rfl⟩ := Nat.exists_eq_succ_of_ne_zero (show k ≠ 0 by omega)
    have hn : n < 128 := by simpa using hlt
    rw [Nat.zero_add, List.range_one, write_of_lt hn, List.map_singleton, List.modify_zero_cons,
      last_toUInt8, Nat.pow_zero, Nat.div_one, Nat.mod_eq_of_lt hn]
  | succ i ih =>
    obtain ⟨k, rfl⟩ := Nat.exists_eq_succ_of_ne_zero (show k ≠ 0 by omega)
    have hpow : 128 ≤ 128 ^ (i + 1) := Nat.le_self_pow (Nat.succ_ne_zero i) 128
    have hn : 128 ^ (i + 1) ≤ n := hge.resolve_left (Nat.succ_ne_zero i)
    have hdiv : 128 ^ i ≤ n / 128 := by
      rw [Nat.le_div_iff_mul_le (by decide), ← Nat.pow_succ]
      exact hn
    have hrange : List.range (i + 1 + 1) = 0 :: (List.range (i + 1)).map Nat.succ :=
      List.range_succ_eq_map
    rw [write_of_ge (hpow.trans hn), ih (Nat.lt_of_succ_lt_succ hk) (div_lt hlt) (Or.inr hdiv),
      hrange, List.map_cons, List.map_map, List.modify_succ_cons]
    congr 1
    · simp
    · congr 2
      funext j
      simp only [Function.comp_apply, Nat.succ_eq_add_one, Nat.pow_succ']
      rw [Nat.div_div_eq_div_mul]

/-- The parts of a value, as numbers. -/
theorem part_toNat (value : UInt64) {i : ℕ} (hi : i < 64) :
    (value >>> UInt64.ofNat i).toUInt32.toNat = value.toNat / 2 ^ i % 2 ^ 32 := by
  rw [UInt64.toNat_toUInt32, UInt64.toNat_shiftRight, UInt64.toNat_ofNat',
    Nat.mod_eq_of_lt (show i < 2 ^ 64 by omega), Nat.mod_eq_of_lt hi, Nat.shiftRight_eq_div_pow]

/-- The search tree finds the number of digits. -/
theorem varint64Bytes_cases (value : UInt64) :
    ∃ i, varint64Bytes value.toUInt32 (value >>> 28).toUInt32 (value >>> 56).toUInt32 = i + 1 ∧
      i < 10 ∧ value.toNat < 128 ^ (i + 1) ∧ (i = 0 ∨ 128 ^ i ≤ value.toNat) := by
  have hlt := value.toNat_lt
  have h0 : value.toUInt32.toNat = value.toNat % 2 ^ 32 := UInt64.toNat_toUInt32 value
  have h1 : (value >>> 28).toUInt32.toNat = _ := part_toNat value (i := 28) (by decide)
  have h2 : (value >>> 56).toUInt32.toNat = _ := part_toNat value (i := 56) (by decide)
  have hzero (part : UInt32) : part = 0 ↔ part.toNat = 0 := UInt32.toNat_inj.symm
  rw [varint64Bytes]
  simp only [hzero, h0, h1, h2]
  split
  · split
    · split
      · split
        · exact ⟨0, rfl, by omega, by omega, by omega⟩
        · exact ⟨1, rfl, by omega, by omega, by omega⟩
      · split
        · exact ⟨2, rfl, by omega, by omega, by omega⟩
        · exact ⟨3, rfl, by omega, by omega, by omega⟩
    · split
      · split
        · exact ⟨4, rfl, by omega, by omega, by omega⟩
        · exact ⟨5, rfl, by omega, by omega, by omega⟩
      · split
        · exact ⟨6, rfl, by omega, by omega, by omega⟩
        · exact ⟨7, rfl, by omega, by omega, by omega⟩
  · split
    · exact ⟨8, rfl, by omega, by omega, by omega⟩
    · exact ⟨9, rfl, by omega, by omega, by omega⟩

/-- The digits that a part holds. -/
theorem part_digit {part : UInt32} {n i j : ℕ} (hpart : part.toNat = n / 128 ^ i % 2 ^ 32)
    (hj : j < 4) : (part >>> UInt32.ofNat (7 * j) ||| 0x80).toUInt8 =
      UInt8.ofNat (n / 128 ^ (i + j) % 128 + 128) := by
  have hsplit : n / 128 ^ (i + j) = n / 128 ^ i / 2 ^ (7 * j) := by
    rw [Nat.pow_add, ← Nat.div_div_eq_div_mul, Nat.pow_mul]
  rw [shift_or_toUInt8 part (by omega), hpart, hsplit]
  generalize n / 128 ^ i = m
  congr 2
  interval_cases j <;> omega

theorem writeVarint64ToArray_eq (value : UInt64) :
    writeVarint64ToArray value = write 10 value.toNat := by
  obtain ⟨i, hsize, hi, hlt, hge⟩ := varint64Bytes_cases value
  have h0 : value.toUInt32.toNat = value.toNat / 128 ^ 0 % 2 ^ 32 := by
    rw [Nat.pow_zero, Nat.div_one]
    exact UInt64.toNat_toUInt32 value
  have h1 : (value >>> 28).toUInt32.toNat = value.toNat / 128 ^ 4 % 2 ^ 32 :=
    part_toNat value (i := 28) (by decide)
  have h2 : (value >>> 56).toUInt32.toNat = value.toNat / 128 ^ 8 % 2 ^ 32 :=
    part_toNat value (i := 56) (by decide)
  have htarget : [value.toUInt32 ||| 0x80, value.toUInt32 >>> 7 ||| 0x80,
      value.toUInt32 >>> 14 ||| 0x80, value.toUInt32 >>> 21 ||| 0x80,
      (value >>> 28).toUInt32 ||| 0x80, (value >>> 28).toUInt32 >>> 7 ||| 0x80,
      (value >>> 28).toUInt32 >>> 14 ||| 0x80, (value >>> 28).toUInt32 >>> 21 ||| 0x80,
      (value >>> 56).toUInt32 ||| 0x80, (value >>> 56).toUInt32 >>> 7 ||| 0x80].map
        UInt32.toUInt8 =
      (List.range 10).map fun j => UInt8.ofNat (value.toNat / 128 ^ j % 128 + 128) := by
    have hbyte {part : UInt32} {i : ℕ} (hpart : part.toNat = value.toNat / 128 ^ i % 2 ^ 32) :
        (part ||| 0x80).toUInt8 = UInt8.ofNat (value.toNat / 128 ^ i % 128 + 128) := by
      rw [or_128_toUInt8, hpart]
      congr 2
      omega
    exact congrArg₂ List.cons (hbyte h0) <|
      congrArg₂ List.cons (part_digit (j := 1) h0 (by decide)) <|
      congrArg₂ List.cons (part_digit (j := 2) h0 (by decide)) <|
      congrArg₂ List.cons (part_digit (j := 3) h0 (by decide)) <|
      congrArg₂ List.cons (hbyte h1) <|
      congrArg₂ List.cons (part_digit (j := 1) h1 (by decide)) <|
      congrArg₂ List.cons (part_digit (j := 2) h1 (by decide)) <|
      congrArg₂ List.cons (part_digit (j := 3) h1 (by decide)) <|
      congrArg₂ List.cons (hbyte h2) <|
      congrArg₂ List.cons (part_digit (j := 1) h2 (by decide)) rfl
  rw [writeVarint64ToArray]
  simp only [hsize, htarget]
  rw [write_eq_modify hi hlt hge, ← List.map_take, List.take_range, Nat.min_eq_left hi,
    Nat.add_sub_cancel]

/-- The loop composes the shortest form. -/
theorem composeVarint_eq (n : ℕ) (value : UInt64) :
    composeVarint n value = write n value.toNat := by
  induction n generalizing value with
  | zero => rfl
  | succ n ih =>
    have hbyte : value.toUInt8 &&& 0x7f = UInt8.ofNat (value.toNat % 128) := by
      rw [← UInt8.ofNat_uInt64ToNat, and_127_ofNat]
    rw [composeVarint, hbyte]
    split
    · next hgt =>
      have hge : 128 ≤ value.toNat := UInt64.lt_iff_toNat_lt.mp hgt
      have hnext : (value >>> 7).toNat = value.toNat / 128 := by
        rw [UInt64.toNat_shiftRight, Nat.shiftRight_eq_div_pow]
        rfl
      have hor : UInt8.ofNat (value.toNat % 128) ||| 0x80 =
          UInt8.ofNat (value.toNat % 128 + 128) := by
        apply UInt8.toNat_inj.mp
        have hlow : value.toNat % 128 < 2 ^ 8 := by omega
        have h := or_128_mod (value.toNat % 128)
        have hlt : (value.toNat % 128 ||| 128) < 2 ^ 8 := Nat.or_lt_two_pow hlow (by decide)
        rw [UInt8.toNat_or, UInt8.toNat_ofNat', UInt8.toNat_ofNat', Nat.mod_eq_of_lt hlow]
        simp only [UInt8.reduceToNat]
        omega
      rw [write_of_ge hge, ih, hnext, hor]
    · next hle =>
      have hlt : value.toNat < 128 := by
        have hnot : ¬127 < value.toNat := fun h => hle (UInt64.lt_iff_toNat_lt.mpr h)
        omega
      rw [write_of_lt hlt, Nat.mod_eq_of_lt hlt]

theorem varintSize32_eq (value : UInt32) :
    varintSize32 value = (write 5 value.toNat).length := by
  have hlt := value.toNat_lt
  have heq {i : ℕ} (hi : value.toNat < 128 ^ (i + 1)) (hge : i = 0 ∨ 128 ^ i ≤ value.toNat) :=
    length_write_eq (show 0 < 5 by decide) (show value.toNat < 128 ^ 5 by omega) hi hge
  rw [varintSize32]
  split
  · exact (heq (i := 0) (by omega) (by omega)).symm
  · split
    · exact (heq (i := 1) (by omega) (by omega)).symm
    · split
      · exact (heq (i := 2) (by omega) (by omega)).symm
      · split
        · exact (heq (i := 3) (by omega) (by omega)).symm
        · exact (heq (i := 4) (by omega) (by omega)).symm

theorem varintSize64_eq (value : UInt64) :
    varintSize64 value = (write 10 value.toNat).length := by
  have hlt := value.toNat_lt
  have heq {i : ℕ} (hi : value.toNat < 128 ^ (i + 1)) (hge : i = 0 ∨ 128 ^ i ≤ value.toNat) :=
    length_write_eq (show 0 < 10 by decide) (show value.toNat < 128 ^ 10 by omega) hi hge
  rw [varintSize64]
  split
  · split
    · exact (heq (i := 0) (by omega) (by omega)).symm
    · split
      · exact (heq (i := 1) (by omega) (by omega)).symm
      · split
        · exact (heq (i := 2) (by omega) (by omega)).symm
        · split
          · exact (heq (i := 3) (by omega) (by omega)).symm
          · exact (heq (i := 4) (by omega) (by omega)).symm
  · split
    · exact (heq (i := 5) (by omega) (by omega)).symm
    · split
      · exact (heq (i := 6) (by omega) (by omega)).symm
      · split
        · exact (heq (i := 7) (by omega) (by omega)).symm
        · split
          · exact (heq (i := 8) (by omega) (by omega)).symm
          · exact (heq (i := 9) (by omega) (by omega)).symm

@[simp] theorem length_writeLittleEndianToArray (size value : ℕ) :
    (writeLittleEndianToArray size value).length = size := by
  simp [writeLittleEndianToArray]

/-- The bytes of a value give it back. -/
theorem ofDigits_writeLittleEndian {size value : ℕ} (h : value < 256 ^ size) :
    Nat.ofDigits 256 ((writeLittleEndianToArray size value).map UInt8.toNat) = value := by
  induction size generalizing value with
  | zero =>
    obtain rfl : value = 0 := by simpa using h
    rfl
  | succ size ih =>
    have hrest : (writeLittleEndianToArray (size + 1) value).map UInt8.toNat =
        value % 256 :: (writeLittleEndianToArray size (value / 256)).map UInt8.toNat := by
      simp only [writeLittleEndianToArray, List.range_succ_eq_map, List.map_cons, List.map_map,
        Nat.pow_zero, Nat.div_one, UInt8.toNat_ofNat', List.cons.injEq]
      refine ⟨trivial, List.map_congr_left fun i _ => ?_⟩
      simp [Nat.pow_succ', Nat.div_div_eq_div_mul]
    have hdiv : value / 256 < 256 ^ size := by
      rw [Nat.div_lt_iff_lt_mul (by decide), ← Nat.pow_succ]
      exact h
    rw [hrest, Nat.ofDigits_cons, ih hdiv]
    exact Nat.mod_add_div value 256

/-! ## Regions -/

/-- `google::protobuf::io::CodedOutputStream` on a stream whose `Next` will give regions of the
sizes `output`; `written` is what stands in front of `buffer_`. -/
structure CodedOutputStream where
  output : List ℕ
  written : List UInt8
  bufferSize : ℕ
  totalBytes : ℕ
  hadError : Bool

namespace CodedOutputStream

def refresh (o : CodedOutputStream) : Bool × CodedOutputStream :=
  match o.output with
  | [] => (false, { o with bufferSize := 0, hadError := true })
  | size :: output =>
    (true, { o with output := output, bufferSize := size, totalBytes := o.totalBytes + size })

/-- The constructor, which calls `Refresh` at once and takes no notice of a failure. -/
def new (output : List ℕ) : CodedOutputStream :=
  { (refresh ⟨output, [], 0, 0, false⟩).2 with hadError := false }

/-- `bytes` are put where `buffer_` points to, and `Advance` is called. -/
def put (bytes : List UInt8) (o : CodedOutputStream) : CodedOutputStream :=
  { o with written := o.written ++ bytes, bufferSize := o.bufferSize - bytes.length }

/-- The loop of `WriteRaw`, at most `n` rounds. -/
def writeRawFrom : ℕ → List UInt8 → CodedOutputStream → CodedOutputStream
  | 0, _, o => o
  | n + 1, data, o =>
    if o.bufferSize < data.length then
      match refresh { o with written := o.written ++ data.take o.bufferSize } with
      | (false, o') => o'
      | (true, o') => writeRawFrom n (data.drop o.bufferSize) o'
    else o.put data

/-- `WriteRaw`. Every round but the last uses up a region. -/
def writeRaw (data : List UInt8) (o : CodedOutputStream) : CodedOutputStream :=
  writeRawFrom (o.output.length + 1) data o

def byteCount (o : CodedOutputStream) : ℤ := o.totalBytes - o.bufferSize

def writeVarint32 (value : UInt32) (o : CodedOutputStream) : CodedOutputStream :=
  if 5 ≤ o.bufferSize then o.put (writeVarint32FallbackToArray value)
  else o.writeRaw (composeVarint 5 value.toUInt64)

def writeVarint64 (value : UInt64) (o : CodedOutputStream) : CodedOutputStream :=
  if 10 ≤ o.bufferSize then o.put (writeVarint64ToArray value)
  else o.writeRaw (composeVarint 10 value)

/-- `WriteLittleEndian32` for 4 bytes and `WriteLittleEndian64` for 8. -/
def writeLittleEndian (size value : ℕ) (o : CodedOutputStream) : CodedOutputStream :=
  if size ≤ o.bufferSize then o.put (writeLittleEndianToArray size value)
  else o.writeRaw (writeLittleEndianToArray size value)

variable {o : CodedOutputStream} {data : List UInt8}

theorem writeRaw_fits (h : data.length ≤ o.bufferSize) : o.writeRaw data = o.put data := by
  rw [writeRaw, writeRawFrom, if_neg (Nat.not_lt.mpr h)]

theorem writeRaw_fails (h : o.bufferSize < data.length) (hout : o.output = []) :
    o.writeRaw data = { o with
      written := o.written ++ data.take o.bufferSize, bufferSize := 0, hadError := true } := by
  simp [writeRaw, writeRawFrom, h, refresh, hout]

theorem writeRaw_next (h : o.bufferSize < data.length) {size : ℕ} {output : List ℕ}
    (hout : o.output = size :: output) :
    o.writeRaw data = writeRaw (data.drop o.bufferSize) { o with
      output := output, written := o.written ++ data.take o.bufferSize, bufferSize := size,
      totalBytes := o.totalBytes + size } := by
  simp [writeRaw, writeRawFrom, h, refresh, hout]

@[simp] theorem writeRaw_nil (o : CodedOutputStream) : o.writeRaw [] = o := by
  rw [writeRaw_fits (Nat.zero_le _)]
  simp [put]

/-- Pieces of which the first fits. -/
theorem writeRaw_append_fits {a : List UInt8} (ha : a.length ≤ o.bufferSize) (b : List UInt8) :
    o.writeRaw (a ++ b) = (o.put a).writeRaw b := by
  have htake : (a ++ b).take o.bufferSize = a ++ b.take (o.bufferSize - a.length) := by
    rw [List.take_append, List.take_of_length_le ha]
  have hdrop : (a ++ b).drop o.bufferSize = b.drop (o.bufferSize - a.length) := by
    rw [List.drop_append, List.drop_eq_nil_of_le ha, List.nil_append]
  by_cases hb : (a ++ b).length ≤ o.bufferSize
  · have hb' : b.length ≤ (o.put a).bufferSize := by
      rw [List.length_append] at hb
      show b.length ≤ o.bufferSize - a.length
      omega
    rw [writeRaw_fits hb, writeRaw_fits hb']
    simp [put, Nat.sub_sub]
  · have hb' : (o.put a).bufferSize < b.length := by
      rw [List.length_append] at hb
      show o.bufferSize - a.length < b.length
      omega
    have hlt : o.bufferSize < (a ++ b).length := Nat.lt_of_not_le hb
    cases hout : o.output with
    | nil =>
      rw [writeRaw_fails hlt hout, writeRaw_fails hb' hout]
      simp [put, htake]
    | cons size output =>
      rw [writeRaw_next hlt hout, writeRaw_next hb' hout, htake, hdrop]
      simp [put]

/-- Bytes may be written in several pieces. -/
theorem writeRaw_append (a b : List UInt8) (o : CodedOutputStream) :
    o.writeRaw (a ++ b) = (o.writeRaw a).writeRaw b := by
  have hgen (output : List ℕ) : ∀ (o : CodedOutputStream) (a : List UInt8), o.output = output →
      o.writeRaw (a ++ b) = (o.writeRaw a).writeRaw b := by
    induction output with
    | nil =>
      intro o a hout
      obtain ha | ha := Nat.lt_or_ge o.bufferSize a.length
      · have hlt : o.bufferSize < (a ++ b).length := by
          rw [List.length_append]
          omega
        rw [writeRaw_fails ha hout, writeRaw_fails hlt hout, List.take_append_of_le_length ha.le]
        -- after a failure nothing more is written
        by_cases hb : b = []
        · rw [hb, writeRaw_nil]
        · have herr := writeRaw_fails (o := { o with
            written := o.written ++ a.take o.bufferSize, bufferSize := 0, hadError := true })
            (List.length_pos_iff.mpr hb) hout
          simp [herr]
      · rw [writeRaw_append_fits ha, writeRaw_fits ha]
    | cons size output ih =>
      intro o a hout
      obtain ha | ha := Nat.lt_or_ge o.bufferSize a.length
      · have hlt : o.bufferSize < (a ++ b).length := by
          rw [List.length_append]
          omega
        rw [writeRaw_next ha hout, writeRaw_next hlt hout, List.take_append_of_le_length ha.le,
          List.drop_append_of_le_length ha.le, ih _ _ rfl]
      · rw [writeRaw_append_fits ha, writeRaw_fits ha]
  exact hgen o.output o a rfl

theorem writeVarint32_eq (value : UInt32) (o : CodedOutputStream) :
    o.writeVarint32 value = o.writeRaw (write 5 value.toNat) := by
  have hlt := value.toNat_lt
  rw [writeVarint32]
  split
  · next hroom =>
    have hlen := length_write_le (show 0 < 5 by decide) (show value.toNat < 128 ^ 5 by omega)
    rw [writeVarint32FallbackToArray_eq, writeRaw_fits (hlen.trans hroom)]
  · rw [composeVarint_eq, UInt32.toNat_toUInt64]

theorem writeVarint64_eq (value : UInt64) (o : CodedOutputStream) :
    o.writeVarint64 value = o.writeRaw (write 10 value.toNat) := by
  have hlt := value.toNat_lt
  rw [writeVarint64]
  split
  · next hroom =>
    have hlen := length_write_le (show 0 < 10 by decide) (show value.toNat < 128 ^ 10 by omega)
    rw [writeVarint64ToArray_eq, writeRaw_fits (hlen.trans hroom)]
  · rw [composeVarint_eq]

theorem writeLittleEndian_eq (size value : ℕ) (o : CodedOutputStream) :
    o.writeLittleEndian size value = o.writeRaw (writeLittleEndianToArray size value) := by
  rw [writeLittleEndian]
  split
  · next hroom =>
    rw [writeRaw_fits]
    rwa [length_writeLittleEndianToArray]
  · rfl

/-- The bytes that may still be written. -/
def room (o : CodedOutputStream) : ℕ := o.bufferSize + o.output.sum

/-- Bytes are written whole where there is room for them, and else the stream has an error. -/
theorem writeRaw_cases (data : List UInt8) (o : CodedOutputStream) :
    (data.length ≤ o.room ∧ (o.writeRaw data).written = o.written ++ data ∧
      (o.writeRaw data).hadError = o.hadError ∧
      (o.writeRaw data).byteCount = o.byteCount + data.length ∧
      (o.writeRaw data).room = o.room - data.length) ∨
    (o.room < data.length ∧ (o.writeRaw data).hadError = true) := by
  have hgen (output : List ℕ) : ∀ (o : CodedOutputStream) (data : List UInt8), o.output = output →
      (data.length ≤ o.room ∧ (o.writeRaw data).written = o.written ++ data ∧
        (o.writeRaw data).hadError = o.hadError ∧
        (o.writeRaw data).byteCount = o.byteCount + data.length ∧
        (o.writeRaw data).room = o.room - data.length) ∨
      (o.room < data.length ∧ (o.writeRaw data).hadError = true) := by
    induction output with
    | nil =>
      intro o data hout
      obtain hlt | hle := Nat.lt_or_ge o.bufferSize data.length
      · rw [writeRaw_fails hlt hout]
        exact Or.inr ⟨by simpa [room, hout] using hlt, rfl⟩
      · rw [writeRaw_fits hle]
        refine Or.inl ⟨by simpa [room, hout] using hle, rfl, rfl, ?_, ?_⟩
        · simp only [byteCount, put]
          omega
        · simp [room, put, hout]
    | cons size output ih =>
      intro o data hout
      obtain hlt | hle := Nat.lt_or_ge o.bufferSize data.length
      · rw [writeRaw_next hlt hout]
        have hlen : (data.take o.bufferSize).length = o.bufferSize :=
          List.length_take_of_le hlt.le
        obtain ⟨hfits, hwritten, herr, hcount, hroom⟩ | ⟨hfull, herr⟩ := ih { o with
          output := output, written := o.written ++ data.take o.bufferSize, bufferSize := size,
          totalBytes := o.totalBytes + size } (data.drop o.bufferSize) rfl
        · refine Or.inl ⟨?_, ?_, herr, ?_, ?_⟩
          · simp only [room, hout, List.sum_cons, List.length_drop] at hfits ⊢
            omega
          · rw [hwritten, List.append_assoc, List.take_append_drop]
          · rw [hcount]
            simp only [byteCount, List.length_drop]
            omega
          · rw [hroom]
            simp only [room, hout, List.sum_cons, List.length_drop]
            omega
        · refine Or.inr ⟨?_, herr⟩
          simp only [room, hout, List.sum_cons, List.length_drop] at hfull ⊢
          omega
      · rw [writeRaw_fits hle]
        refine Or.inl ⟨?_, rfl, rfl, ?_, ?_⟩
        · simp only [room]
          omega
        · simp only [byteCount, put]
          omega
        · simp only [room, put]
          omega
  exact hgen o.output o data rfl

/-- The writer before anything is written. -/
theorem new_facts (output : List ℕ) : (new output).written = [] ∧ (new output).hadError = false ∧
    (new output).byteCount = 0 ∧ (new output).room = output.sum := by
  cases output with
  | nil => exact ⟨rfl, rfl, rfl, rfl⟩
  | cons size output =>
    refine ⟨rfl, rfl, ?_, rfl⟩
    simp [new, refresh, byteCount]

end CodedOutputStream

end NgxRpc
