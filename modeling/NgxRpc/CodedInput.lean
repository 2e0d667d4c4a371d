import NgxRpc.Foundation.CInt
import NgxRpc.Foundation.Varint
import Mathlib.Data.Nat.Bitwise
import Mathlib.Data.Nat.Digits.Defs

/-!
# The reader of protobuf

`CodedInputStream` reads a message from the chunks that a stream delivers. A number that lies
in the chunk at hand is read by unrolled code, one that may cross its end byte by byte, with
`Next` in between. At most `kDefaultTotalBytesLimit` bytes are read.

## Main definitions

- `CodedInputStream` — the chunk at hand and the ones to come, and the calls on it
- `CodedInputStream.varint` — the number at the front of some bytes

## Main results

- `readVarint32FromArray_eq`, `readVarint64FromArray_eq` — the unrolled code reads it
-/

namespace NgxRpc

/-- `kDefaultTotalBytesLimit`. -/
def totalBytesLimit : ℕ := 2 ^ 26

/-- `INT_MAX`. -/
def intMax : ℕ := 2 ^ 31 - 1

/-- `google::protobuf::io::CodedInputStream` on a stream that will deliver the chunks `input`;
`buffer` are the bytes from `buffer_` to `buffer_end_`. -/
structure CodedInputStream where
  input : List (List UInt8)
  buffer : List UInt8
  totalBytesRead : ℕ
  overflowBytes : ℕ
  bufferSizeAfterLimit : ℕ
  lastTag : UInt32
  legitimateMessageEnd : Bool

namespace CodedInputStream
open Varint

/-! ## The chunk at hand -/

def nextNonEmpty : List (List UInt8) → Option (List UInt8 × List (List UInt8))
  | [] => none
  | [] :: input => nextNonEmpty input
  | chunk :: input => some (chunk, input)

def advance (s : CodedInputStream) (amount : ℕ) : CodedInputStream :=
  { s with buffer := s.buffer.drop amount }

/-- `Refresh`, with `RecomputeBufferLimits`. There is no limit but the one on the total. -/
def refresh (s : CodedInputStream) : Bool × CodedInputStream :=
  if 0 < s.bufferSizeAfterLimit ∨ 0 < s.overflowBytes ∨ s.totalBytesRead = intMax then (false, s)
  else
    match nextNonEmpty s.input with
    | none => (false, { s with input := [], buffer := [] })
    | some (chunk, input) =>
      let overflow := s.totalBytesRead + chunk.length - intMax
      let total := min (s.totalBytesRead + chunk.length) intMax
      let after := total - totalBytesLimit
      (true, { s with
        input := input
        buffer := chunk.take (chunk.length - overflow - after)
        totalBytesRead := total
        overflowBytes := overflow
        bufferSizeAfterLimit := after })

/-- The constructor, which calls `Refresh` at once. -/
def new (input : List (List UInt8)) : CodedInputStream := (refresh ⟨input, [], 0, 0, 0, 0, false⟩).2

/-- `while (buffer_ == buffer_end_) { if (!Refresh()) return false; }`, at most `n` rounds. -/
def fillFrom : ℕ → CodedInputStream → Bool × CodedInputStream
  | 0, s => (false, s)
  | n + 1, s =>
    if s.buffer = [] then
      match s.refresh with
      | (false, s) => (false, s)
      | (true, s) => fillFrom n s
    else (true, s)

/-- Every round but the last uses up a chunk. -/
def fill (s : CodedInputStream) : Bool × CodedInputStream := fillFrom (s.input.length + 1) s

/-! ## Numbers -/

/-- `b = *(ptr++); part += b << shift; if (!(b & 0x80)) goto done; part -= 0x80 << shift;` for one
shift after the other, up to `done`. -/
def addBytes : List UInt32 → UInt32 → List UInt8 → Option (UInt32 × List UInt8 × Bool)
  | [], part, ptr => some (part, ptr, false)
  | _ :: _, _, [] => none
  | shift :: shifts, part, b :: ptr =>
    if b &&& 0x80 = 0 then some (part + b.toUInt32 <<< shift, ptr, true)
    else addBytes shifts (part + b.toUInt32 <<< shift - 0x80 <<< shift) ptr

/-- The loop that discards the bytes beyond 32 bits. -/
def discardBytes : ℕ → List UInt8 → Option (List UInt8)
  | 0, _ => none
  | _ + 1, [] => none
  | n + 1, b :: ptr => if b &&& 0x80 = 0 then some ptr else discardBytes n ptr

def readVarint32FromArray (buffer : List UInt8) : Option (UInt32 × List UInt8) :=
  match addBytes [0, 7, 14, 21, 28] 0 buffer with
  | none => none
  | some (result, ptr, true) => some (result, ptr)
  | some (result, ptr, false) => (discardBytes 5 ptr).map fun ptr => (result, ptr)

/-- The value in three parts. -/
def joinParts (part0 part1 part2 : UInt32) : UInt64 :=
  part0.toUInt64 ||| part1.toUInt64 <<< 28 ||| part2.toUInt64 <<< 56

/-- The fast path of `ReadVarint64Fallback`. -/
def readVarint64FromArray (buffer : List UInt8) : Option (UInt64 × List UInt8) :=
  match addBytes [0, 7, 14, 21] 0 buffer with
  | none => none
  | some (part0, ptr, true) => some (joinParts part0 0 0, ptr)
  | some (part0, ptr, false) =>
    match addBytes [0, 7, 14, 21] 0 ptr with
    | none => none
    | some (part1, ptr, true) => some (joinParts part0 part1 0, ptr)
    | some (part1, ptr, false) =>
      match addBytes [0, 7] 0 ptr with
      | none => none
      | some (part2, ptr, true) => some (joinParts part0 part1 part2, ptr)
      | some (_, _, false) => none

/-- The loop of `ReadVarint64Slow`, when `n` more bytes may come. -/
def readVarint64SlowFrom : ℕ → ℕ → UInt64 → CodedInputStream → Option UInt64 × CodedInputStream
  | 0, _, _, s => (none, s)
  | n + 1, count, result, s =>
    match s.fill with
    | (false, s) => (none, s)
    | (true, s) =>
      let b := s.buffer.headD 0
      let result := result ||| (b &&& 0x7f).toUInt64 <<< UInt64.ofNat (7 * count)
      if b &&& 0x80 = 0 then (some result, s.advance 1)
      else readVarint64SlowFrom n (count + 1) result (s.advance 1)

def readVarint64Slow (s : CodedInputStream) : Option UInt64 × CodedInputStream :=
  readVarint64SlowFrom 10 0 0 s

/-- A number that begins here ends in the buffer, or is too long. -/
def isSafe (s : CodedInputStream) : Bool :=
  10 ≤ s.buffer.length || s.buffer.getLast?.any (· &&& 0x80 = 0)

def readVarint64Fallback (s : CodedInputStream) : Option UInt64 × CodedInputStream :=
  if s.isSafe then
    match readVarint64FromArray s.buffer with
    | none => (none, s)
    | some (value, ptr) => (some value, { s with buffer := ptr })
  else s.readVarint64Slow

def readVarint64 (s : CodedInputStream) : Option UInt64 × CodedInputStream :=
  match s.buffer with
  | b :: _ => if b < 0x80 then (some b.toUInt64, s.advance 1) else s.readVarint64Fallback
  | [] => s.readVarint64Fallback

/-- `ReadVarint32Slow`. -/
def readVarint32Slow (s : CodedInputStream) : Option UInt32 × CodedInputStream :=
  match s.readVarint64Fallback with
  | (none, s) => (none, s)
  | (some result, s) => (some result.toUInt32, s)

def readVarint32Fallback (s : CodedInputStream) : Option UInt32 × CodedInputStream :=
  if s.isSafe then
    match readVarint32FromArray s.buffer with
    | none => (none, s)
    | some (value, ptr) => (some value, { s with buffer := ptr })
  else s.readVarint32Slow

def readVarint32 (s : CodedInputStream) : Option UInt32 × CodedInputStream :=
  match s.buffer with
  | b :: _ => if b < 0x80 then (some b.toUInt32, s.advance 1) else s.readVarint32Fallback
  | [] => s.readVarint32Fallback

/-! ## Tags -/

/-- `ReadTagSlow`. A message may end where the stream does, but not at the limit. -/
def readTagSlow (s : CodedInputStream) : UInt32 × CodedInputStream :=
  let (ok, s) := if s.buffer = [] then s.refresh else (true, s)
  if ok then
    match s.readVarint64 with
    | (none, s) => (0, s)
    | (some result, s) => (result.toUInt32, s)
  else
    (0, { s with
      legitimateMessageEnd :=
        !decide (totalBytesLimit ≤ s.totalBytesRead - s.bufferSizeAfterLimit) })

/-- `ReadTagFallback`. -/
def readTagFallback (s : CodedInputStream) : UInt32 × CodedInputStream :=
  if s.isSafe then
    match readVarint32FromArray s.buffer with
    | none => (0, s)
    | some (tag, ptr) => (tag, { s with buffer := ptr })
  else if s.buffer = [] ∧ (0 < s.bufferSizeAfterLimit ∨ s.totalBytesRead = intMax) ∧
      s.totalBytesRead - s.bufferSizeAfterLimit < totalBytesLimit then
    (0, { s with legitimateMessageEnd := true })
  else s.readTagSlow

def readTag (s : CodedInputStream) : UInt32 × CodedInputStream :=
  match s.buffer with
  | b :: _ =>
    if b < 0x80 then (b.toUInt32, { s.advance 1 with lastTag := b.toUInt32 })
    else (s.readTagFallback.1, { s.readTagFallback.2 with lastTag := s.readTagFallback.1 })
  | [] => (s.readTagFallback.1, { s.readTagFallback.2 with lastTag := s.readTagFallback.1 })

/-- `ReadTagWithCutoff`, when `cutoff` is at most 127. -/
def readTagWithCutoff (cutoff : UInt32) (s : CodedInputStream) :
    (UInt32 × Bool) × CodedInputStream :=
  match s.buffer with
  | b :: _ =>
    if 0 < b ∧ b < 0x80 then
      ((b.toUInt32, 0x7f ≤ cutoff || b.toUInt32 ≤ cutoff),
        { s.advance 1 with lastTag := b.toUInt32 })
    else
      let (tag, s) := s.readTagFallback
      ((tag, tag - 1 < cutoff), { s with lastTag := tag })
  | [] =>
    let (tag, s) := s.readTagFallback
    ((tag, tag - 1 < cutoff), { s with lastTag := tag })

/-! ## Bytes -/

/-- The loop of `ReadRaw` and of `ReadStringFallback`, at most `n` rounds. -/
def readRawFrom : ℕ → ℕ → CodedInputStream → Option (List UInt8) × CodedInputStream
  | 0, _, s => (none, s)
  | n + 1, size, s =>
    if s.buffer.length < size then
      match (s.advance s.buffer.length).refresh with
      | (false, s') => (none, s')
      | (true, s') =>
        match readRawFrom n (size - s.buffer.length) s' with
        | (none, s') => (none, s')
        | (some bytes, s') => (some (s.buffer ++ bytes), s')
    else (some (s.buffer.take size), s.advance size)

def readRaw (size : ℕ) (s : CodedInputStream) : Option (List UInt8) × CodedInputStream :=
  readRawFrom (s.input.length + 1) size s

/-- `ReadString` with `InternalReadStringInline`. -/
def readString (size : ℤ) (s : CodedInputStream) : Option (List UInt8) × CodedInputStream :=
  if size < 0 then (none, s)
  else if size ≤ s.buffer.length then (some (s.buffer.take size.toNat), s.advance size.toNat)
  else s.readRaw size.toNat

/-- `ReadLittleEndian32` for 4 bytes and `ReadLittleEndian64` for 8: a value is copied from the
buffer, or from where `ReadRaw` put it. -/
def readLittleEndian (size : ℕ) (s : CodedInputStream) : Option ℕ × CodedInputStream :=
  if size ≤ s.buffer.length then
    (some (Nat.ofDigits 256 ((s.buffer.take size).map UInt8.toNat)), s.advance size)
  else
    match s.readRaw size with
    | (none, s) => (none, s)
    | (some bytes, s) => (some (Nat.ofDigits 256 (bytes.map UInt8.toNat)), s)

/-! ## The unrolled code -/

theorem and_128_eq_zero_iff (b : UInt8) : b &&& 0x80 = 0 ↔ b.toNat < 128 := by
  have hbyte := b.toNat_lt
  have hand : (b &&& 0x80).toNat = (b.toNat.testBit 7).toNat * 2 ^ 7 := by
    rw [UInt8.toNat_and, ← Nat.and_two_pow]
    rfl
  rw [← UInt8.toNat_inj, hand, Nat.testBit_eq_decide_div_mod_eq, UInt8.toNat_zero,
    Nat.mul_eq_zero, Bool.toNat_eq_zero, decide_eq_false_iff_not]
  omega

theorem and_127_toNat (b : UInt8) : (b &&& 0x7f).toNat = b.toNat % 128 := by
  rw [UInt8.toNat_and]
  exact Nat.and_two_pow_sub_one_eq_mod b.toNat 7

theorem shiftLeft_toUInt32 (b : UInt8) {i : ℕ} (hi : i < 32) :
    b.toUInt32 <<< UInt32.ofNat i = UInt32.ofNat (2 ^ i * b.toNat) := by
  apply UInt32.toNat_inj.mp
  rw [UInt32.toNat_shiftLeft, UInt32.toNat_ofNat', UInt32.toNat_ofNat', UInt8.toNat_toUInt32,
    Nat.mod_eq_of_lt (show i < 2 ^ 32 by omega), Nat.mod_eq_of_lt hi, Nat.shiftLeft_eq,
    Nat.mul_comm]

/-- Bits above the ones that are there are added. -/
theorem or_shiftLeft {r i : ℕ} (hr : r < 2 ^ i) (hi : i < 64) (n : ℕ) :
    UInt64.ofNat r ||| UInt64.ofNat n <<< UInt64.ofNat i = UInt64.ofNat (r + 2 ^ i * n) := by
  have hpow : 2 ^ i ≤ 2 ^ 64 := Nat.pow_le_pow_right (by decide) hi.le
  have hmod (m : ℕ) (hm : m < 2 ^ i) :
      (m + 2 ^ i * n) % 2 ^ 64 = 2 ^ i * (n % 2 ^ (64 - i)) + m := by
    have hsplit : 2 ^ 64 = 2 ^ i * 2 ^ (64 - i) := by rw [← Nat.pow_add]; congr 1; omega
    rw [hsplit, Nat.mod_mul, Nat.add_mul_mod_self_left, Nat.mod_eq_of_lt hm,
      Nat.add_mul_div_left _ _ (Nat.two_pow_pos i), Nat.div_eq_of_lt hm, Nat.zero_add,
      Nat.add_comm]
  have hzero : (2 ^ i * n) % 2 ^ 64 = 2 ^ i * (n % 2 ^ (64 - i)) := by
    simpa using hmod 0 (Nat.two_pow_pos i)
  apply UInt64.toNat_inj.mp
  rw [UInt64.toNat_or, UInt64.toNat_shiftLeft, UInt64.toNat_ofNat', UInt64.toNat_ofNat',
    UInt64.toNat_ofNat', UInt64.toNat_ofNat', Nat.mod_eq_of_lt (show i < 2 ^ 64 by omega),
    Nat.mod_eq_of_lt hi, Nat.mod_eq_of_lt (lt_of_lt_of_le hr hpow), Nat.shiftLeft_eq,
    Nat.mod_mul_mod, Nat.mul_comm n, hzero, hmod r hr, Nat.two_pow_add_eq_or_of_lt hr,
    Nat.or_comm]

/-- The shifts of `k` digits from the `i`th. -/
def shifts (i : ℕ) : ℕ → List UInt32
  | 0 => []
  | k + 1 => UInt32.ofNat (7 * i) :: shifts (i + 1) k

section AddBytes

variable {k i p n : ℕ} {b : UInt8} {bytes rest : List UInt8}

theorem add_digit (hb : 128 ≤ b.toNat) (hi : i < 32) :
    UInt32.ofNat p + b.toUInt32 <<< UInt32.ofNat i - 0x80 <<< UInt32.ofNat i =
      UInt32.ofNat (p + 2 ^ i * (b.toNat - 128)) := by
  have hle : 2 ^ i * 128 ≤ p + 2 ^ i * b.toNat :=
    (Nat.mul_le_mul_left _ hb).trans (Nat.le_add_left _ _)
  have hcont : (0x80 : UInt32) <<< UInt32.ofNat i = UInt32.ofNat (2 ^ i * 128) :=
    shiftLeft_toUInt32 128 hi
  rw [shiftLeft_toUInt32 b hi, hcont, ← UInt32.ofNat_add, ← UInt32.ofNat_sub hle,
    Nat.mul_sub, Nat.add_sub_assoc (Nat.mul_le_mul_left _ hb)]

theorem addBytes_last (hb : b.toNat < 128) (hi : 7 * i < 32) :
    addBytes (shifts i (k + 1)) (UInt32.ofNat p) (b :: bytes) =
      some (UInt32.ofNat (p + 2 ^ (7 * i) * b.toNat), bytes, true) := by
  rw [shifts, addBytes, if_pos ((and_128_eq_zero_iff b).mpr hb), shiftLeft_toUInt32 b hi,
    UInt32.ofNat_add]

theorem addBytes_more (hb : 128 ≤ b.toNat) (hi : 7 * i < 32) :
    addBytes (shifts i (k + 1)) (UInt32.ofNat p) (b :: bytes) =
      addBytes (shifts (i + 1) k) (UInt32.ofNat (p + 2 ^ (7 * i) * (b.toNat - 128))) bytes := by
  have hmore : ¬b &&& 0x80 = 0 := by
    rw [and_128_eq_zero_iff]
    omega
  rw [shifts, addBytes, if_neg hmore, add_digit hb hi]

theorem pow_digit (i x y : ℕ) :
    2 ^ (7 * i) * x + 2 ^ (7 * (i + 1)) * y = 2 ^ (7 * i) * (x + 128 * y) := by
  rw [Nat.mul_succ, Nat.pow_add]
  ring

theorem addBytes_some (hk : 7 * (i + k) ≤ 35) (h : read k bytes = some (n, rest)) :
    addBytes (shifts i k) (UInt32.ofNat p) bytes =
      some (UInt32.ofNat (p + 2 ^ (7 * i) * n), rest, true) := by
  induction k generalizing i p n bytes rest with
  | zero => cases h
  | succ k ih =>
    cases bytes with
    | nil => cases h
    | cons b bytes =>
      obtain hb | hb := Nat.lt_or_ge b.toNat 128
      · rw [read_last hb] at h
        obtain ⟨rfl, rfl⟩ := Prod.mk.inj (Option.some.inj h)
        exact addBytes_last hb (by omega)
      · rw [read_more hb] at h
        obtain ⟨⟨n', rest'⟩, hr, he⟩ := Option.map_eq_some_iff.mp h
        obtain ⟨rfl, rfl⟩ := Prod.mk.inj he
        rw [addBytes_more hb (by omega), ih (by omega) hr, Nat.add_assoc, pow_digit]

/-- Where the number goes on, or the bytes end. -/
theorem addBytes_none (hk : 7 * (i + k) ≤ 35) (h : read k bytes = none) :
    addBytes (shifts i k) (UInt32.ofNat p) bytes =
      if k ≤ bytes.length then
        some (UInt32.ofNat (p + 2 ^ (7 * i) * digits k bytes), bytes.drop k, false)
      else none := by
  induction k generalizing i p bytes with
  | zero => simp [shifts, addBytes, digits]
  | succ k ih =>
    cases bytes with
    | nil => simp [shifts, addBytes]
    | cons b bytes =>
      have hb : 128 ≤ b.toNat := by
        by_contra hlt
        rw [read_last (by omega)] at h
        cases h
      rw [read_more hb, Option.map_eq_none_iff] at h
      rw [addBytes_more hb (by omega), ih (by omega) h, Nat.add_assoc, pow_digit]
      simp [digits]

end AddBytes

theorem discardBytes_eq (n : ℕ) (bytes : List UInt8) :
    discardBytes n bytes = (read n bytes).map Prod.snd := by
  induction n generalizing bytes with
  | zero => rfl
  | succ n ih =>
    cases bytes with
    | nil => rfl
    | cons b bytes =>
      obtain hb | hb := Nat.lt_or_ge b.toNat 128
      · rw [read_last hb, discardBytes, if_pos ((and_128_eq_zero_iff b).mpr hb)]
        rfl
      · have hmore : ¬b &&& 0x80 = 0 := by
          rw [and_128_eq_zero_iff]
          omega
        rw [read_more hb, discardBytes, if_neg hmore, ih, Option.map_map]
        rfl

/-- The number at the front of the bytes, as far as an integer type holds it. -/
def varint {α : Type} (ofNat : ℕ → α) (bytes : List UInt8) : Option (α × List UInt8) :=
  (read 10 bytes).map fun r => (ofNat r.1, r.2)

theorem readVarint32FromArray_eq (buffer : List UInt8) :
    readVarint32FromArray buffer = varint UInt32.ofNat buffer := by
  rw [readVarint32FromArray, varint]
  rw [show ([0, 7, 14, 21, 28] : List UInt32) = shifts 0 5 from rfl,
    show (0 : UInt32) = UInt32.ofNat 0 from rfl]
  cases h : read 5 buffer with
  | some r =>
    rw [addBytes_some (by decide) h, read_mono (show 5 ≤ 10 by decide) h]
    simp
  | none =>
    rw [addBytes_none (by decide) h]
    by_cases hlen : 5 ≤ buffer.length
    · -- the digits from the sixth on are above bit 32
      rw [if_pos hlen, read_add h hlen 5]
      simp only [discardBytes_eq, Option.map_map]
      refine congrArg (fun f => Option.map f _) (funext fun r => ?_)
      simp [Function.comp_apply, UInt32.ofNat_add]
    · rw [if_neg hlen, read_eq_none_of_short h (by omega) 10]
      rfl

theorem joinParts_eq {n0 n1 : ℕ} (h0 : n0 < 2 ^ 28) (h1 : n1 < 2 ^ 28) {n2 : ℕ} (h2 : n2 < 2 ^ 32) :
    joinParts (UInt32.ofNat n0) (UInt32.ofNat n1) (UInt32.ofNat n2) =
      UInt64.ofNat (n0 + 2 ^ 28 * (n1 + 2 ^ 28 * n2)) := by
  have hpart {n : ℕ} (h : n < 2 ^ 32) : (UInt32.ofNat n).toUInt64 = UInt64.ofNat n := by
    apply UInt64.toNat_inj.mp
    rw [UInt32.toNat_toUInt64, UInt32.toNat_ofNat', UInt64.toNat_ofNat']
    omega
  have hsum : n0 + 2 ^ 28 * n1 < 2 ^ 56 := by omega
  rw [joinParts]
  rw [hpart (by omega), hpart (by omega), hpart h2, show (28 : UInt64) = UInt64.ofNat 28 from rfl,
    show (56 : UInt64) = UInt64.ofNat 56 from rfl, or_shiftLeft h0 (by decide),
    or_shiftLeft hsum (by decide)]
  congr 1
  ring

theorem readVarint64FromArray_eq (buffer : List UInt8) :
    readVarint64FromArray buffer = varint UInt64.ofNat buffer := by
  rw [readVarint64FromArray, varint]
  rw [show ([0, 7, 14, 21] : List UInt32) = shifts 0 4 from rfl,
    show ([0, 7] : List UInt32) = shifts 0 2 from rfl,
    show (0 : UInt32) = UInt32.ofNat 0 from rfl]
  cases h0 : read 4 buffer with
  | some r =>
    have hlt := Varint.read_lt h0
    rw [addBytes_some (by decide) h0, read_mono (show 4 ≤ 10 by decide) h0]
    simp only [Nat.mul_zero, Nat.pow_zero, Nat.one_mul, Nat.zero_add, Option.map_some]
    rw [joinParts_eq hlt (by decide) (by decide)]
    simp
  | none =>
    have hd0 := digits_lt 4 buffer
    rw [addBytes_none (by decide) h0]
    by_cases hlen0 : 4 ≤ buffer.length
    · rw [if_pos hlen0, read_add h0 hlen0 6]
      cases h1 : read 4 (buffer.drop 4) with
      | some r =>
        have hlt := Varint.read_lt h1
        simp only [addBytes_some (show 7 * (0 + 4) ≤ 35 by decide) h1,
          read_mono (show 4 ≤ 6 by decide) h1, Nat.mul_zero, Nat.pow_zero, Nat.one_mul,
          Nat.zero_add, Option.map_some]
        rw [joinParts_eq hd0 hlt (by decide)]
        simp
      | none =>
        have hd1 := digits_lt 4 (buffer.drop 4)
        simp only [addBytes_none (show 7 * (0 + 4) ≤ 35 by decide) h1]
        by_cases hlen1 : 4 ≤ (buffer.drop 4).length
        · rw [if_pos hlen1, read_add h1 hlen1 2]
          cases h2 : read 2 ((buffer.drop 4).drop 4) with
          | some r =>
            have hlt := Varint.read_lt h2
            simp only [addBytes_some (show 7 * (0 + 2) ≤ 35 by decide) h2, Nat.mul_zero,
              Nat.pow_zero, Nat.one_mul, Nat.zero_add, Option.map_some]
            rw [joinParts_eq hd0 hd1 (by omega), show 2 ^ 28 = 128 ^ 4 from rfl]
          | none =>
            simp only [addBytes_none (show 7 * (0 + 2) ≤ 35 by decide) h2, Option.map_none]
            by_cases hlen2 : 2 ≤ ((buffer.drop 4).drop 4).length
            · simp only [if_pos hlen2]
            · simp only [if_neg hlen2]
        · rw [if_neg hlen1, read_eq_none_of_short h1 (by omega) 6]
          rfl
    · rw [if_neg hlen0, read_eq_none_of_short h0 (by omega) 10]
      rfl

end CodedInputStream

end NgxRpc
