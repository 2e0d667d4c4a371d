import NgxRpc.CodedInput

/-!
# Reading across chunks

Each call of `CodedInputStream` takes the front of the bytes that are still to be read, however
they are cut into chunks, and fails exactly when they do not begin with what it reads.

## Main definitions

- `CodedInputStream.rest` — the bytes that are still to be read
- `CodedInputStream.Reads` — what a call reads, in terms of these bytes

## Main results

- `readVarint64_reads`, `readVarint32_reads`, `readString_reads`, `readLittleEndian_reads`
- `readTag_reads` — a tag, or the end of the message
- `readTagWithCutoff_eq` — the short cuts of `ReadTagWithCutoff` make no difference
-/

namespace NgxRpc
namespace CodedInputStream
open Varint

/-- The length of the whole stream. -/
def size (s : CodedInputStream) : ℕ := s.totalBytesRead + s.overflowBytes + s.input.flatten.length

/-- The bytes that are still to be read, up to the limit. -/
def rest (s : CodedInputStream) : List UInt8 :=
  s.buffer ++ s.input.flatten.take (totalBytesLimit - s.totalBytesRead)

structure Sound (s : CodedInputStream) : Prop where
  after : s.bufferSizeAfterLimit = s.totalBytesRead - totalBytesLimit
  overflow : 0 < s.overflowBytes → s.totalBytesRead = intMax

/-- `s'` is the same stream as `s` at a later point, where no tag was read in between. -/
structure Follows (s s' : CodedInputStream) : Prop where
  sound : s'.Sound
  size : s'.size = s.size
  lastTag : s'.lastTag = s.lastTag
  legitimate : s'.legitimateMessageEnd = s.legitimateMessageEnd

theorem Sound.follows {s : CodedInputStream} (h : s.Sound) : s.Follows s := ⟨h, rfl, rfl, rfl⟩

theorem Follows.trans {s s' s'' : CodedInputStream} (h : s.Follows s') (h' : s'.Follows s'') :
    s.Follows s'' :=
  ⟨h'.sound, h'.size.trans h.size, h'.lastTag.trans h.lastTag, h'.legitimate.trans h.legitimate⟩

/-- Other bytes of the chunk at hand. -/
theorem Sound.setBuffer {s : CodedInputStream} (h : s.Sound) (buffer : List UInt8) :
    s.Follows { s with buffer := buffer } :=
  ⟨⟨h.after, h.overflow⟩, rfl, rfl, rfl⟩

theorem rest_advance {s : CodedInputStream} {n : ℕ} (h : n ≤ s.buffer.length) :
    (s.advance n).rest = s.rest.drop n := by
  simp [rest, advance, List.drop_append_of_le_length h]

theorem nextNonEmpty_none {input : List (List UInt8)} (h : nextNonEmpty input = none) :
    input.flatten = [] := by
  induction input with
  | nil => rfl
  | cons c input ih =>
    cases c with
    | nil => exact ih h
    | cons b c => cases h

theorem nextNonEmpty_some {input input' : List (List UInt8)} {c : List UInt8}
    (h : nextNonEmpty input = some (c, input')) :
    c ≠ [] ∧ input.flatten = c ++ input'.flatten ∧ input'.length < input.length := by
  induction input with
  | nil => cases h
  | cons d input ih =>
    cases d with
    | nil =>
      obtain ⟨hne, hflat, hlen⟩ := ih h
      exact ⟨hne, hflat, Nat.lt_succ_of_lt hlen⟩
    | cons b d =>
      obtain ⟨rfl, rfl⟩ := Prod.mk.inj (Option.some.inj h)
      exact ⟨List.cons_ne_nil b d, rfl, Nat.lt_succ_self _⟩

variable {s s' : CodedInputStream}

/-- A `Refresh` that fails: there is nothing left to read. -/
theorem refresh_false (h : s.Sound) (hb : s.buffer = []) (hr : s.refresh = (false, s')) :
    s.Follows s' ∧ s.rest = [] ∧ s'.rest = [] ∧
      (totalBytesLimit ≤ s'.totalBytesRead - s'.bufferSizeAfterLimit ↔
        totalBytesLimit ≤ s.size) := by
  have hafter := h.after
  have hmax : totalBytesLimit < intMax := by decide
  rw [refresh] at hr
  split at hr
  · next hstop =>
    -- the limit is behind us
    obtain ⟨-, rfl⟩ := Prod.mk.inj hr
    have hlimit : totalBytesLimit < s.totalBytesRead := by
      obtain hpos | hpos | hpos := hstop
      · omega
      · rw [h.overflow hpos]
        exact hmax
      · rw [hpos]
        exact hmax
    have hrest : s.rest = [] := by
      rw [rest, hb, Nat.sub_eq_zero_of_le hlimit.le]
      rfl
    refine ⟨h.follows, hrest, hrest, ?_⟩
    rw [size]
    omega
  · next hgo =>
    split at hr
    · next hnone =>
      obtain ⟨-, rfl⟩ := Prod.mk.inj hr
      have hflat := nextNonEmpty_none hnone
      refine ⟨⟨⟨hafter, h.overflow⟩, by simp [size, hflat], rfl, rfl⟩, ?_, ?_, ?_⟩
      · rw [rest, hb, hflat, List.take_nil]
        rfl
      · simp [rest]
      · simp only [size, hflat, List.length_nil]
        omega
    · cases hr

/-- A `Refresh` that succeeds. -/
theorem refresh_true (h : s.Sound) (hb : s.buffer = []) (hr : s.refresh = (true, s')) :
    s.Follows s' ∧ s'.rest = s.rest ∧ s'.input.length < s.input.length ∧
      (s.rest = [] → totalBytesLimit ≤ s.size) := by
  have hafter := h.after
  have hmax : totalBytesLimit < intMax := by decide
  rw [refresh] at hr
  split at hr
  · cases hr
  · next hgo =>
    split at hr
    · cases hr
    · next c input hsome =>
      obtain ⟨-, rfl⟩ := Prod.mk.inj hr
      obtain ⟨hne, hflat, hlen⟩ := nextNonEmpty_some hsome
      refine ⟨⟨⟨rfl, fun hpos => ?_⟩, ?_, rfl, rfl⟩, ?_, hlen, fun hnil => ?_⟩
      · simp only at hpos ⊢
        omega
      · simp only [size, hflat, List.length_append]
        omega
      · simp only [rest, hb, hflat, List.nil_append, List.take_append]
        have htake : min (c.length - (s.totalBytesRead + c.length - intMax) -
            (min (s.totalBytesRead + c.length) intMax - totalBytesLimit)) c.length =
              min (totalBytesLimit - s.totalBytesRead) c.length := by omega
        have hdrop : totalBytesLimit - min (s.totalBytesRead + c.length) intMax =
            totalBytesLimit - s.totalBytesRead - c.length := by omega
        rw [List.take_eq_take_iff.mpr htake, hdrop]
      · have hzero : totalBytesLimit - s.totalBytesRead = 0 := by
          rw [rest, hb, hflat, List.nil_append, List.take_eq_nil_iff] at hnil
          exact hnil.resolve_right (List.append_ne_nil_of_left_ne_nil hne _)
        rw [size]
        omega

/-- The loop that waits for a byte. -/
theorem fillFrom_cases (h : s.Sound) {n : ℕ} (hn : s.input.length < n) :
    (∃ s', fillFrom n s = (true, s') ∧ s.Follows s' ∧ s'.rest = s.rest ∧ s'.buffer ≠ []) ∨
      ∃ s', fillFrom n s = (false, s') ∧ s.Follows s' ∧ s.rest = [] := by
  induction n generalizing s with
  | zero => cases hn
  | succ n ih =>
    by_cases hb : s.buffer = []
    · rw [fillFrom, if_pos hb]
      cases hr : s.refresh with
      | mk ok s' =>
        cases ok with
        | false =>
          obtain ⟨hf, hrest, -, -⟩ := refresh_false h hb hr
          exact Or.inr ⟨s', rfl, hf, hrest⟩
        | true =>
          obtain ⟨hf, hrest, hlen, -⟩ := refresh_true h hb hr
          obtain ⟨s'', hs'', hf', hrest', hb'⟩ | ⟨s'', hs'', hf', hrest'⟩ :=
            ih hf.sound (show s'.input.length < n by omega)
          · exact Or.inl ⟨s'', hs'', hf.trans hf', hrest'.trans hrest, hb'⟩
          · exact Or.inr ⟨s'', hs'', hf.trans hf', hrest ▸ hrest'⟩
    · rw [fillFrom, if_neg hb]
      exact Or.inl ⟨s, rfl, h.follows, rfl, hb⟩

/-- What a call reads is the front of the bytes that are still to be read. -/
structure Reads {α : Type} (s : CodedInputStream) (r : Option α × CodedInputStream)
    (f : List UInt8 → Option (α × List UInt8)) : Prop where
  follows : s.Follows r.2
  reads : f s.rest = r.1.map fun a => (a, r.2.rest)

theorem rest_cons {b : UInt8} {bs : List UInt8} (hb : s.buffer = b :: bs) :
    s.rest = b :: (s.advance 1).rest := by
  simp [rest, advance, hb]

theorem readVarint64SlowFrom_reads (h : s.Sound) {n count r : ℕ} (hn : n + count = 10)
    (hr : r < 2 ^ (7 * count)) :
    s.Reads (readVarint64SlowFrom n count (UInt64.ofNat r) s) fun bytes =>
      (read n bytes).map fun q => (UInt64.ofNat (r + 2 ^ (7 * count) * q.1), q.2) := by
  induction n generalizing s count r with
  | zero => exact ⟨h.follows, rfl⟩
  | succ n ih =>
    rw [readVarint64SlowFrom, fill]
    obtain ⟨s', hs', hf, hrest, hb⟩ | ⟨s', hs', hf, hrest⟩ :=
      fillFrom_cases h (Nat.lt_succ_self s.input.length)
    · obtain ⟨b, bs, hb⟩ := List.exists_cons_of_ne_nil hb
      have hbyte := b.toNat_lt
      have hadv : s'.Follows (s'.advance 1) := hf.sound.setBuffer _
      have hor : UInt64.ofNat r ||| (b &&& 0x7f).toUInt64 <<< UInt64.ofNat (7 * count) =
          UInt64.ofNat (r + 2 ^ (7 * count) * (b.toNat % 128)) := by
        rw [← and_127_toNat, ← or_shiftLeft hr (by omega), UInt64.ofNat_uInt8ToNat]
      have hfront : s.rest = b :: (s'.advance 1).rest := hrest.symm.trans (rest_cons hb)
      simp only [hs', hb, List.headD_cons, hor]
      obtain hlt | hge := Nat.lt_or_ge b.toNat 128
      · rw [if_pos ((and_128_eq_zero_iff b).mpr hlt)]
        exact ⟨hf.trans hadv, by rw [hfront, read_last hlt, Nat.mod_eq_of_lt hlt]; rfl⟩
      · have hmore : ¬b &&& 0x80 = 0 := by
          rw [and_128_eq_zero_iff]
          omega
        have hlow : b.toNat % 128 = b.toNat - 128 := by omega
        have hpow : r + 2 ^ (7 * count) * (b.toNat - 128) < 2 ^ (7 * (count + 1)) := by
          rw [Nat.mul_succ, Nat.pow_add]
          have hle : 2 ^ (7 * count) * (b.toNat - 128) ≤ 2 ^ (7 * count) * 127 :=
            Nat.mul_le_mul_left _ (by omega)
          omega
        rw [if_neg hmore, hlow]
        obtain ⟨hf', hread⟩ := ih hadv.sound (show n + (count + 1) = 10 by omega) hpow
        refine ⟨(hf.trans hadv).trans hf', ?_⟩
        rw [hfront, read_more hge, Option.map_map, ← hread]
        refine congrArg (fun f => Option.map f _) (funext fun q => ?_)
        simp only [Function.comp_apply, Nat.add_assoc, pow_digit]
    · rw [hs']
      exact ⟨hf, by rw [hrest]; rfl⟩

theorem readVarint64Slow_reads (h : s.Sound) :
    s.Reads s.readVarint64Slow (varint UInt64.ofNat) := by
  have hfun : varint UInt64.ofNat = fun bytes =>
      (read 10 bytes).map fun q => (UInt64.ofNat (0 + 2 ^ (7 * 0) * q.1), q.2) := by
    funext bytes
    simp [varint]
  rw [hfun]
  exact readVarint64SlowFrom_reads h rfl (by decide)

/-- In the safe case the buffer decides what is read. -/
theorem varint_rest {α : Type} {ofNat : ℕ → α} (hsafe : s.isSafe = true) :
    varint ofNat s.rest = (varint ofNat s.buffer).map fun r =>
      (r.1, r.2 ++ s.input.flatten.take (totalBytesLimit - s.totalBytesRead)) := by
  unfold varint rest
  cases hread : read 10 s.buffer with
  | some r => simp [read_append hread]
  | none =>
    rw [read_append_eq_none hread]
    · rfl
    · obtain hlen | hlast := Bool.or_eq_true_iff.mp hsafe
      · exact Or.inl (by simpa using hlen)
      · obtain ⟨b, hb, hend⟩ := (Option.any_eq_true _ _).mp hlast
        exact Or.inr ⟨b, hb, (and_128_eq_zero_iff b).mp (by simpa using hend)⟩

theorem readVarint64Fallback_reads (h : s.Sound) :
    s.Reads s.readVarint64Fallback (varint UInt64.ofNat) := by
  rw [readVarint64Fallback]
  split
  · next hsafe =>
    rw [readVarint64FromArray_eq]
    cases hread : varint UInt64.ofNat s.buffer with
    | none => exact ⟨h.follows, by rw [varint_rest hsafe, hread]; rfl⟩
    | some r => exact ⟨h.setBuffer _, by rw [varint_rest hsafe, hread]; rfl⟩
  · exact readVarint64Slow_reads h

/-- The short cut for a number of one byte. -/
theorem varint_cons {α : Type} {ofNat : ℕ → α} {b : UInt8} {bs : List UInt8}
    (hb : s.buffer = b :: bs) (hlt : b < 0x80) :
    varint ofNat s.rest = some (ofNat b.toNat, (s.advance 1).rest) := by
  rw [varint, rest_cons hb, read_last hlt]
  rfl

theorem readVarint64_reads (h : s.Sound) :
    s.Reads s.readVarint64 (varint UInt64.ofNat) := by
  rw [readVarint64]
  split
  · next b bs hb =>
    split
    · next hlt =>
      refine ⟨h.setBuffer _, ?_⟩
      rw [varint_cons hb hlt, UInt64.ofNat_uInt8ToNat]
      rfl
    · exact readVarint64Fallback_reads h
  · exact readVarint64Fallback_reads h

theorem toUInt32_ofNat (n : ℕ) : (UInt64.ofNat n).toUInt32 = UInt32.ofNat n := by
  apply UInt32.toNat_inj.mp
  rw [UInt64.toNat_toUInt32, UInt64.toNat_ofNat', UInt32.toNat_ofNat']
  omega

theorem varint_toUInt32 (bytes : List UInt8) : varint UInt32.ofNat bytes =
    (varint UInt64.ofNat bytes).map fun r => (r.1.toUInt32, r.2) := by
  simp [varint, Function.comp_def]

theorem readVarint32Fallback_reads (h : s.Sound) :
    s.Reads s.readVarint32Fallback (varint UInt32.ofNat) := by
  rw [readVarint32Fallback]
  split
  · next hsafe =>
    rw [readVarint32FromArray_eq]
    cases hread : varint UInt32.ofNat s.buffer with
    | none => exact ⟨h.follows, by rw [varint_rest hsafe, hread]; rfl⟩
    | some r => exact ⟨h.setBuffer _, by rw [varint_rest hsafe, hread]; rfl⟩
  · obtain ⟨hf, hread⟩ := readVarint64Fallback_reads h
    rw [readVarint32Slow]
    split
    · next s' hs' =>
      rw [hs'] at hf hread
      exact ⟨hf, by rw [varint_toUInt32, hread]; rfl⟩
    · next result s' hs' =>
      rw [hs'] at hf hread
      exact ⟨hf, by rw [varint_toUInt32, hread]; rfl⟩

theorem readVarint32_reads (h : s.Sound) :
    s.Reads s.readVarint32 (varint UInt32.ofNat) := by
  rw [readVarint32]
  split
  · next b bs hb =>
    split
    · next hlt =>
      refine ⟨h.setBuffer _, ?_⟩
      rw [varint_cons hb hlt, UInt32.ofNat_uInt8ToNat]
      rfl
    · exact readVarint32Fallback_reads h
  · exact readVarint32Fallback_reads h

/-- The first `n` bytes. -/
def takeBytes (n : ℕ) (bytes : List UInt8) : Option (List UInt8 × List UInt8) :=
  if n ≤ bytes.length then some (bytes.take n, bytes.drop n) else none

/-- Bytes that are all in the buffer. -/
theorem takeBytes_buffer {n : ℕ} (hn : n ≤ s.buffer.length) :
    takeBytes n s.rest = some (s.buffer.take n, (s.advance n).rest) := by
  have hle : n ≤ s.rest.length := by
    rw [rest, List.length_append]
    omega
  rw [takeBytes, if_pos hle, rest_advance hn, rest, List.take_append_of_le_length hn]

theorem readRawFrom_reads (h : s.Sound) {n size : ℕ} (hn : s.input.length < n) :
    s.Reads (readRawFrom n size s) (takeBytes size) := by
  induction n generalizing s size with
  | zero => cases hn
  | succ n ih =>
    rw [readRawFrom]
    split
    · next hlt =>
      have hadv : s.Follows (s.advance s.buffer.length) := h.setBuffer _
      have hbuf : (s.advance s.buffer.length).buffer = [] := List.drop_length
      have hrest : s.rest = s.buffer ++ (s.advance s.buffer.length).rest := by
        simp [rest, advance]
      split
      · next s' hr =>
        obtain ⟨hf, hnil, -, -⟩ := refresh_false hadv.sound hbuf hr
        refine ⟨hadv.trans hf, ?_⟩
        rw [hrest, hnil, List.append_nil, takeBytes, if_neg (by omega)]
        rfl
      · next s' hr =>
        obtain ⟨hf, hsame, hlen, -⟩ := refresh_true hadv.sound hbuf hr
        have hlen' : s'.input.length < n :=
          Nat.lt_of_lt_of_le hlen (Nat.le_of_lt_succ hn)
        have hnext : s'.Reads (readRawFrom n (size - s.buffer.length) s')
            (takeBytes (size - s.buffer.length)) := ih hf.sound hlen'
        obtain ⟨hf', hread⟩ := hnext
        have hsplit : takeBytes size s.rest =
            (takeBytes (size - s.buffer.length) s'.rest).map fun r => (s.buffer ++ r.1, r.2) := by
          rw [hrest, ← hsame, takeBytes, takeBytes, List.length_append]
          by_cases hle : size ≤ s.buffer.length + s'.rest.length
          · rw [if_pos hle, if_pos (by omega), List.take_append, List.drop_append,
              List.take_of_length_le hlt.le, List.drop_eq_nil_of_le hlt.le]
            rfl
          · rw [if_neg hle, if_neg (by omega)]
            rfl
        split
        · next s'' hs'' =>
          rw [hs''] at hf' hread
          exact ⟨(hadv.trans hf).trans hf', by rw [hsplit, hread]; rfl⟩
        · next bytes s'' hs'' =>
          rw [hs''] at hf' hread
          exact ⟨(hadv.trans hf).trans hf', by rw [hsplit, hread]; rfl⟩
    · next hle => exact ⟨h.setBuffer _, takeBytes_buffer (Nat.le_of_not_lt hle)⟩

theorem readRaw_reads (h : s.Sound) (size : ℕ) : s.Reads (s.readRaw size) (takeBytes size) :=
  readRawFrom_reads h (Nat.lt_succ_self _)

theorem readString_reads (h : s.Sound) {size : ℤ} (hsize : 0 ≤ size) :
    s.Reads (s.readString size) (takeBytes size.toNat) := by
  rw [readString, if_neg (by omega)]
  split
  · next hle => exact ⟨h.setBuffer _, takeBytes_buffer (by omega)⟩
  · exact readRaw_reads h _

theorem readLittleEndian_reads (h : s.Sound) (size : ℕ) :
    s.Reads (s.readLittleEndian size) fun bytes =>
      (takeBytes size bytes).map fun r => (Nat.ofDigits 256 (r.1.map UInt8.toNat), r.2) := by
  rw [readLittleEndian]
  split
  · next hle => exact ⟨h.setBuffer _, by rw [takeBytes_buffer hle]; rfl⟩
  · obtain ⟨hf, hread⟩ := readRaw_reads h size
    split
    · next s' hs' =>
      rw [hs'] at hf hread
      exact ⟨hf, by rw [hread]; rfl⟩
    · next bytes s' hs' =>
      rw [hs'] at hf hread
      exact ⟨hf, by rw [hread]; rfl⟩

/-! ## The end of a message -/

/-- A tag was read: `tag`, or 0 at the end and where there is no number. A message may only end
where the stream does, and before the limit. -/
structure ReadsTag (s : CodedInputStream) (tag : UInt32) (s' : CodedInputStream) : Prop where
  sound : s'.Sound
  size : s'.size = s.size
  reads : varint UInt32.ofNat s.rest = some (tag, s'.rest) ∧ s'.legitimateMessageEnd = false ∨
    varint UInt32.ofNat s.rest = none ∧ tag = 0 ∧
      s'.legitimateMessageEnd = decide (s.rest = [] ∧ s.size < totalBytesLimit)

/-- Reading a number where a tag is expected. -/
theorem Reads.readsTag {α : Type} {ofNat : ℕ → α} {toTag : α → UInt32}
    (htag : ∀ n, toTag (ofNat n) = UInt32.ofNat n) {r : Option α × CodedInputStream}
    (h : s.Reads r (varint ofNat)) (hl : s.legitimateMessageEnd = false)
    (hend : s.rest = [] → totalBytesLimit ≤ s.size) : s.ReadsTag (r.1.elim 0 toTag) r.2 := by
  have hread : varint UInt32.ofNat s.rest =
      (varint ofNat s.rest).map fun q => (toTag q.1, q.2) := by
    simp [varint, Function.comp_def, htag]
  have hleg := h.follows.legitimate.trans hl
  refine ⟨h.follows.sound, h.follows.size, ?_⟩
  rw [hread, h.reads]
  cases r.1 with
  | some a => exact Or.inl ⟨rfl, hleg⟩
  | none =>
    have hno : ¬(s.rest = [] ∧ s.size < totalBytesLimit) := fun hand =>
      Nat.not_lt.mpr (hend hand.1) hand.2
    exact Or.inr ⟨rfl, rfl, by rw [hleg, decide_eq_false hno]⟩

/-- `Refresh` before the tag. -/
theorem ReadsTag.of_follows {tag : UInt32} {s'' : CodedInputStream} (h : s'.ReadsTag tag s'')
    (hf : s.Follows s') (hrest : s'.rest = s.rest) : s.ReadsTag tag s'' := by
  refine ⟨h.sound, h.size.trans hf.size, ?_⟩
  rw [← hrest, ← hf.size]
  exact h.reads

theorem readTagSlow_reads (h : s.Sound) (hl : s.legitimateMessageEnd = false) :
    s.ReadsTag s.readTagSlow.1 s.readTagSlow.2 := by
  rw [readTagSlow]
  by_cases hb : s.buffer = []
  · rw [if_pos hb]
    cases hr : s.refresh with
    | mk ok s' =>
      cases ok with
      | false =>
        obtain ⟨hf, hrest, -, hend⟩ := refresh_false h hb hr
        refine ⟨⟨hf.sound.after, hf.sound.overflow⟩, hf.size, Or.inr ⟨?_, rfl, ?_⟩⟩
        · rw [hrest]
          rfl
        · rw [Bool.eq_iff_iff]
          simp [hrest, hend]
      | true =>
        obtain ⟨hf, hrest, -, hend⟩ := refresh_true h hb hr
        have hread := (readVarint64_reads hf.sound).readsTag toUInt32_ofNat
          (hf.legitimate.trans hl) (by rwa [hrest, hf.size])
        rcases hv : s'.readVarint64 with ⟨_ | result, s''⟩
        all_goals
          simp only [hv, if_true] at hread ⊢
          exact hread.of_follows hf hrest
  · have hne : s.rest ≠ [] := List.append_ne_nil_of_left_ne_nil hb _
    have hread := (readVarint64_reads h).readsTag toUInt32_ofNat hl fun hnil => absurd hnil hne
    rcases hv : s.readVarint64 with ⟨_ | result, s''⟩
    all_goals
      simp only [hv, if_neg hb, if_true] at hread ⊢
      exact hread

theorem buffer_ne_nil_of_isSafe (hsafe : s.isSafe = true) : s.buffer ≠ [] := by
  intro hnil
  simp [isSafe, hnil] at hsafe

theorem readTagFallback_reads (h : s.Sound) (hl : s.legitimateMessageEnd = false) :
    s.ReadsTag s.readTagFallback.1 s.readTagFallback.2 := by
  rw [readTagFallback]
  split
  · next hsafe =>
    have hne : s.rest ≠ [] :=
      List.append_ne_nil_of_left_ne_nil (buffer_ne_nil_of_isSafe hsafe) _
    rw [readVarint32FromArray_eq]
    cases hread : varint UInt32.ofNat s.buffer with
    | none =>
      refine ⟨h, rfl, Or.inr ⟨by rw [varint_rest hsafe, hread]; rfl, rfl, ?_⟩⟩
      rw [hl, decide_eq_false fun hand => hne hand.1]
    | some r =>
      exact ⟨(h.setBuffer _).sound, rfl, Or.inl ⟨by rw [varint_rest hsafe, hread]; rfl, hl⟩⟩
  · split
    · next hlim =>
      -- the only limit is the one on the total
      obtain ⟨-, hstop, hpos⟩ := hlim
      have hafter := h.after
      have hmax : totalBytesLimit < intMax := by decide
      omega
    · exact readTagSlow_reads h hl

/-- `ReadTag` sets `last_tag_`. -/
theorem ReadsTag.setLastTag {tag : UInt32} (h : s.ReadsTag tag s') :
    s.ReadsTag tag { s' with lastTag := tag } :=
  ⟨⟨h.sound.after, h.sound.overflow⟩, h.size, h.reads⟩

theorem readTag_reads (h : s.Sound) (hl : s.legitimateMessageEnd = false) :
    s.ReadsTag s.readTag.1 s.readTag.2 ∧ s.readTag.2.lastTag = s.readTag.1 := by
  rw [readTag]
  split
  · next b bs hb =>
    split
    · next hlt =>
      refine ⟨⟨⟨h.after, h.overflow⟩, rfl, Or.inl ⟨?_, hl⟩⟩, rfl⟩
      rw [varint_cons hb hlt, UInt32.ofNat_uInt8ToNat]
      rfl
    · exact ⟨(readTagFallback_reads h hl).setLastTag, rfl⟩
  · exact ⟨(readTagFallback_reads h hl).setLastTag, rfl⟩

/-- A byte below 128 is the tag on every path. -/
theorem readTagFallback_cons {b : UInt8} {bs : List UInt8} (hb : s.buffer = b :: bs)
    (hlt : b < 0x80) : s.readTagFallback = (b.toUInt32, s.advance 1) := by
  have hadv : { s with buffer := bs } = s.advance 1 := by simp [advance, hb]
  rw [readTagFallback]
  split
  · have hread : varint UInt32.ofNat s.buffer = some (b.toUInt32, bs) := by
      rw [varint, hb, read_last hlt, Option.map_some, UInt32.ofNat_uInt8ToNat]
    rw [readVarint32FromArray_eq, hread, ← hadv]
  · have hne : s.buffer ≠ [] := hb ▸ List.cons_ne_nil b bs
    have h64 : s.readVarint64 = (some b.toUInt64, s.advance 1) := by
      rw [readVarint64]
      split
      · next b' bs' hb' =>
        obtain ⟨rfl, -⟩ := List.cons.inj (hb.symm.trans hb')
        rw [if_pos hlt]
      · next hnil => exact absurd hnil hne
    rw [if_neg fun hand => hne hand.1]
    simp [readTagSlow, hne, h64]

/-- `ReadTagWithCutoff` is `ReadTag`, and says whether the tag is from 1 to 127. -/
theorem readTagWithCutoff_eq (s : CodedInputStream) : s.readTagWithCutoff 127 =
    ((s.readTag.1, decide (s.readTag.1 - 1 < 127)), s.readTag.2) := by
  cases hb : s.buffer with
  | nil => simp only [readTagWithCutoff, readTag, hb]
  | cons b bs =>
    by_cases hlt : b < 0x80
    · have hfall := readTagFallback_cons hb hlt
      by_cases hpos : 0 < b
      · have htag : b.toUInt32 - 1 < 127 := by
          rw [UInt8.lt_iff_toNat_lt] at hlt hpos
          rw [UInt32.lt_iff_toNat_lt, UInt32.toNat_sub, UInt8.toNat_toUInt32]
          simp only [UInt8.reduceToNat, UInt32.reduceToNat] at hlt hpos ⊢
          omega
        simp [readTagWithCutoff, readTag, hb, hlt, hpos, htag]
      · simp only [readTagWithCutoff, readTag, hb, hlt, hpos, hfall, if_true, false_and, if_false]
    · simp only [readTagWithCutoff, readTag, hb, hlt, if_false, and_false]

end CodedInputStream

end NgxRpc
