import NgxRpc.ShmWriter
import Mathlib.Order.Monotone.Basic
import Mathlib.Tactic.Ring

/-!
# Serialising a message

How protobuf drives a writer: the constructor of `CodedOutputStream` asks for the
first region, `WriteRaw` asks for another one whenever the bytes do not fit, and
the destructor gives back the rest of the last region.

## Main definitions

- `serializeToZeroCopyStream` — the calls protobuf makes to write a message
- `Driven` — the writer after a number of bytes
-/

namespace NgxRpc
open SlabPool

/-- The caller copies `bytes` to address `data` of buffer `b`. -/
def NgxBuf.store (b : NgxBuf) (data : ℤ) (bytes : List UInt8) : NgxBuf :=
  let off := (data - b.start).toNat
  { b with mem := b.mem.take off ++ bytes ++ b.mem.drop (off + bytes.length) }

/-- The caller copies `bytes` to the front of a region of the last buffer of a chain. A region
in a buffer at `NULL` is as good as `NULL`. -/
def storeLast (data : ℤ) (bytes : List UInt8) : List Link → SlabM (List Link)
  | [] => throw .nullDereference
  | [l] => do
    let b ← deref l.buf
    if bytes = [] then pure [l]
    else if data = 0 ∨ b.start = 0 then throw .nullDereference
    else
      access b.start
      pure [{ l with buf := some (b.store data bytes) }]
  | l :: k :: ls => do
    let ls' ← storeLast data bytes (k :: ls)
    pure (l :: ls')

namespace NgxShmChainBufferWriter

/-- `CodedOutputStream::WriteRaw` on the region in hand: while the rest of the bytes
does not fit, fill the region and call `Next`. -/
def writeRaw (S : Slab) (w : NgxShmChainBufferWriter) (buffer : Region) (bytes : List UInt8) :
    SlabM (NgxShmChainBufferWriter × Region) :=
  if bytes.length ≤ buffer.size then do
    let chain ← storeLast buffer.data bytes w.chain
    pure ({ w with chain := chain }, ⟨buffer.data + bytes.length, buffer.size - bytes.length⟩)
  else if 0 ≤ buffer.size then do
    let chain ← storeLast buffer.data (bytes.take buffer.size.toNat) w.chain
    let (w, buffer') ← next S { w with chain := chain }
    if 0 < buffer'.size then writeRaw S w buffer' (bytes.drop buffer.size.toNat)
    else throw .badCopy
  else throw .badCopy
termination_by (bytes.length, if 0 < buffer.size then 0 else 1)
decreasing_by
  by_cases hpos : 0 < buffer.size
  · apply Prod.Lex.left _ _
    rw [List.length_drop]
    omega
  · have hzero : buffer.size = 0 := by omega
    simp only [hzero, Int.toNat_zero, List.drop_zero]
    exact Prod.Lex.right _ (by simp [*])

/-- `MessageLite::SerializeToZeroCopyStream` of a message with the given bytes: the
constructor of `CodedOutputStream` calls `Next`, and its destructor gives the rest
of the last region back. -/
def serializeToZeroCopyStream (S : Slab) (w : NgxShmChainBufferWriter) (bytes : List UInt8) :
    SlabM NgxShmChainBufferWriter := do
  let (w, buffer) ← next S w
  let (w, buffer) ← writeRaw S w buffer bytes
  if 0 < buffer.size then w.backUp buffer.size else pure w

/-! ## Evaluation -/

/-- `writeRaw`, given at most so many rounds of its loop. -/
def writeRounds (S : Slab) : ℕ → NgxShmChainBufferWriter → Region → List UInt8 →
    SlabM (NgxShmChainBufferWriter × Region)
  | 0, _, _, _ => throw .endlessLoop
  | n + 1, w, buffer, bytes =>
    if bytes.length ≤ buffer.size then do
      let chain ← storeLast buffer.data bytes w.chain
      pure ({ w with chain := chain }, ⟨buffer.data + bytes.length, buffer.size - bytes.length⟩)
    else if 0 ≤ buffer.size then do
      let chain ← storeLast buffer.data (bytes.take buffer.size.toNat) w.chain
      let (w, buffer') ← next S { w with chain := chain }
      if 0 < buffer'.size then writeRounds S n w buffer' (bytes.drop buffer.size.toNat)
      else throw .badCopy
    else throw .badCopy

/-- There is at most a round for each byte, and one more when the region in hand is full. -/
theorem writeRaw_eq_writeRounds {S : Slab} (w : NgxShmChainBufferWriter) (buffer : Region)
    (bytes : List UInt8) {n : ℕ} (hn : bytes.length + (if 0 < buffer.size then 0 else 1) < n) :
    writeRaw S w buffer bytes = writeRounds S n w buffer bytes := by
  induction w, buffer, bytes using writeRaw.induct generalizing n with
  | case1 w buffer bytes hfit =>
    obtain ⟨m, rfl⟩ := Nat.exists_eq_add_one_of_ne_zero (Nat.ne_zero_of_lt hn)
    rw [writeRaw, writeRounds, if_pos hfit, if_pos hfit]
  | case2 w buffer bytes hfit hnonneg ih =>
    obtain ⟨m, rfl⟩ := Nat.exists_eq_add_one_of_ne_zero (Nat.ne_zero_of_lt hn)
    rw [writeRaw, writeRounds, if_neg hfit, if_neg hfit, if_pos hnonneg, if_pos hnonneg]
    refine bind_congr fun chain => bind_congr fun r => ?_
    dsimp only
    split
    · next hpos =>
      apply ih r.1 r.2 hpos
      rw [if_pos hpos, List.length_drop]
      split at hn <;> omega
    · rfl
  | case3 w buffer bytes hfit hneg =>
    obtain ⟨m, rfl⟩ := Nat.exists_eq_add_one_of_ne_zero (Nat.ne_zero_of_lt hn)
    rw [writeRaw, writeRounds, if_neg hfit, if_neg hfit, if_neg hneg, if_neg hneg]

/-- A message of `n` bytes takes at most `n + 2` rounds. -/
theorem serialize_eq_writeRounds (S : Slab) (w : NgxShmChainBufferWriter) (bytes : List UInt8) :
    serializeToZeroCopyStream S w bytes = (do
      let (w, buffer) ← next S w
      let (w, buffer) ← writeRounds S (bytes.length + 2) w buffer bytes
      if 0 < buffer.size then w.backUp buffer.size else pure w) := by
  refine bind_congr fun r => ?_
  obtain ⟨w₁, buffer⟩ := r
  dsimp only
  rw [writeRaw_eq_writeRounds w₁ buffer bytes (show _ < bytes.length + 2 by split <;> omega)]

/-! ## The calls of the serialiser -/

/-- The bytes in the first `n` regions. -/
def capacity (n : ℕ) : ℕ := 2048 * n * (n + 1)

theorem capacity_succ (n : ℕ) : capacity (n + 1) = capacity n + 4096 * (n + 1) := by
  simp only [capacity]
  ring

theorem capacity_mono {m n : ℕ} (h : m ≤ n) : capacity m ≤ capacity n := by
  refine monotone_nat_of_le_succ (fun k => ?_) h
  rw [capacity_succ]
  omega

/-- The writer after the serialiser has written `written`: the chain is `init` and a
last link `l` with buffer `b`, and region `buffer` is the part of `b` that is not
written to yet. -/
structure Driven (E : Stop → Prop) (G : UInt8 → Prop) (init : List Link) (l : Link) (b : NgxBuf)
    (w : NgxShmChainBufferWriter) (buffer : Region) (written : List UInt8) : Prop where
  chain : w.chain = init ++ [l]
  buf : l.buf = some b
  init_buf : ∀ k ∈ init, k.buf.isSome
  pos : b.pos = b.start
  last : b.last = b.end_
  end_ : b.end_ = b.start + b.mem.length
  start : 0 < b.start ∨ E .nullDereference
  data : buffer.data = b.end_ - buffer.size
  size_nonneg : 0 ≤ buffer.size
  size_le : buffer.size ≤ b.mem.length
  content : content init ++ b.mem.take (b.mem.length - buffer.size.toNat) = written
  stale : ∀ x ∈ b.mem.drop (b.mem.length - buffer.size.toNat), G x
  extends_ : w.extends_ = init.length + 2
  total : written.length + buffer.size = capacity (init.length + 1)
  totaly : w.totaly = CInt.int (capacity (init.length + 1))

theorem regionSize_of_range {ex : ℤ} (hlo : 0 ≤ ex) (hhi : ex < 2 ^ 19) :
    regionSize ex = 4096 * ex := by
  rw [regionSize, defaultSize, CInt.unsigned_of_range (by omega) (by omega),
    CInt.int_of_range (by omega) (by omega)]

/-- The state right after a region was allocated. -/
theorem driven_fresh {E : Stop → Prop} {G : UInt8 → Prop} {init : List Link} {l : Link}
    {b : NgxBuf} {w : NgxShmChainBufferWriter} {buffer : Region} {written : List UInt8}
    (hchain : w.chain = init ++ [l]) (hl : l.buf = some b) (hinit : ∀ k ∈ init, k.buf.isSome)
    (hb : FreshBuf G buffer.size b) (hstart : 0 < b.start ∨ E .nullDereference)
    (hdata : buffer.data = b.start) (hsize : buffer.size = 4096 * (init.length + 1))
    (hext : w.extends_ = init.length + 2)
    (htotaly : w.totaly = CInt.int (capacity (init.length + 1)))
    (hwritten : NgxRpc.content init = written) (hlen : written.length = capacity init.length) :
    Driven E G init l b w buffer written := by
  have hmem := hb.length (by omega)
  have hend := hb.end_
  have hzero : b.mem.length - buffer.size.toNat = 0 := by omega
  refine ⟨hchain, hl, hinit, hb.pos, hb.last, by omega, hstart, by omega, by omega, by omega,
    ?_, ?_, hext, ?_, htotaly⟩
  · simp [hzero, hwritten]
  · exact fun x hx => hb.stale x (List.mem_of_mem_drop hx)
  · rw [capacity_succ]
    omega

section Spec

variable {S : Slab} {E : Stop → Prop} {G : UInt8 → Prop} {p : Pool} {init : List Link}
  {l : Link} {b : NgxBuf} {w : NgxShmChainBufferWriter} {buffer : Region} {written : List UInt8}

/-- The first call of `Next`. -/
theorem wp_next_new (hroom : S.Unlimited ∨ E .nullDereference ∧ G 0)
    (hstale : ∀ p n, ∀ x ∈ S.stale p n, G x) (ch : ℤ) :
    wpStop E (next S (new ch 1)) (fun r _ => ∃ l b, Driven E G [] l b r.1 r.2 []) p := by
  have hsize : regionSize 1 = 4096 := by decide
  simp only [next, new, nextFrom, wp_bind, wp_access]
  refine wp_newBuf hroom hstale fun b p' hb hstart => ?_
  simp only [wp_pure]
  exact ⟨_, b, driven_fresh rfl rfl (by simp) hb hstart rfl hsize rfl
    (by simp only [hsize]; rfl) rfl rfl⟩

theorem Driven.content_last (h : Driven E G init l b w buffer written) : l.content = b.mem := by
  have hlen : (b.last - b.pos).toNat = b.mem.length := by
    rw [h.last, h.end_, h.pos]
    omega
  simp [Link.content, h.buf, NgxBuf.content, NgxBuf.at_, h.pos, ← hlen]

/-- A call of `Next` when the region in hand is full. -/
theorem Driven.wp_next (h : Driven E G init l b w buffer written) (hfull : buffer.size = 0)
    (hn : init.length < 2 ^ 18) (hroom : S.Unlimited ∨ E .nullDereference ∧ G 0)
    (hstale : ∀ p n, ∀ x ∈ S.stale p n, G x) :
    wpStop E (next S w) (fun r _ => 0 < r.2.size ∧ ∃ init' l' b', init'.length = init.length + 1 ∧
      Driven E G init' l' b' r.1 r.2 written) p := by
  have hsize : regionSize w.extends_ = 4096 * (init.length + 2) := by
    rw [h.extends_, regionSize_of_range] <;> omega
  have hext : CInt.unsigned (w.extends_ + 1) = init.length + 3 := by
    rw [h.extends_, CInt.unsigned_of_range] <;> omega
  have hcap := h.total
  have hcap' := capacity_succ (init.length + 1)
  simp only [next, h.chain, wp_bind]
  apply wp_nextFrom hroom hstale h.buf h.last h.init_buf
  rintro init' l' b' p' ⟨hcontent, hlen⟩ hinit' hl' hb' hstart
  have hwritten : NgxRpc.content (init' ++ [l]) = written := by
    have htake := h.content
    rw [hfull, Int.toNat_zero, Nat.sub_zero, List.take_length] at htake
    rw [content_append, hcontent, ← htake, content_cons, content_nil, List.append_nil,
      h.content_last]
  simp only [wp_pure]
  refine ⟨by omega, init' ++ [l], l', b', by simp [hlen], ?_⟩
  refine driven_fresh (by simp) hl' ?_ hb' hstart rfl ?_ ?_ ?_ hwritten ?_
  · intro k hk
    obtain hk | hk := List.mem_append.mp hk
    · exact hinit' k hk
    · simp [List.mem_singleton.mp hk, h.buf]
  · simp only [hsize, List.length_append, hlen, List.length_singleton]
    push_cast
    ring
  · simp only [hext, List.length_append, hlen, List.length_singleton]
    push_cast
    ring
  · simp only [h.totaly, CInt.int_int_add, hsize, List.length_append, hlen, List.length_singleton,
      hcap']
    push_cast
    ring_nf
  · simp only [List.length_append, hlen, List.length_singleton]
    omega

theorem wp_storeLast {data : ℤ} {bytes : List UInt8} (hl : l.buf = some b)
    (hnull : data = 0 ∨ b.start = 0 → bytes = [] ∨ E .nullDereference) {Q : List Link → Pool → Prop}
    (hQ : ∀ p', Q (init ++ [⟨l.addr, some (b.store data bytes)⟩]) p') :
    wpStop E (storeLast data bytes (init ++ [l])) Q p := by
  induction init generalizing p Q with
  | nil =>
    simp only [List.nil_append, storeLast, wp_bind, hl, wp_deref_some]
    split
    · next hnil =>
      have hsame : b.store data bytes = b := by simp [NgxBuf.store, hnil]
      simpa [hsame, ← hl] using hQ p
    · next hnil =>
      split
      · next hdata => exact (hnull hdata).resolve_left hnil
      · exact hQ _
  | cons k ks ih =>
    obtain ⟨k', ks', hks⟩ := List.exists_cons_of_ne_nil (show ks ++ [l] ≠ [] by simp)
    rw [List.cons_append, hks]
    simp only [storeLast, wp_bind]
    rw [← hks]
    exact ih fun p' => hQ p'

/-- Copying `bytes` to the front of the region in hand. -/
theorem Driven.wp_storeLast (h : Driven E G init l b w buffer written) {bytes : List UInt8}
    (hfit : bytes.length ≤ buffer.size) :
    wpStop E (storeLast buffer.data bytes w.chain) (fun chain _ => ∃ l' b',
      Driven E G init l' b' { w with chain := chain }
        ⟨buffer.data + bytes.length, buffer.size - bytes.length⟩ (written ++ bytes)) p := by
  have hnonneg := h.size_nonneg
  have hle := h.size_le
  have hdata := h.data
  have hend := h.end_
  have hcontent := h.content
  have hoff : (buffer.data - b.start).toNat = b.mem.length - buffer.size.toNat := by omega
  have hnull : buffer.data = 0 ∨ b.start = 0 → bytes = [] ∨ E .nullDereference := by
    intro hzero
    obtain hstart | hnull := h.start
    · refine Or.inl (List.eq_nil_of_length_eq_zero ?_)
      omega
    · exact Or.inr hnull
  rw [h.chain]
  refine NgxShmChainBufferWriter.wp_storeLast h.buf hnull fun p' => ?_
  refine ⟨⟨l.addr, some (b.store buffer.data bytes)⟩, b.store buffer.data bytes, ?_⟩
  have hk : b.mem.length - buffer.size.toNat ≤ b.mem.length := Nat.sub_le _ _
  have hrest : b.mem.length - (buffer.size - bytes.length).toNat =
      b.mem.length - buffer.size.toNat + bytes.length := by omega
  have hfront : (b.mem.take (b.mem.length - buffer.size.toNat) ++ bytes).length =
      b.mem.length - buffer.size.toNat + bytes.length := by
    rw [List.length_append, List.length_take_of_le hk]
  have hlen : (b.store buffer.data bytes).mem.length = b.mem.length := by
    simp only [NgxBuf.store, hoff, List.length_append, List.length_take, List.length_drop]
    omega
  refine ⟨rfl, rfl, h.init_buf, h.pos, h.last, ?_, h.start, ?_, ?_, ?_, ?_, ?_, h.extends_, ?_,
    h.totaly⟩
  · rw [hlen]
    exact hend
  · simp only [NgxBuf.store]
    omega
  · simp only
    omega
  · simp only [hlen]
    omega
  · rw [hlen, hrest, ← hcontent]
    simp only [NgxBuf.store, hoff]
    rw [List.take_left' hfront, List.append_assoc]
  · intro x hx
    rw [hlen, hrest] at hx
    simp only [NgxBuf.store, hoff] at hx
    rw [List.drop_left' hfront, ← List.drop_drop] at hx
    exact h.stale x (List.mem_of_mem_drop hx)
  · have htotal := h.total
    simp only [List.length_append]
    push_cast
    omega

/-- Writing `bytes` extends what was written by them, and calls `Next` only when the
capacity is used up. -/
theorem Driven.wp_writeRaw (h : Driven E G init l b w buffer written)
    (hroom : S.Unlimited ∨ E .nullDereference ∧ G 0) (hstale : ∀ p n, ∀ x ∈ S.stale p n, G x)
    (bytes : List UInt8) (hbound : written.length + bytes.length < 2 ^ 31) :
    wpStop E (writeRaw S w buffer bytes) (fun r _ => ∃ init' l' b',
      Driven E G init' l' b' r.1 r.2 (written ++ bytes) ∧ (init'.length = init.length ∨
        capacity init'.length < written.length + bytes.length)) p := by
  induction w, buffer, bytes using writeRaw.induct generalizing p init l b written with
  | case1 w buffer bytes hfit =>
    rw [writeRaw, if_pos hfit]
    simp only [wp_bind]
    refine wp_mono ?_ (h.wp_storeLast hfit)
    rintro chain p' ⟨l', b', hd⟩
    rw [wp_pure]
    exact ⟨init, l', b', hd, Or.inl rfl⟩
  | case2 w buffer bytes hfit hnonneg ih =>
    have htotal := h.total
    rw [writeRaw, if_neg hfit, if_pos hnonneg]
    simp only [wp_bind]
    have hlen : ((bytes.take buffer.size.toNat).length : ℤ) = buffer.size := by
      rw [List.length_take]
      omega
    refine wp_mono ?_ (h.wp_storeLast (le_of_eq hlen))
    rintro chain p' ⟨l', b', hd⟩
    have hcap : capacity (init.length + 1) < written.length + bytes.length := by omega
    -- fewer than `2 ^ 31` bytes never need `2 ^ 18` regions, so no size overflows
    have hn : init.length < 2 ^ 18 := by
      by_contra hge
      have hmono := capacity_mono (show 2 ^ 18 ≤ init.length + 1 by omega)
      have hbig : capacity (2 ^ 18) = 2 ^ 29 * (2 ^ 18 + 1) := by decide
      omega
    have hfull : (⟨buffer.data + (bytes.take buffer.size.toNat).length,
        buffer.size - (bytes.take buffer.size.toNat).length⟩ : Region).size = 0 := by
      simp only
      omega
    rw [wp_bind]
    refine wp_mono ?_ (hd.wp_next hfull hn hroom hstale)
    rintro ⟨w', buffer'⟩ p₂ ⟨hpos, init', l'', b'', hlen', hd'⟩
    have htake : (bytes.take buffer.size.toNat).length +
        (bytes.drop buffer.size.toNat).length = bytes.length := by
      rw [← List.length_append, List.take_append_drop]
    simp only at hpos hd'
    simp only [hpos, if_true]
    refine wp_mono ?_ (ih w' buffer' hpos hd' (by rw [List.length_append]; omega))
    rintro ⟨w'', buffer''⟩ p₃ ⟨init'', l₂, b₂, hd'', hcase⟩
    rw [List.append_assoc, List.take_append_drop] at hd''
    refine ⟨init'', l₂, b₂, hd'', Or.inr ?_⟩
    obtain hsame | hlt := hcase
    · rwa [hsame, hlen']
    · rw [List.length_append] at hlt
      omega
  | case3 w buffer bytes hfit hneg => exact absurd h.size_nonneg hneg

/-! ## The end of the message -/

/-- `BackUp` trims the right buffer when there is only one region. -/
theorem Driven.wp_backUp_one (h : Driven E G [] l b w buffer written) :
    wpStop E (w.backUp buffer.size) (fun w' _ =>
      NgxRpc.content w'.chain = written ∧ w'.totaly = written.length) p := by
  have hpos := h.pos
  have hlast := h.last
  have hend := h.end_
  have hle := h.size_le
  have hnonneg := h.size_nonneg
  have htotal := h.total
  have hcap : capacity (([] : List Link).length + 1) = 4096 := rfl
  have htotaly : CInt.int (w.totaly - buffer.size) = written.length := by
    rw [hcap] at htotal
    rw [h.totaly, hcap, CInt.int_int_sub, CInt.int_of_range] <;> omega
  have hcontent := h.content
  simp only [backUp, h.chain, List.nil_append, h.buf, wp_bind, wp_access, wp_deref_some, wp_assert,
    htotaly]
  rw [if_pos (by simp only [decide_eq_true_eq]; omega), if_pos (by simp), wp_pure]
  refine ⟨?_, rfl⟩
  have hlen : (b.last - buffer.size - b.start).toNat = b.mem.length - buffer.size.toNat := by
    omega
  simpa [Link.content, NgxBuf.content, NgxBuf.at_, hlen, hpos] using hcontent

/-- With several regions it trims the first one: the last byte of the chain is one
that was never written. -/
theorem Driven.wp_backUp_many (h : Driven E G init l b w buffer written) (hinit : init ≠ [])
    (hsize : 0 < buffer.size) (hassert : E .assertion) :
    wpStop E (w.backUp buffer.size) (fun w' _ => ∃ x, G x ∧
      (NgxRpc.content w'.chain).getLast? = some x) p := by
  obtain ⟨k, ks, rfl⟩ := List.exists_cons_of_ne_nil hinit
  obtain ⟨c, hc⟩ := Option.isSome_iff_exists.mp (h.init_buf k (by simp))
  -- the unwritten tail of the last region is not empty and is not trimmed
  have hne : b.mem.drop (b.mem.length - buffer.size.toNat) ≠ [] := by
    have hle := h.size_le
    intro hnil
    have hlen := congrArg List.length hnil
    simp only [List.length_drop, List.length_nil] at hlen
    omega
  have hlast : l.content = b.mem.take (b.mem.length - buffer.size.toNat) ++
      b.mem.drop (b.mem.length - buffer.size.toNat) := by
    rw [h.content_last, List.take_append_drop]
  simp only [backUp, h.chain, List.cons_append, hc, wp_bind, wp_access, wp_deref_some, wp_assert,
    wp_pure]
  split
  · split
    · refine ⟨_, h.stale _ (List.getLast_mem hne), ?_⟩
      simp only [content_cons, content_append, content_nil, List.append_nil, hlast]
      simp only [← List.append_assoc]
      rw [List.getLast?_append, List.getLast?_eq_some_getLast hne, Option.some_or]
    · exact hassert
  · exact hassert

end Spec

section Outcome

variable {S : Slab} {E : Stop → Prop} {G : UInt8 → Prop} {p : Pool} {bytes : List UInt8}

/-- The lengths after which `BackUp` has nothing to trim, or trims the right buffer. -/
def Fits (n : ℕ) : Prop := n ≤ 4096 ∨ ∃ k, n = capacity k

/-- The state before the destructor of `CodedOutputStream`. -/
theorem wp_serialize (hroom : S.Unlimited ∨ E .nullDereference ∧ G 0)
    (hstale : ∀ p n, ∀ x ∈ S.stale p n, G x) (ch : ℤ) (hlen : bytes.length < 2 ^ 31)
    {Q : NgxShmChainBufferWriter → Pool → Prop}
    (hQ : ∀ init l b w buffer p', Driven E G init l b w buffer bytes →
      init.length = 0 ∨ capacity init.length < bytes.length →
      wpStop E (if 0 < buffer.size then w.backUp buffer.size else pure w) Q p') :
    wpStop E (serializeToZeroCopyStream S (new ch 1) bytes) Q p := by
  simp only [serializeToZeroCopyStream, wp_bind]
  refine wp_mono ?_ (wp_next_new hroom hstale ch)
  rintro ⟨w, buffer⟩ p' ⟨l, b, hd⟩
  simp only [wp_bind]
  refine wp_mono ?_ (hd.wp_writeRaw hroom hstale bytes (by simpa using hlen))
  rintro ⟨w', buffer'⟩ p₂ ⟨init, l', b', hd', hcase⟩
  rw [List.nil_append] at hd'
  exact hQ init l' b' w' buffer' p₂ hd' (by simpa using hcase)

/-- A message whose length fits is written right. -/
theorem wp_serialize_fits (hroom : S.Unlimited ∨ E .nullDereference ∧ G 0)
    (hstale : ∀ p n, ∀ x ∈ S.stale p n, G x) (ch : ℤ) (hlen : bytes.length < 2 ^ 31)
    (hfits : Fits bytes.length) :
    wpStop E (serializeToZeroCopyStream S (new ch 1) bytes) (fun w _ =>
      NgxRpc.content w.chain = bytes ∧ w.totaly = bytes.length) p := by
  refine wp_serialize hroom hstale ch hlen fun init l b w buffer p' hd hcase => ?_
  have htotal := hd.total
  have hnonneg := hd.size_nonneg
  split
  · next hsize =>
    -- with several regions the length would lie strictly between two capacities
    have hone : init = [] := by
      apply List.eq_nil_of_length_eq_zero
      obtain hzero | hlt := hcase
      · exact hzero
      · by_contra hpos
        have hcap := capacity_mono (show 1 ≤ init.length by omega)
        have h1 : capacity 1 = 4096 := rfl
        obtain hle | ⟨k, hk⟩ := hfits
        · omega
        · obtain hlt' | hge := Nat.lt_or_ge init.length k
          · have hmono := capacity_mono (show init.length + 1 ≤ k from hlt')
            omega
          · have hmono := capacity_mono hge
            omega
    subst hone
    exact hd.wp_backUp_one
  · have hzero : buffer.size = 0 := by omega
    have hcontent := hd.content
    rw [hzero, Int.toNat_zero, Nat.sub_zero, List.take_length, ← hd.content_last] at hcontent
    simp only [wp_pure]
    refine ⟨by simpa [hd.chain] using hcontent, ?_⟩
    rw [hd.totaly, CInt.int_of_range] <;> omega

/-- Any other message is not: the last byte of the chain was never written. -/
theorem wp_serialize_misfits (hroom : S.Unlimited ∨ E .nullDereference ∧ G 0)
    (hstale : ∀ p n, ∀ x ∈ S.stale p n, G x) (hassert : E .assertion) (ch : ℤ)
    (hlen : bytes.length < 2 ^ 31) (hfits : ¬Fits bytes.length) :
    wpStop E (serializeToZeroCopyStream S (new ch 1) bytes) (fun w _ =>
      ∃ x, G x ∧ (NgxRpc.content w.chain).getLast? = some x) p := by
  refine wp_serialize hroom hstale ch hlen fun init l b w buffer p' hd hcase => ?_
  have htotal := hd.total
  have hnonneg := hd.size_nonneg
  have hsize : 0 < buffer.size := by
    by_contra hle
    exact hfits (Or.inr ⟨init.length + 1, by omega⟩)
  have hinit : init ≠ [] := by
    rintro rfl
    have h1 : capacity (([] : List Link).length + 1) = 4096 := rfl
    exact hfits (Or.inl (by omega))
  rw [if_pos hsize]
  exact hd.wp_backUp_many hinit hsize hassert

end Outcome

/-! ## Messages of any length -/

/-- The writer can go on, whatever the regions hold and however long they are. -/
structure Writable (E : Stop → Prop) (w : NgxShmChainBufferWriter) (buffer : Region) : Prop where
  chain : ∃ init l b, w.chain = init ++ [l] ∧ l.buf = some b ∧ b.last = b.end_ ∧
    (0 < b.start ∨ E .nullDereference) ∧ ∀ k ∈ init, k.buf.isSome
  data : 0 < buffer.data ∨ E .nullDereference

section Totaly

variable {S : Slab} {E : Stop → Prop} {p : Pool} {w : NgxShmChainBufferWriter} {buffer : Region}

theorem wp_next_new_totaly (hroom : S.Unlimited ∨ E .nullDereference ∧ True) (ch : ℤ) :
    wpStop E (next S (new ch 1)) (fun r _ => Writable E r.1 r.2 ∧
      r.1.totaly = CInt.int r.2.size) p := by
  simp only [next, new, nextFrom, wp_bind, wp_access]
  refine wp_newBuf hroom (fun _ _ _ _ => trivial) fun b p' hb hstart => ?_
  simp only [wp_pure, Int.zero_add, and_true]
  exact ⟨⟨[], _, b, rfl, rfl, hb.last, hstart, by simp⟩, hstart⟩

theorem Writable.wp_next (h : Writable E w buffer)
    (hroom : S.Unlimited ∨ E .nullDereference ∧ True) :
    wpStop E (next S w) (fun r _ => Writable E r.1 r.2 ∧
      r.1.totaly = CInt.int (w.totaly + r.2.size)) p := by
  obtain ⟨init, l, b, hchain, hl, hlast, -, hinit⟩ := h.chain
  simp only [next, hchain, wp_bind]
  apply wp_nextFrom hroom (fun _ _ _ _ => trivial) hl hlast hinit
  rintro init' l' b' p' ⟨-, -⟩ hinit' hl' hb' hstart
  simp only [wp_pure, and_true]
  refine ⟨⟨init' ++ [l], l', b', by simp, hl', hb'.last, hstart, ?_⟩, hstart⟩
  intro k hk
  obtain hk | hk := List.mem_append.mp hk
  · exact hinit' k hk
  · simp [List.mem_singleton.mp hk, hl]

theorem Writable.wp_storeLast (h : Writable E w buffer) (bytes : List UInt8) :
    wpStop E (storeLast buffer.data bytes w.chain) (fun chain _ =>
      Writable E { w with chain := chain } ⟨buffer.data + bytes.length,
        buffer.size - bytes.length⟩) p := by
  obtain ⟨init, l, b, hchain, hl, hlast, hstart, hinit⟩ := h.chain
  rw [hchain]
  refine NgxShmChainBufferWriter.wp_storeLast hl (fun hzero => ?_) fun p' => ?_
  · obtain hdata | hnull := h.data
    · obtain hstart | hnull := hstart
      · omega
      · exact Or.inr hnull
    · exact Or.inr hnull
  · refine ⟨⟨init, _, _, rfl, rfl, hlast, hstart, hinit⟩, ?_⟩
    obtain hdata | hnull := h.data
    · exact Or.inl (by simp only; omega)
    · exact Or.inr hnull

/-- `totaly` counts the written bytes and the rest of the region in hand. -/
theorem Writable.wp_writeRaw {k : ℤ} (h : Writable E w buffer)
    (htotaly : w.totaly = CInt.int (k + buffer.size))
    (hroom : S.Unlimited ∨ E .nullDereference ∧ True) (hcopy : E .badCopy)
    (bytes : List UInt8) :
    wpStop E (writeRaw S w buffer bytes) (fun r _ => Writable E r.1 r.2 ∧ 0 ≤ r.2.size ∧
      r.1.totaly = CInt.int (k + bytes.length + r.2.size)) p := by
  induction w, buffer, bytes using writeRaw.induct generalizing p k with
  | case1 w buffer bytes hfit =>
    rw [writeRaw, if_pos hfit]
    simp only [wp_bind]
    refine wp_mono (fun chain p' hw => ?_) (h.wp_storeLast bytes)
    rw [wp_pure]
    refine ⟨hw, by simp only; omega, ?_⟩
    simp only [htotaly]
    congr 1
    omega
  | case2 w buffer bytes hfit hnonneg ih =>
    rw [writeRaw, if_neg hfit, if_pos hnonneg]
    simp only [wp_bind]
    have hlen : ((bytes.take buffer.size.toNat).length : ℤ) = buffer.size := by
      rw [List.length_take]
      omega
    have hdrop : ((bytes.drop buffer.size.toNat).length : ℤ) = bytes.length - buffer.size := by
      rw [List.length_drop]
      omega
    refine wp_mono (fun chain p' hw => ?_) (h.wp_storeLast _)
    rw [wp_bind]
    refine wp_mono ?_ (hw.wp_next hroom)
    rintro ⟨w', buffer'⟩ p₂ ⟨hw', htotaly'⟩
    simp only at hw' htotaly' ⊢
    split
    · next hpos =>
      have hk : w'.totaly = CInt.int (k + buffer.size + buffer'.size) := by
        rw [htotaly', htotaly, CInt.int_int_add]
      refine wp_mono ?_ (ih w' buffer' hpos hw' hk)
      rintro r p₃ ⟨hr, hrest, hrt⟩
      refine ⟨hr, hrest, ?_⟩
      rw [hrt, hdrop]
      congr 1
      omega
    · exact hcopy
  | case3 w buffer bytes hfit hneg =>
    rw [writeRaw, if_neg hfit, if_neg hneg]
    exact hcopy

theorem Writable.wp_backUp (h : Writable E w buffer) (hassert : E .assertion) (count : ℤ) :
    wpStop E (w.backUp count) (fun w' _ => w'.totaly = CInt.int (w.totaly - count)) p := by
  obtain ⟨init, l, b, hchain, hl, -, -, hinit⟩ := h.chain
  have hhead : ∃ k ks c, w.chain = k :: ks ∧ k.buf = some c := by
    cases init with
    | nil => exact ⟨l, [], b, hchain, hl⟩
    | cons k ks =>
      obtain ⟨c, hc⟩ := Option.isSome_iff_exists.mp (hinit k (by simp))
      exact ⟨k, ks ++ [l], c, hchain, hc⟩
  obtain ⟨k, ks, c, hk, hc⟩ := hhead
  simp only [backUp, hk, hc, wp_bind, wp_access, wp_deref_some, wp_assert, wp_pure]
  split
  · split
    · trivial
    · exact hassert
  · exact hassert

/-- After the message `totaly` is its length, as an `int`. -/
theorem wp_serialize_totaly (hroom : S.Unlimited ∨ E .nullDereference) (hcopy : E .badCopy)
    (hassert : E .assertion) (ch : ℤ) (bytes : List UInt8) :
    wpStop E (serializeToZeroCopyStream S (new ch 1) bytes) (fun w _ =>
      w.totaly = CInt.int bytes.length) p := by
  have hroom' : S.Unlimited ∨ E .nullDereference ∧ True := hroom.imp_right fun h => ⟨h, trivial⟩
  simp only [serializeToZeroCopyStream, wp_bind]
  refine wp_mono ?_ (wp_next_new_totaly hroom' ch)
  rintro ⟨w, buffer⟩ p' ⟨hw, htotaly⟩
  have hzero : w.totaly = CInt.int (0 + buffer.size) := by simpa using htotaly
  simp only [wp_bind]
  refine wp_mono ?_ (hw.wp_writeRaw hzero hroom' hcopy bytes)
  rintro ⟨w', buffer'⟩ p₂ ⟨hw', hrest, htotaly'⟩
  rw [Int.zero_add] at htotaly'
  simp only at hw' hrest htotaly' ⊢
  split
  · refine wp_mono (fun w₂ p₃ h₂ => ?_) (hw'.wp_backUp hassert buffer'.size)
    rw [h₂, htotaly', CInt.int_int_sub, Int.add_sub_cancel]
  · next hsize =>
    have hnone : buffer'.size = 0 := by omega
    rw [wp_pure, htotaly', hnone, Int.add_zero]

end Totaly

end NgxShmChainBufferWriter

end NgxRpc
