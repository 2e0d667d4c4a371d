import NgxRpc.OutputStream
import NgxRpc.Foundation.Runs

/-!
# NgxChainBufferWriter

The writer for memory of an nginx pool. Its `chain` pointer moves: it always points to the
last link, and `BackUp` trims that one. A `Next` after a `BackUp` resumes the free end of the
last buffer, and sets `pos` to where it resumes, so the bytes kept before are lost.

## Main definitions

- `NgxChainBufferWriter`, `next`, `backUp` — the writer
- `Writing` — the invariant of a writer that has lost nothing

## Main results

- `runs_faithful` — every run that resumes no partly kept buffer and stays below `2 ^ 31` bytes
  is faithful
- `Writing.not_faithful_next` — every other `Next` makes it unfaithful
-/

namespace NgxRpc
open SlabPool Transition

/-- `NgxChainBufferWriter`: the links `chain` has moved over, the one it points to, `totaly`
and `extends`. -/
structure NgxChainBufferWriter where
  passed : List Link
  chain : Link
  totaly : ℤ
  extends_ : ℤ
deriving DecidableEq

namespace NgxChainBufferWriter

/-- `default_size`. -/
def defaultSize : ℤ := 4096

/-- The constructor, for a chain whose first link is at address `ch`. -/
def new (ch : ℤ) (ex : ℤ) : NgxChainBufferWriter := ⟨[], ⟨ch, none⟩, 0, ex⟩

/-- The size of the next region that is allocated, before the conversion to `int`. -/
def regionBytes (extends_ : ℤ) : ℤ := CInt.unsigned (defaultSize * extends_)

/-- The branch of `Next` that allocates a new buffer for link `chain`. The buffer is cleared
with `memset` before its fields are set. -/
def newBuf (S : Slab) (chain : Link) (extends_ : ℤ) : SlabM (Link × Region × ℤ) := do
  let size := CInt.int (regionBytes extends_)
  let (b, _) ← deref (← alloc S sizeofBuf)
  let start ← alloc S (size % 2 ^ 64).toNat
  let (start, mem) := start.getD (0, List.replicate size.toNat 0)
  pure ({ chain with buf := some {
    addr := b
    start := start
    pos := start
    last := start + size
    end_ := start + size
    inFile := false
    lastBuf := false
    temporary := false
    memory := true
    mem := mem } }, ⟨start, size⟩, CInt.unsigned (extends_ + 1))

/-- The front of `Next`: when the last buffer is full, `chain` moves on to a new link. -/
def nextLink (S : Slab) (w : NgxChainBufferWriter) : SlabM (List Link × Link) :=
  match w.chain.buf with
  | none => pure (w.passed, w.chain)
  | some b =>
    if b.last = b.end_ then do
      let (next, _) ← deref (← alloc S sizeofChain)
      pure (w.passed ++ [w.chain], ⟨next, none⟩)
    else pure (w.passed, w.chain)

/-- The region that `Next` takes in link `chain`. -/
def region (S : Slab) (chain : Link) (extends_ : ℤ) : SlabM (Link × Region × ℤ) :=
  match chain.buf with
  -- a `BackUp` left the end of the buffer free
  | some b => pure ({ chain with buf := some { b with pos := b.last, last := b.end_ } },
      ⟨b.last, CInt.int (b.end_ - b.last)⟩, extends_)
  | none => newBuf S chain extends_

/-- `Next`. -/
def next (S : Slab) (w : NgxChainBufferWriter) : SlabM (NgxChainBufferWriter × Region) := do
  let (passed, chain) ← nextLink S w
  let (chain, r, ex) ← region S chain w.extends_
  pure (⟨passed, chain, CInt.int (w.totaly + r.size), ex⟩, r)

/-- `BackUp`. -/
def backUp (w : NgxChainBufferWriter) (count : ℤ) : SlabM NgxChainBufferWriter := do
  let totaly := CInt.int (w.totaly - count)
  let b ← deref w.chain.buf
  let b := { b with last := b.last - count }
  assert (decide (b.pos ≤ b.last))
  assert (decide (0 ≤ totaly))
  pure { w with chain := { w.chain with buf := some b }, totaly := totaly }

/-- `ByteCount`. -/
def byteCount (w : NgxChainBufferWriter) : ℤ := w.totaly

/-- The chain from its first link on. -/
def links (w : NgxChainBufferWriter) : List Link := w.passed ++ [w.chain]

/-- The caller copies `bytes` to the front of the region in hand. -/
def store (w : NgxChainBufferWriter) (data : ℤ) (bytes : List UInt8) :
    SlabM NgxChainBufferWriter := do
  let ls ← storeLast data bytes [w.chain]
  let l ← deref ls.head?
  pure { w with chain := l }

/-- The writer as an output stream. -/
def stream (S : Slab) : OutputStream NgxChainBufferWriter :=
  ⟨next S, backUp, byteCount, links, store⟩

/-! ## One call -/

section Spec

variable {S : Slab} {E : Stop → Prop} {p : Pool} {w : NgxChainBufferWriter} {b : NgxBuf}

/-- The buffer of the last link, if there is one, is full. -/
def Full (w : NgxChainBufferWriter) : Prop := ∀ b, w.chain.buf = some b → b.last = b.end_

theorem wp_newBuf (hroom : S.Unlimited) {l : Link} {ex : ℤ} {Q : Link × Region × ℤ → Pool → Prop}
    (hQ : ∀ b p', NgxShmChainBufferWriter.FreshBuf (fun _ => True) (CInt.int (regionBytes ex)) b →
      0 < b.start →
      Q ({ l with buf := some b }, ⟨b.start, CInt.int (regionBytes ex)⟩, CInt.unsigned (ex + 1))
        p') :
    wpStop E (newBuf S l ex) Q p := by
  simp only [newBuf, wp_bind]
  refine wp_alloc (fun hnone => absurd hnone (hroom _ _)) fun a _ _ _ => ?_
  simp only [wp_bind, wp_deref_some]
  refine wp_alloc (fun hnone => absurd hnone (hroom _ _)) fun a' _ _ hpos => ?_
  simp only [wp_pure, Option.getD_some]
  refine hQ _ _ ⟨rfl, rfl, rfl, ?_, fun _ _ => trivial⟩ hpos
  intro hsize
  have hlt := CInt.int_lt (regionBytes ex)
  rw [S.stale_length, Int.emod_eq_of_lt hsize]
  exact Int.lt_trans hlt (by decide)

/-- The links with a buffer, which `chain` has moved over when it points to a new one. -/
def filledLinks (w : NgxChainBufferWriter) : List Link :=
  w.passed ++ if w.chain.buf.isSome then [w.chain] else []

theorem content_filledLinks (w : NgxChainBufferWriter) :
    content w.filledLinks = content w.links := by
  rw [filledLinks, links]
  cases hbuf : w.chain.buf with
  | none => simp [Link.content, hbuf]
  | some b => simp

/-- `Next` when there is no room in the last buffer. -/
theorem wp_next_full (hroom : S.Unlimited) (hfull : Full w)
    {Q : NgxChainBufferWriter × Region → Pool → Prop}
    (hQ : ∀ a b p',
      NgxShmChainBufferWriter.FreshBuf (fun _ => True) (CInt.int (regionBytes w.extends_)) b →
      0 < b.start →
      Q (⟨w.filledLinks, ⟨a, some b⟩, CInt.int (w.totaly + CInt.int (regionBytes w.extends_)),
        CInt.unsigned (w.extends_ + 1)⟩, ⟨b.start, CInt.int (regionBytes w.extends_)⟩) p') :
    wpStop E (next S w) Q p := by
  rw [filledLinks] at hQ
  simp only [next, wp_bind]
  cases hbuf : w.chain.buf with
  | none =>
    simp only [nextLink, hbuf, wp_pure, region, wp_bind]
    refine wp_newBuf hroom fun b p' hb hpos => ?_
    simpa [hbuf] using hQ w.chain.addr b p' hb hpos
  | some b =>
    simp only [nextLink, hbuf, hfull b hbuf, if_true, wp_bind]
    refine wp_alloc (fun hnone => absurd hnone (hroom _ _)) fun a _ _ _ => ?_
    simp only [wp_bind, wp_deref_some, wp_pure, region]
    refine wp_newBuf hroom fun b p' hb hpos => ?_
    simpa [hbuf] using hQ a b p' hb hpos

/-- `Next` when a `BackUp` left room. -/
theorem wp_next_rest (hbuf : w.chain.buf = some b) (hb : b.last ≠ b.end_)
    {Q : NgxChainBufferWriter × Region → Pool → Prop} :
    wpStop E (next S w) Q p ↔
      Q (⟨w.passed, ⟨w.chain.addr, some { b with pos := b.last, last := b.end_ }⟩,
        CInt.int (w.totaly + CInt.int (b.end_ - b.last)), w.extends_⟩,
        ⟨b.last, CInt.int (b.end_ - b.last)⟩) p := by
  simp only [next, wp_bind, nextLink, hbuf, hb, if_false, wp_pure, region]

/-- The copy of the caller. -/
theorem wp_store (hbuf : w.chain.buf = some b) (hstart : 0 < b.start) {data : ℤ}
    (hdata : b.start ≤ data) {bytes : List UInt8} {Q : NgxChainBufferWriter → Pool → Prop}
    (hQ : ∀ p', Q { w with chain := ⟨w.chain.addr, some (b.store data bytes)⟩ } p') :
    wpStop E (w.store data bytes) Q p := by
  simp only [store, wp_bind]
  show wpStop E (storeLast data bytes ([] ++ [w.chain])) _ p
  apply NgxShmChainBufferWriter.wp_storeLast hbuf
  · intro hzero
    omega
  · intro p'
    simp only [List.nil_append, List.head?_cons, wp_bind, wp_deref_some, wp_pure]
    exact hQ p'

/-- `Next` and the copy, when there is no room in the last buffer. -/
theorem wp_fillNext_full (hroom : S.Unlimited) (hfull : Full w) (fill : ℕ → UInt8)
    {Q : NgxChainBufferWriter × Region → Pool → Prop}
    (hQ : ∀ a b p',
      NgxShmChainBufferWriter.FreshBuf (fun _ => True) (CInt.int (regionBytes w.extends_)) b →
      0 < b.start →
      Q (⟨w.filledLinks,
        ⟨a, some (b.store b.start (filled (CInt.int (regionBytes w.extends_)) fill))⟩,
        CInt.int (w.totaly + CInt.int (regionBytes w.extends_)), CInt.unsigned (w.extends_ + 1)⟩,
        ⟨b.start, CInt.int (regionBytes w.extends_)⟩) p') :
    wpStop E ((stream S).fillNext w fill) Q p := by
  simp only [OutputStream.fillNext, wp_bind]
  apply wp_next_full hroom hfull
  intro a b p' hb hstart
  simp only [stream, wp_bind]
  refine wp_store rfl hstart le_rfl fun p₂ => ?_
  rw [wp_pure]
  exact hQ a b p₂ hb hstart

/-- `Next` and the copy, when a `BackUp` left room. -/
theorem wp_fillNext_rest (hbuf : w.chain.buf = some b) (hb : b.last ≠ b.end_)
    (hstart : 0 < b.start) (hle : b.start ≤ b.last) (fill : ℕ → UInt8)
    {Q : NgxChainBufferWriter × Region → Pool → Prop}
    (hQ : ∀ p', Q (⟨w.passed, ⟨w.chain.addr, some (NgxBuf.store
        { b with pos := b.last, last := b.end_ } b.last
          (filled (CInt.int (b.end_ - b.last)) fill))⟩,
        CInt.int (w.totaly + CInt.int (b.end_ - b.last)), w.extends_⟩,
        ⟨b.last, CInt.int (b.end_ - b.last)⟩) p') :
    wpStop E ((stream S).fillNext w fill) Q p := by
  simp only [OutputStream.fillNext, wp_bind]
  refine (wp_next_rest hbuf hb).mpr ?_
  simp only [stream, wp_bind]
  refine wp_store (b := { b with pos := b.last, last := b.end_ }) rfl hstart hle fun p' => ?_
  rw [wp_pure]
  exact hQ p'

end Spec

/-! ## Runs -/

/-- The size of the region that the next `Next` should return. -/
def room (w : NgxChainBufferWriter) : ℤ :=
  match w.chain.buf with
  | none => regionBytes w.extends_
  | some b => if b.last = b.end_ then regionBytes w.extends_ else b.end_ - b.last

theorem room_of_full {w : NgxChainBufferWriter} (hfull : Full w) :
    room w = regionBytes w.extends_ := by
  rw [room]
  split
  · rfl
  · next c hc => rw [if_pos (hfull c hc)]

theorem room_of_rest {w : NgxChainBufferWriter} {b : NgxBuf} (hbuf : w.chain.buf = some b)
    (hrest : b.last ≠ b.end_) : room w = b.end_ - b.last := by
  simp only [room, hbuf, if_neg hrest]

/-- The buffer `b` of the last link, which holds bytes from its `start` on. -/
structure Tail (b : NgxBuf) (inHand : Option ℤ) : Prop where
  start : 0 < b.start
  pos : b.pos = b.start
  pos_le : b.pos ≤ b.last
  last_le : b.last ≤ b.end_
  end_ : b.end_ = b.start + b.mem.length
  length : b.mem.length < 2 ^ 31
  /-- a region in hand is the whole buffer -/
  inHand : ∀ size ∈ inHand, b.last = b.end_ ∧ size = b.mem.length

/-- The chain of the writer holds all that was kept, and no buffer was resumed before it was
empty again. -/
structure Writing (s : Session NgxChainBufferWriter) : Prop where
  content : content s.writer.links = s.kept
  totaly : s.writer.totaly = s.kept.length
  small : s.kept.length < 2 ^ 31
  tail : ∀ b, s.writer.chain.buf = some b → Tail b s.inHand
  inHand : s.writer.chain.buf = none → s.inHand = none

theorem Writing.faithful {S : Slab} {s : Session NgxChainBufferWriter} (h : Writing s) :
    (stream S).Faithful (.ok s) :=
  ⟨h.content, h.totaly⟩

theorem start_writing (ch ex : ℤ) (pool : Pool) :
    Writing ⟨new ch ex, pool, none, []⟩ :=
  ⟨rfl, rfl, by simp, by simp [new], fun _ => rfl⟩

/-- `Next` may be called: the last buffer is not partly kept, and the bytes up to the end of
the next region can be counted. -/
structure Fits (s : Session NgxChainBufferWriter) : Prop where
  whole : ∀ b, s.writer.chain.buf = some b → b.last = b.end_ ∨ b.last = b.pos
  room : s.kept.length + room s.writer < 2 ^ 31

instance (s : Session NgxChainBufferWriter) : Decidable (Fits s) :=
  decidable_of_iff ((∀ b ∈ s.writer.chain.buf, b.last = b.end_ ∨ b.last = b.pos) ∧
      s.kept.length + room s.writer < 2 ^ 31)
    ⟨fun h => ⟨h.1, h.2⟩, fun h => ⟨h.whole, h.room⟩⟩

section Step

variable {S : Slab} {s : Session NgxChainBufferWriter} {b : NgxBuf}

theorem content_links (w : NgxChainBufferWriter) :
    NgxRpc.content w.links = NgxRpc.content w.passed ++ w.chain.content := by
  simp [links]

/-- The state after a `Next` that got the whole of a buffer with nothing in it. -/
theorem writing_filled {passed : List Link} {a totaly ex size : ℤ} {pool : Pool}
    {kept bytes : List UInt8} (hcontent : NgxRpc.content passed = kept)
    (hstart : 0 < b.start) (hpos : b.pos = b.start) (hlast : b.last = b.end_)
    (hend : b.end_ = b.start + size) (hsize : 0 ≤ size) (hmem : b.mem.length = size.toNat)
    (hbytes : bytes.length = size.toNat) (hsmall : kept.length + size < 2 ^ 31)
    (htotaly : totaly = kept.length + size) :
    Writing ⟨⟨passed, ⟨a, some (b.store b.pos bytes)⟩, totaly, ex⟩, pool, some size,
      kept ++ bytes⟩ := by
  have hlen : (b.store b.pos bytes).mem.length = size.toNat := by
    simp [NgxBuf.store, hpos, hmem, hbytes]
  have hstored : (b.store b.pos bytes).content = bytes :=
    NgxBuf.content_store (by omega) (by omega)
  refine ⟨?_, ?_, ?_, ?_, by simp⟩
  · simp [content_links, hcontent, Link.content, hstored]
  · simp only [List.length_append]
    omega
  · simp only [List.length_append]
    omega
  · intro c hc
    obtain rfl : b.store b.pos bytes = c := Option.some.inj hc
    refine ⟨hstart, hpos, ?_, ?_, ?_, by omega, ?_⟩
    · show b.pos ≤ b.last
      omega
    · show b.last ≤ b.end_
      omega
    · show b.end_ = b.start + _
      omega
    · intro n hn
      obtain rfl : size = n := by simpa using hn
      exact ⟨hlast, by omega⟩

/-- A call of `Next` that fits and allocates a buffer. -/
theorem Writing.next_full (h : Writing s) (hroom : S.Unlimited) (hfits : Fits s)
    (hfull : Full s.writer) (fill : ℕ → UInt8) :
    ∃ s', (stream S).sessionNext s fill = .ok s' ∧ Writing s' := by
  refine (outcome_iff fun r => ∃ s', r = .ok s' ∧ Writing s').mpr ?_
  have hsmall := hfits.room
  rw [room_of_full hfull] at hsmall
  have hnonneg : 0 ≤ regionBytes s.writer.extends_ := Int.emod_nonneg _ (by decide)
  have hint : CInt.int (regionBytes s.writer.extends_) = regionBytes s.writer.extends_ :=
    CInt.int_of_range (by omega) (by omega)
  apply wp_fillNext_full hroom hfull
  intro a c p' hc hstart
  refine ⟨_, rfl, ?_⟩
  rw [hint] at hc ⊢
  have hpos : c.start = c.pos := hc.pos.symm
  conv in c.store c.start _ => rw [hpos]
  apply writing_filled ((content_filledLinks _).trans h.content) hstart hc.pos hc.last hc.end_
    hnonneg
  · exact hc.length hnonneg
  · simp
  · omega
  · rw [h.totaly]
    exact CInt.int_of_range (by omega) (by omega)

/-- A call of `Next` that fits and resumes a buffer: the whole of it was given back. -/
theorem Writing.next_rest (h : Writing s) (hfits : Fits s) (hbuf : s.writer.chain.buf = some b)
    (hrest : b.last ≠ b.end_) (fill : ℕ → UInt8) :
    ∃ s', (stream S).sessionNext s fill = .ok s' ∧ Writing s' := by
  refine (outcome_iff fun r => ∃ s', r = .ok s' ∧ Writing s').mpr ?_
  have hsmall := hfits.room
  rw [room_of_rest hbuf hrest] at hsmall
  have htail := h.tail b hbuf
  have hlast : b.last = b.pos := (hfits.whole b hbuf).resolve_left hrest
  have hend := htail.end_
  have hpos := htail.pos
  have hint : CInt.int (b.end_ - b.last) = b.end_ - b.last := by
    have hlen := htail.length
    exact CInt.int_of_range (by omega) (by omega)
  have hcontent : NgxRpc.content s.writer.passed = s.kept := by
    have hnil : b.content = [] := NgxBuf.content_eq_nil hlast.symm
    rw [← h.content, content_links, Link.content, hbuf, Option.elim, hnil, List.append_nil]
  refine wp_fillNext_rest hbuf hrest htail.start (by omega) fill fun p' => ?_
  refine ⟨_, rfl, ?_⟩
  rw [hint]
  simp only
  apply writing_filled (b := { b with pos := b.last, last := b.end_ }) hcontent htail.start
  · show b.last = b.start
    omega
  · rfl
  · show b.end_ = b.start + (b.end_ - b.last)
    omega
  · omega
  · show b.mem.length = (b.end_ - b.last).toNat
    omega
  · simp
  · omega
  · rw [h.totaly]
    exact CInt.int_of_range (by omega) (by omega)

/-- A call of `Next` that fits. -/
theorem Writing.next (h : Writing s) (hroom : S.Unlimited) (hfits : Fits s) (fill : ℕ → UInt8) :
    ∃ s', (stream S).sessionNext s fill = .ok s' ∧ Writing s' := by
  by_cases hfull : Full s.writer
  · exact h.next_full hroom hfits hfull fill
  · simp only [Full, not_forall] at hfull
    obtain ⟨b, hbuf, hrest⟩ := hfull
    exact h.next_rest hfits hbuf hrest fill

/-- A call of `BackUp`. -/
theorem Writing.backUp (h : Writing s) {count : ℤ} (hmay : OutputStream.MayBackUp s count) :
    ∃ s', (stream S).sessionBackUp s count = .ok s' ∧ Writing s' := by
  refine (outcome_iff fun r => ∃ s', r = .ok s' ∧ Writing s').mpr ?_
  obtain ⟨h0, size, hhand, hle⟩ := hmay
  cases hbuf : s.writer.chain.buf with
  | none => simp [h.inHand hbuf] at hhand
  | some b =>
    have htail := h.tail b hbuf
    obtain ⟨hlast, hsize⟩ := htail.inHand size hhand
    have hend := htail.end_
    have hpos := htail.pos
    have htotaly := h.totaly
    have hsmall := h.small
    have hcontent : NgxRpc.content s.writer.passed ++ b.content = s.kept := by
      rw [← h.content, content_links, Link.content, hbuf, Option.elim]
    have hblen : b.content.length = b.mem.length := by
      simp only [NgxBuf.content, NgxBuf.at_, List.length_take, List.length_drop]
      omega
    have hlen : (NgxRpc.content s.writer.passed).length + b.mem.length = s.kept.length := by
      rw [← hcontent, List.length_append, hblen]
    have hint : CInt.int (s.writer.totaly - count) = s.kept.length - count := by
      rw [htotaly]
      exact CInt.int_of_range (by omega) (by omega)
    have hge : b.pos ≤ b.last - count := by omega
    have htot : 0 ≤ (s.kept.length : ℤ) - count := by omega
    simp only [stream, NgxChainBufferWriter.backUp, wp_bind, hbuf, wp_deref_some, wp_assert, hge,
      hint, htot, decide_true, if_true, wp_pure]
    refine ⟨_, rfl, ?_, ?_, ?_, ?_, by simp⟩
    · -- what is given back is the end of the last buffer
      have htake : s.kept.length - count.toNat =
          (NgxRpc.content s.writer.passed).length + (b.mem.length - count.toNat) := by omega
      have hlast' : (b.last - b.pos).toNat = b.mem.length := by omega
      rw [content_links, htake, ← hcontent, List.take_length_add_append]
      simp only [Link.content, Option.elim]
      rw [NgxBuf.content_backUp b h0, hlast']
    · simp only [List.length_take]
      omega
    · simp only [List.length_take]
      omega
    · intro c hc
      obtain rfl : { b with last := b.last - count } = c := Option.some.inj hc
      exact ⟨htail.start, hpos, hge, by simp only; omega, hend, htail.length, by simp⟩

/-- The next region is one too many to be counted in an `int`. -/
theorem Writing.not_faithful_full (h : Writing s) (hroom : S.Unlimited) (hfits : ¬Fits s)
    (hfull : Full s.writer) (fill : ℕ → UInt8) :
    ¬(stream S).Faithful ((stream S).sessionNext s fill) := by
  refine (outcome_iff fun r => ¬(stream S).Faithful r).mpr ?_
  have hsmall := h.small
  have hbig : 2 ^ 31 ≤ s.kept.length + regionBytes s.writer.extends_ := by
    by_contra hlt
    have hroomsize := room_of_full hfull
    exact hfits ⟨fun b hb => Or.inl (hfull b hb), by omega⟩
  have hnonneg : 0 ≤ regionBytes s.writer.extends_ := Int.emod_nonneg _ (by decide)
  have hlt : regionBytes s.writer.extends_ < 2 ^ 32 := Int.emod_lt_of_pos _ (by decide)
  apply wp_fillNext_full hroom hfull
  intro a c p' _ _ hfaithful
  have hcount := hfaithful.2
  simp only [stream, byteCount, List.length_append, length_filled, h.totaly] at hcount
  by_cases hint : regionBytes s.writer.extends_ < 2 ^ 31
  · rw [CInt.int_of_range (by omega) hint] at hcount
    have := CInt.int_lt (s.kept.length + regionBytes s.writer.extends_)
    omega
  · have hneg := CInt.int_of_ge (x := regionBytes s.writer.extends_) (by omega) hlt
    have hzero : (regionBytes s.writer.extends_ - 2 ^ 32).toNat = 0 := by omega
    rw [hneg, hzero, Nat.add_zero] at hcount
    exact CInt.int_add_ne (by omega) (by omega) hcount

/-- What is kept of the last buffer is no longer between `pos` and `last`. -/
theorem Writing.not_faithful_rest (h : Writing s) (hfits : ¬Fits s)
    (hbuf : s.writer.chain.buf = some b) (hrest : b.last ≠ b.end_) (fill : ℕ → UInt8) :
    ¬(stream S).Faithful ((stream S).sessionNext s fill) := by
  refine (outcome_iff fun r => ¬(stream S).Faithful r).mpr ?_
  have hsmall := h.small
  have htail := h.tail b hbuf
  have hend := htail.end_
  have hpos := htail.pos
  have hpos_le := htail.pos_le
  have hlast_le := htail.last_le
  have hlen := htail.length
  have hcontent : NgxRpc.content s.writer.passed ++ b.content = s.kept := by
    rw [← h.content, content_links, Link.content, hbuf, Option.elim]
  have hblen : (b.content.length : ℤ) = b.last - b.pos := by
    simp only [NgxBuf.content, NgxBuf.at_, List.length_take, List.length_drop]
    omega
  have hkept := congrArg List.length hcontent
  rw [List.length_append] at hkept
  have hint : CInt.int (b.end_ - b.last) = b.end_ - b.last :=
    CInt.int_of_range (by omega) (by omega)
  refine wp_fillNext_rest hbuf hrest htail.start (by omega) fill fun p' hfaithful => ?_
  obtain ⟨hbytes, hcount⟩ := hfaithful
  have hlen' := congrArg List.length hbytes
  simp only [stream] at hlen'
  rw [content_links] at hlen'
  simp only [Link.content, Option.elim, List.length_append, length_filled, hint] at hlen'
  rw [NgxBuf.content_store (b := { b with pos := b.last, last := b.end_ }) (by simp)
    (by simp only; omega)] at hlen'
  simp only [length_filled] at hlen'
  -- so nothing was kept of it, and the count is what does not fit
  have hwhole : b.last = b.pos := by omega
  have hroomsize := room_of_rest hbuf hrest
  refine hfits ⟨fun c hc => ?_, ?_⟩
  · obtain rfl : b = c := Option.some.inj (hbuf.symm.trans hc)
    exact Or.inr hwhole
  · simp only [stream, byteCount, List.length_append, length_filled, h.totaly, hint] at hcount
    have := CInt.int_lt (s.kept.length + (b.end_ - b.last))
    omega

/-- The condition on `Next` cannot be weakened. -/
theorem Writing.not_faithful_next (h : Writing s) (hroom : S.Unlimited) (hfits : ¬Fits s)
    (fill : ℕ → UInt8) : ¬(stream S).Faithful ((stream S).sessionNext s fill) := by
  by_cases hfull : Full s.writer
  · exact h.not_faithful_full hroom hfits hfull fill
  · simp only [Full, not_forall] at hfull
    obtain ⟨b, hbuf, hrest⟩ := hfull
    exact h.not_faithful_rest hfits hbuf hrest fill

end Step

/-- Every call of `Next` fits. -/
def NextFits (s : Except Stop (Session NgxChainBufferWriter)) (c : StreamCall) : Prop :=
  ∀ t fill, s = .ok t → c = .next fill → Fits t

/-- In every run of allowed calls whose calls of `Next` fit, the chain holds what was kept and
`ByteCount` is its length after every call. -/
theorem runs_faithful {S : Slab} (hroom : S.Unlimited) {ch ex : ℤ} {pool : Pool}
    {s : Except Stop (Session NgxChainBufferWriter)}
    (h : RunsTo (stream S).step NextFits (OutputStream.start (new ch ex) pool) s) :
    (stream S).Faithful s := by
  have hinv : ∃ t, s = .ok t ∧ Writing t := by
    apply h.invariant (fun s => ∃ t, s = .ok t ∧ Writing t)
    · exact ⟨_, rfl, start_writing ch ex pool⟩
    · rintro s c s' - ⟨t, rfl, ht⟩ hok hstep
      obtain ⟨u, hu, ⟨fill, rfl, rfl⟩ | ⟨count, rfl, hmay, rfl⟩⟩ := OutputStream.step_cases hstep
      · obtain rfl := Except.ok.inj hu
        exact ht.next hroom (hok t fill rfl rfl) fill
      · obtain rfl := Except.ok.inj hu
        exact ht.backUp hmay
  obtain ⟨t, rfl, ht⟩ := hinv
  exact ht.faithful

/-- The executable form of `NextFits`. -/
def nextFits : Except Stop (Session NgxChainBufferWriter) → StreamCall → Bool
  | .ok s, .next _ => decide (Fits s)
  | _, _ => true

theorem nextFits_sound (s : Except Stop (Session NgxChainBufferWriter)) (c : StreamCall)
    (h : nextFits s c = true) : NextFits s c := by
  rintro t fill rfl rfl
  simpa [nextFits] using h

/-- The first region is given back, and five bytes of the second one. -/
theorem runs_faithful_backUp :
    ∃ s, run (stream (Slab.unlimited 0)).step nextFits (OutputStream.start (new 0 1) ⟨∅, []⟩)
      [.next fun _ => 1, .backUp 4096, .next fun _ => 2, .backUp 5] = some s ∧
        (stream (Slab.unlimited 0)).Faithful s := by
  obtain ⟨s, hs⟩ := Option.isSome_iff_exists.mp
    (show (run (stream (Slab.unlimited 0)).step nextFits
      (OutputStream.start (new 0 1) ⟨∅, []⟩)
      [.next fun _ => 1, .backUp 4096, .next fun _ => 2, .backUp 5]).isSome = true by
      decide +kernel)
  exact ⟨s, hs, runs_faithful (Slab.unlimited_unlimited 0) (runsTo_of_run nextFits_sound hs)⟩

/-- All but one byte of the first region is kept, and the next call of `Next` loses it. -/
theorem not_faithful_backUp :
    ∃ s, Reachable (stream (Slab.unlimited 0)).step (OutputStream.start (new 0 1) ⟨∅, []⟩) s ∧
      ¬(stream (Slab.unlimited 0)).Faithful s := by
  obtain ⟨s, hs, he⟩ := Option.map_eq_some_iff.mp
    (show (exec (stream (Slab.unlimited 0)).step (OutputStream.start (new 0 1) ⟨∅, []⟩)
      [.next fun _ => 1, .backUp 1, .next fun _ => 2]).map
      (fun s => decide ((stream (Slab.unlimited 0)).Faithful s)) = some false by
      decide +kernel)
  exact ⟨s, reachable_of_exec hs, of_decide_eq_false he⟩

end NgxChainBufferWriter

end NgxRpc
