import NgxRpc.ChainWriter

/-!
# The two writers side by side

The writers differ in how they find the last buffer: one moves its `chain` pointer there, the
other walks there in `Next` and trims the first buffer in `BackUp`. Both are compared with
what a caller can tell about a writer, its view. `Next` changes the views of both in the same
way, and so does `BackUp` while the chain has a single link.

## Main definitions

- `View`, `View.next`, `View.backUp` — a writer without addresses
- `OutputStream.both`, `OutputStream.Agree` — two streams with the same calls

## Main results

- `runs_agree` — the writers agree in every run that gives bytes back only while the chain
  has a single link
-/

namespace NgxRpc
open SlabPool Transition

/-! ## Views -/

/-- The last buffer: the offsets of `pos`, `last` and `end` from `start`, and its bytes. -/
structure TailView where
  pos : ℤ
  last : ℤ
  end_ : ℤ
  bytes : List UInt8

/-- A writer: the bytes and the number of the links before the last one, the buffer of the
last one, and the counters. -/
structure View where
  front : List UInt8
  links : ℕ
  tail : Option TailView
  totaly : ℤ
  extends_ : ℤ

/-- All bytes of the chain. -/
def View.bytes (v : View) : List UInt8 := v.front ++ v.tail.elim [] TailView.bytes

/-- A writer before its first call. -/
def View.new (ex : ℤ) : View := ⟨[], 0, none, 0, ex⟩

/-- The view of a new buffer that its caller has filled. -/
def TailView.fresh (size : ℤ) (fill : ℕ → UInt8) : TailView := ⟨0, size, size, filled size fill⟩

/-- `Next` that allocates a buffer, and the size it returns. -/
def View.alloc (v : View) (fill : ℕ → UInt8) : View × ℤ :=
  let size := CInt.int (NgxChainBufferWriter.regionBytes v.extends_)
  (⟨v.bytes, v.links + v.tail.toList.length, some (.fresh size fill), CInt.int (v.totaly + size),
    CInt.unsigned (v.extends_ + 1)⟩, size)

/-- `Next` with the copy of the caller. -/
def View.next (v : View) (fill : ℕ → UInt8) : View × ℤ :=
  match v.tail with
  | none => v.alloc fill
  | some t =>
    if t.last = t.end_ then v.alloc fill
    else
      let size := CInt.int (t.end_ - t.last)
      ({ v with
        tail := some ⟨t.last, t.end_, t.end_, filled size fill⟩
        totaly := CInt.int (v.totaly + size) }, size)

/-- `BackUp` that trims the last buffer. -/
def View.backUp (v : View) (count : ℤ) : Except Stop View :=
  match v.tail with
  | none => .error .nullDereference
  | some t =>
    if t.pos ≤ t.last - count ∧ 0 ≤ CInt.int (v.totaly - count) then
      .ok { v with
        tail := some { t with
          last := t.last - count
          bytes := t.bytes.take ((t.last - t.pos).toNat - count.toNat) }
        totaly := CInt.int (v.totaly - count) }
    else .error .assertion

/-- The buffer has room for what its view says. A region of a negative size, from a product
over `2 ^ 31`, is full at once. -/
structure NgxBuf.HasView (b : NgxBuf) (t : TailView) : Prop where
  start : 0 < b.start
  pos : b.pos = b.start + t.pos
  last : b.last = b.start + t.last
  end_ : b.end_ = b.start + t.end_
  content : b.content = t.bytes
  pos_nonneg : 0 ≤ t.pos
  shape : t.end_ < 0 ∧ t.last = t.end_ ∨
    t.pos ≤ t.last ∧ t.last ≤ t.end_ ∧ t.end_ < 2 ^ 31 ∧ t.end_ ≤ b.mem.length

/-- The last link has the buffer of the view, or no buffer. -/
def Link.HasView (l : Link) (tail : Option TailView) : Prop :=
  match tail with
  | none => l.buf = none
  | some t => ∃ b, l.buf = some b ∧ b.HasView t

/-- A session went the way its view did: with the writer in relation `R` to the view, or
stopped for the same reason. -/
def Matches {W : Type} (R : W → View → Prop) (inHand : Option ℤ) :
    Except Stop View → Except Stop (Session W) → Prop
  | .ok v, .ok s => R s.writer v ∧ s.inHand = inHand
  | .error e, .error e' => e = e'
  | _, _ => False

theorem Matches.ok {W : Type} {R : W → View → Prop} {inHand : Option ℤ} {v : View}
    {r : Except Stop (Session W)} (h : Matches R inHand (.ok v) r) :
    ∃ s, r = .ok s ∧ R s.writer v ∧ s.inHand = inHand := by
  cases r with
  | ok s => exact ⟨s, rfl, h⟩
  | error e => exact h.elim

theorem Matches.error {W : Type} {R : W → View → Prop} {inHand : Option ℤ} {e : Stop}
    {r : Except Stop (Session W)} (h : Matches R inHand (.error e) r) : r = .error e := by
  cases r with
  | ok s => exact h.elim
  | error e' => exact congrArg _ (show e = e' from h).symm

/-- The two assertions of `BackUp`, where the first one is `A` for the view. -/
theorem Matches.asserts {W : Type} {R : W → View → Prop} {inHand : Option ℤ} {v : View}
    {r : Except Stop (Session W)} {A A' B : Prop} [Decidable A] [Decidable A'] [Decidable B]
    (hiff : A' ↔ A) (h : A → Matches R inHand (.ok v) r) :
    if A' then
      if B then Matches R inHand (if A ∧ B then .ok v else .error .assertion) r
      else Matches R inHand (if A ∧ B then .ok v else .error .assertion) (.error .assertion)
    else Matches R inHand (if A ∧ B then .ok v else .error .assertion) (.error .assertion) := by
  by_cases hA : A
  · rw [if_pos (hiff.mpr hA)]
    by_cases hB : B
    · rw [if_pos hB, if_pos ⟨hA, hB⟩]
      exact h hA
    · rw [if_neg hB, if_neg (fun hand => hB hand.2)]
      exact (rfl : Stop.assertion = .assertion)
  · rw [if_neg (mt hiff.mp hA), if_neg (fun hand => hA hand.1)]
    exact (rfl : Stop.assertion = .assertion)

section Buffer

variable {b : NgxBuf} {t : TailView}

theorem Link.HasView.content {l : Link} {tail : Option TailView} (h : l.HasView tail) :
    l.content = tail.elim [] TailView.bytes := by
  cases tail with
  | none => simp [Link.content, show l.buf = none from h]
  | some t =>
    obtain ⟨b, hb, hv⟩ := h
    simp [Link.content, hb, hv.content]

/-- A new buffer with the bytes of the caller. -/
theorem hasView_fresh {size : ℤ} (hlt : size < 2 ^ 31)
    (hb : NgxShmChainBufferWriter.FreshBuf (fun _ => True) size b) (hstart : 0 < b.start)
    (fill : ℕ → UInt8) :
    (b.store b.start (filled size fill)).HasView (.fresh size fill) := by
  have hpos := hb.pos
  have hlast := hb.last
  have hend := hb.end_
  refine ⟨hstart, ?_, ?_, ?_, ?_, le_rfl, ?_⟩
  · show b.pos = b.start + 0
    omega
  · show b.last = b.start + size
    omega
  · exact hend
  · rw [← hpos]
    apply NgxBuf.content_store
    · rw [length_filled]
      omega
    · omega
  · simp only [TailView.fresh, NgxBuf.store]
    by_cases hsize : 0 ≤ size
    · have hlen := hb.length hsize
      simp only [List.length_append, List.length_take, List.length_drop, length_filled]
      omega
    · exact Or.inl ⟨by omega, trivial⟩

/-- A buffer whose free end is resumed, with the bytes of the caller. -/
theorem NgxBuf.HasView.rest (h : b.HasView t) (hrest : t.last ≠ t.end_) (fill : ℕ → UInt8) :
    (({ b with pos := b.last, last := b.end_ } : NgxBuf).store b.last
      (filled (CInt.int (t.end_ - t.last)) fill)).HasView
        ⟨t.last, t.end_, t.end_, filled (CInt.int (t.end_ - t.last)) fill⟩ := by
  obtain ⟨hstart, hpos, hlast, hend, -, h0, hshape⟩ := h
  obtain ⟨-, hfull⟩ | ⟨hle, hle', hlt, hmem⟩ := hshape
  · exact absurd hfull hrest
  · have hint : CInt.int (t.end_ - t.last) = t.end_ - t.last :=
      CInt.int_of_range (by omega) (by omega)
    refine ⟨hstart, hlast, hend, hend, ?_, h0.trans hle, ?_⟩
    · apply NgxBuf.content_store (b := { b with pos := b.last, last := b.end_ })
      · rw [length_filled, hint]
        simp only
        omega
      · simp only
        omega
    · refine Or.inr ⟨hle', le_rfl, hlt, ?_⟩
      simp only [NgxBuf.store, List.length_append, List.length_take, List.length_drop,
        length_filled, hint]
      omega

theorem NgxBuf.HasView.start_le_last (h : b.HasView t) (hrest : t.last ≠ t.end_) :
    b.start ≤ b.last := by
  have hlast := h.last
  have hpos := h.pos_nonneg
  obtain ⟨-, hfull⟩ | ⟨hle, -⟩ := h.shape
  · exact absurd hfull hrest
  · omega

theorem NgxBuf.HasView.length_le (h : b.HasView t) :
    t.bytes.length ≤ (t.last - t.pos).toNat := by
  have hpos := h.pos
  have hlast := h.last
  rw [← h.content]
  simp only [NgxBuf.content, List.length_take]
  omega

/-- A buffer whose end is given back. -/
theorem NgxBuf.HasView.backUp (h : b.HasView t) {count : ℤ} (h0 : 0 ≤ count)
    (hle : t.pos ≤ t.last - count) :
    ({ b with last := b.last - count } : NgxBuf).HasView { t with
      last := t.last - count
      bytes := t.bytes.take ((t.last - t.pos).toNat - count.toNat) } := by
  obtain ⟨hstart, hpos, hlast, hend, hcontent, hnonneg, hshape⟩ := h
  refine ⟨hstart, hpos, ?_, hend, ?_, hnonneg, ?_⟩
  · simp only
    omega
  · rw [NgxBuf.content_backUp b h0, hcontent]
    simp only
    congr 2
    omega
  · obtain ⟨hneg, hfull⟩ | ⟨-, hle', hlt, hmem⟩ := hshape
    · omega
    · exact Or.inr ⟨hle, by simp only; omega, hlt, hmem⟩

end Buffer

/-! ## The pool writer -/

namespace NgxChainBufferWriter

/-- The view of the writer. Its first link has no buffer before the first `Next`. -/
structure HasView (w : NgxChainBufferWriter) (v : View) : Prop where
  front : NgxRpc.content w.passed = v.front
  links : w.passed.length = v.links
  tail : w.chain.HasView v.tail
  first : v.tail = none → v.links = 0
  totaly : w.totaly = v.totaly
  extends_ : w.extends_ = v.extends_

variable {S : Slab} {s : Session NgxChainBufferWriter} {v : View}

theorem HasView.content (h : s.writer.HasView v) : NgxRpc.content s.writer.links = v.bytes := by
  rw [content_links, h.front, h.tail.content]
  rfl

theorem new_hasView (ch ex : ℤ) : (new ch ex).HasView (.new ex) :=
  ⟨rfl, rfl, rfl, fun _ => rfl, rfl, rfl⟩

theorem HasView.filledLinks (h : s.writer.HasView v) :
    NgxRpc.content s.writer.filledLinks = v.bytes ∧
      s.writer.filledLinks.length = v.links + v.tail.toList.length := by
  refine ⟨(content_filledLinks _).trans h.content, ?_⟩
  have htail := h.tail
  rw [NgxChainBufferWriter.filledLinks]
  cases hv : v.tail with
  | none =>
    rw [hv] at htail
    simp [show s.writer.chain.buf = none from htail, h.links]
  | some t =>
    rw [hv] at htail
    obtain ⟨b, hb, -⟩ := htail
    simp [hb, h.links]

/-- `Next` that allocates a buffer. -/
theorem HasView.alloc (h : s.writer.HasView v) (hroom : S.Unlimited) (hfull : Full s.writer)
    (fill : ℕ → UInt8) :
    Matches HasView (some (v.alloc fill).2) (.ok (v.alloc fill).1)
      ((stream S).sessionNext s fill) := by
  apply (outcome_iff (Matches HasView (some (v.alloc fill).2) (.ok (v.alloc fill).1))).mpr
  obtain ⟨hcontent, hlinks⟩ := h.filledLinks
  apply wp_fillNext_full hroom hfull
  intro a b p' hb hstart
  rw [h.extends_] at hb ⊢
  refine ⟨⟨hcontent, hlinks, ⟨_, rfl, hasView_fresh (CInt.int_lt _) hb hstart fill⟩, ?_, ?_, rfl⟩,
    rfl⟩
  · simp [View.alloc]
  · rw [h.totaly]
    rfl

/-- `Next` changes the view as it should. -/
theorem HasView.next (h : s.writer.HasView v) (hroom : S.Unlimited) (fill : ℕ → UInt8) :
    Matches HasView (some (v.next fill).2) (.ok (v.next fill).1)
      ((stream S).sessionNext s fill) := by
  have htail := h.tail
  rw [View.next]
  split
  · next hv =>
    rw [hv] at htail
    have hnone : s.writer.chain.buf = none := htail
    exact h.alloc hroom (by simp [Full, hnone]) fill
  · next t hv =>
    rw [hv] at htail
    obtain ⟨b, hbuf, hb⟩ := htail
    have hlast := hb.last
    have hend := hb.end_
    split
    · next hfull =>
      apply h.alloc hroom
      intro c hc
      obtain rfl : b = c := Option.some.inj (hbuf.symm.trans hc)
      omega
    · next hrest =>
      have hsize : b.end_ - b.last = t.end_ - t.last := by omega
      apply (outcome_iff (Matches HasView _ (.ok _))).mpr
      refine wp_fillNext_rest hbuf (by omega) hb.start (hb.start_le_last hrest) fill fun p' => ?_
      rw [hsize]
      refine ⟨⟨h.front, h.links, ⟨_, rfl, hb.rest hrest fill⟩, by simp, ?_, h.extends_⟩, rfl⟩
      rw [h.totaly]

/-- `BackUp` changes the view as it should, or stops where it should. -/
theorem HasView.backUp (h : s.writer.HasView v) {count : ℤ} (h0 : 0 ≤ count) :
    Matches HasView none (v.backUp count) ((stream S).sessionBackUp s count) := by
  have htail := h.tail
  apply (outcome_iff (Matches HasView none (v.backUp count))).mpr
  rw [View.backUp]
  simp only [stream, NgxChainBufferWriter.backUp, wp_bind]
  split
  · next hv =>
    rw [hv] at htail
    have hnone : s.writer.chain.buf = none := htail
    rw [hnone]
    exact (rfl : Stop.nullDereference = .nullDereference)
  · next t hv =>
    rw [hv] at htail
    obtain ⟨b, hbuf, hb⟩ := htail
    have hpos := hb.pos
    have hlast := hb.last
    simp only [hbuf, wp_bind, wp_deref_some, wp_assert, h.totaly, wp_pure, decide_eq_true_eq]
    apply Matches.asserts
    · omega
    · intro hle
      exact ⟨⟨h.front, h.links, ⟨_, rfl, hb.backUp h0 hle⟩, by simp, rfl, h.extends_⟩, rfl⟩

end NgxChainBufferWriter

/-! ## The slab writer -/

namespace NgxShmChainBufferWriter

/-- The caller copies `bytes` to the front of the region in hand. -/
def store (w : NgxShmChainBufferWriter) (data : ℤ) (bytes : List UInt8) :
    SlabM NgxShmChainBufferWriter := do
  let chain ← storeLast data bytes w.chain
  pure { w with chain := chain }

/-- The writer as an output stream. -/
def stream (S : Slab) : OutputStream NgxShmChainBufferWriter :=
  ⟨next S, backUp, byteCount, chain, store⟩

/-- The view of the writer: the walk from the first link ends at link `l`. -/
structure HasView (w : NgxShmChainBufferWriter) (v : View) : Prop where
  chain : ∃ init l, w.chain = init ++ [l] ∧ NgxRpc.content init = v.front ∧
    init.length = v.links ∧ (∀ k ∈ init, k.buf.isSome) ∧ l.HasView v.tail
  first : v.tail = none → v.links = 0
  totaly : w.totaly = v.totaly
  extends_ : w.extends_ = v.extends_

variable {S : Slab} {s : Session NgxShmChainBufferWriter} {v : View}

theorem HasView.content (h : s.writer.HasView v) : NgxRpc.content s.writer.chain = v.bytes := by
  obtain ⟨init, l, hchain, hfront, -, -, hl⟩ := h.chain
  rw [hchain, content_append, content_cons, content_nil, List.append_nil, hfront, hl.content]
  rfl

theorem new_hasView (ch ex : ℤ) : (new ch ex).HasView (.new ex) :=
  ⟨⟨[], ⟨ch, none⟩, rfl, rfl, rfl, by simp, rfl⟩, fun _ => rfl, rfl, rfl⟩

/-- The copy of the caller. -/
theorem wp_store {E : Stop → Prop} {p : Pool} {w : NgxShmChainBufferWriter} {init : List Link}
    {l : Link} {b : NgxBuf} (hchain : w.chain = init ++ [l]) (hbuf : l.buf = some b)
    (hstart : 0 < b.start) {data : ℤ} (hdata : b.start ≤ data) {bytes : List UInt8}
    {Q : NgxShmChainBufferWriter → Pool → Prop}
    (hQ : ∀ p', Q { w with chain := init ++ [⟨l.addr, some (b.store data bytes)⟩] } p') :
    wpStop E (w.store data bytes) Q p := by
  simp only [store, wp_bind, hchain]
  apply wp_storeLast hbuf
  · intro hzero
    omega
  · intro p'
    rw [wp_pure]
    exact hQ p'

/-- `Next` that allocates a buffer behind `init`. -/
theorem HasView.alloc (h : s.writer.HasView v) {init : List Link} {l : Link} {b : NgxBuf} {p : Pool}
    (hfront : NgxRpc.content init = v.bytes)
    (hlinks : init.length = v.links + v.tail.toList.length) (hinit : ∀ k ∈ init, k.buf.isSome)
    (hl : l.buf = some b) (hb : FreshBuf (fun _ => True) (regionSize v.extends_) b)
    (hstart : 0 < b.start) (fill : ℕ → UInt8) :
    wpStop (fun e => Matches HasView (some (v.alloc fill).2) (.ok (v.alloc fill).1) (.error e))
      (do
        let w ← store ⟨init ++ [l], CInt.int (s.writer.totaly + regionSize v.extends_),
          CInt.unsigned (v.extends_ + 1)⟩ b.start (filled (regionSize v.extends_) fill)
        pure (w, (⟨b.start, regionSize v.extends_⟩ : Region)))
      (fun r pool => Matches HasView (some (v.alloc fill).2) (.ok (v.alloc fill).1)
        (.ok ⟨r.1, pool, some r.2.size, s.kept ++ filled r.2.size fill⟩)) p := by
  simp only [wp_bind]
  refine wp_store rfl hl hstart le_rfl fun p₂ => ?_
  rw [wp_pure]
  refine ⟨⟨⟨init, _, rfl, hfront, hlinks, hinit, _, rfl,
    hasView_fresh (CInt.int_lt _) hb hstart fill⟩, ?_, ?_, rfl⟩, rfl⟩
  · simp [View.alloc]
  · rw [h.totaly]
    rfl

/-- `Next` changes the view as it should. -/
theorem HasView.next (h : s.writer.HasView v) (hroom : S.Unlimited) (fill : ℕ → UInt8) :
    Matches HasView (some (v.next fill).2) (.ok (v.next fill).1)
      ((stream S).sessionNext s fill) := by
  obtain ⟨init, l, hchain, hfront, hlinks, hinit, hl⟩ := h.chain
  rw [View.next]
  split
  · next hv =>
    rw [hv] at hl
    have hnone : l.buf = none := hl
    have hnil : init = [] := by
      apply List.eq_nil_of_length_eq_zero
      rw [hlinks, h.first hv]
    subst hnil
    apply (outcome_iff (Matches HasView _ (.ok _))).mpr
    simp only [OutputStream.fillNext, stream, NgxShmChainBufferWriter.next, hchain, h.extends_,
      List.nil_append, nextFrom, hnone, wp_bind, wp_access]
    refine wp_newBuf (Or.inl hroom) (fun _ _ _ _ => trivial) fun b p' hb hstart => ?_
    obtain hstart | hfalse := hstart
    · simp only [wp_pure]
      have hfront' : NgxRpc.content [] = v.bytes := by simp [View.bytes, hv, ← hfront]
      have hlinks' : ([] : List Link).length = v.links + v.tail.toList.length := by
        simp [hv, ← hlinks]
      exact h.alloc hfront' hlinks' (by simp) rfl hb hstart fill
    · exact False.elim hfalse
  · next t hv =>
    rw [hv] at hl
    obtain ⟨b, hbuf, hb⟩ := hl
    have hlast := hb.last
    have hend := hb.end_
    split
    · next hfull =>
      apply (outcome_iff (Matches HasView _ (.ok _))).mpr
      simp only [OutputStream.fillNext, stream, NgxShmChainBufferWriter.next, hchain, h.extends_,
        wp_bind]
      apply wp_nextFrom (Or.inl hroom) (fun _ _ _ _ => trivial) hbuf (by omega) hinit
      rintro init' l' b' p' ⟨hcontent, hlen⟩ hinit' hl' hb' hstart
      obtain hstart | hfalse := hstart
      · simp only [wp_pure]
        have happend : init' ++ [l, l'] = (init' ++ [l]) ++ [l'] := by simp
        rw [happend]
        refine h.alloc ?_ ?_ ?_ hl' hb' hstart fill
        · simp [View.bytes, hv, hcontent, hfront, Link.content, hbuf, hb.content]
        · simp [hv, hlen, hlinks]
        · intro k hk
          obtain hk | hk := List.mem_append.mp hk
          · exact hinit' k hk
          · simp [List.mem_singleton.mp hk, hbuf]
      · exact False.elim hfalse
    · next hrest =>
      have hsize : b.end_ - b.last = t.end_ - t.last := by omega
      apply (outcome_iff (Matches HasView _ (.ok _))).mpr
      simp only [OutputStream.fillNext, stream, NgxShmChainBufferWriter.next, hchain, wp_bind]
      refine wp_nextFrom_rest hbuf (by omega) hinit fun init' p' hsame hinit' => ?_
      simp only [wp_pure, wp_bind]
      refine wp_store (l := ⟨l.addr, some { b with pos := b.last, last := b.end_ }⟩) rfl rfl
        hb.start (hb.start_le_last hrest) fun p₂ => ?_
      rw [wp_pure, hsize]
      refine ⟨⟨⟨init', _, rfl, hsame.1.trans hfront, hsame.2.trans hlinks, hinit', _, rfl,
        hb.rest hrest fill⟩, by simp, ?_, h.extends_⟩, rfl⟩
      rw [h.totaly]

/-- `BackUp` trims the first buffer: that is the last one when there is a single link, and
with more links nothing may be given back. -/
structure TrimsLast (w : NgxShmChainBufferWriter) (count : ℤ) : Prop where
  trims : w.chain.length = 1 ∨ count = 0 ∧ ∀ l ∈ w.chain.head?, ∀ b ∈ l.buf, b.pos ≤ b.last

/-- `BackUp` changes the view as it should, or stops where it should. -/
theorem HasView.backUp (h : s.writer.HasView v) {count : ℤ} (h0 : 0 ≤ count)
    (htrims : TrimsLast s.writer count) (hmay : ∀ t ∈ v.tail, t.pos ≤ t.last) :
    Matches HasView none (v.backUp count) ((stream S).sessionBackUp s count) := by
  obtain ⟨init, l, hchain, hfront, hlinks, hinit, hl⟩ := h.chain
  apply (outcome_iff (Matches HasView none (v.backUp count))).mpr
  rw [View.backUp]
  cases init with
  | nil =>
    rw [List.nil_append] at hchain
    simp only [stream, NgxShmChainBufferWriter.backUp, hchain, wp_bind, wp_access]
    split
    · next hv =>
      rw [hv] at hl
      have hnone : l.buf = none := hl
      rw [hnone]
      exact (rfl : Stop.nullDereference = .nullDereference)
    · next t hv =>
      rw [hv] at hl
      obtain ⟨b, hbuf, hb⟩ := hl
      have hpos := hb.pos
      have hlast := hb.last
      simp only [hbuf, wp_bind, wp_deref_some, wp_access, wp_assert, h.totaly, wp_pure,
        decide_eq_true_eq]
      apply Matches.asserts
      · omega
      · intro hle
        exact ⟨⟨⟨[], _, rfl, hfront, hlinks, hinit, _, rfl, hb.backUp h0 hle⟩, by simp, rfl,
          h.extends_⟩, rfl⟩
  | cons k ks =>
    -- nothing is given back, and the first buffer stays as it is
    obtain ⟨c, hc⟩ := Option.isSome_iff_exists.mp (hinit k (by simp))
    obtain hone | ⟨rfl, hfirst⟩ := htrims.trims
    · simp [hchain] at hone
    · have hle : c.pos ≤ c.last := hfirst k (by simp [hchain]) c hc
      have hk : (⟨k.addr, some c⟩ : Link) = k := by rw [← hc]
      split
      · next hv =>
        have hzero := h.first hv
        simp [← hlinks] at hzero
      · next t hv =>
        have hpos : t.pos ≤ t.last := hmay t hv
        rw [hv] at hl
        have htake : t.bytes.take ((t.last - t.pos).toNat - (0 : ℤ).toNat) = t.bytes := by
          obtain ⟨b, -, hb⟩ := hl
          exact List.take_of_length_le (by simpa using hb.length_le)
        simp only [stream, NgxShmChainBufferWriter.backUp, hchain, List.cons_append, hc, wp_bind,
          wp_access, wp_deref_some, wp_assert, h.totaly, wp_pure, Int.sub_zero, hle, decide_true,
          if_true, decide_eq_true_eq, htake, hpos, true_and]
        by_cases htot : 0 ≤ CInt.int v.totaly
        · rw [if_pos htot, if_pos htot]
          refine ⟨⟨⟨k :: ks, l, ?_, hfront, hlinks, hinit, hl⟩, by simp, rfl, h.extends_⟩, rfl⟩
          simp only [List.cons_append, hk]
        · rw [if_neg htot, if_neg htot]
          exact (rfl : Stop.assertion = .assertion)

end NgxShmChainBufferWriter

/-! ## Both writers -/

namespace OutputStream

variable {W W' : Type}

/-- The same call of two streams. -/
def both (O : OutputStream W) (O' : OutputStream W')
    (s : Except Stop (Session W) × Except Stop (Session W')) (c : StreamCall) :
    Option (Except Stop (Session W) × Except Stop (Session W')) :=
  (O.step s.1 c).bind fun a => (O'.step s.2 c).map fun b => (a, b)

/-- The last calls returned the same size, or none; the counts and the bytes of the chains are
equal; or the same assertion stopped both. -/
def Agree (O : OutputStream W) (O' : OutputStream W') :
    Except Stop (Session W) × Except Stop (Session W') → Prop
  | (.ok a, .ok b) => a.inHand = b.inHand ∧ O.byteCount a.writer = O'.byteCount b.writer ∧
      content (O.chain a.writer) = content (O'.chain b.writer)
  | (.error e, .error e') => e = e'
  | _ => False

end OutputStream

/-- Two sessions in which the writers have the same view. -/
structure Twins (a : Session NgxChainBufferWriter) (b : Session NgxShmChainBufferWriter)
    (v : View) : Prop where
  pool : a.writer.HasView v
  slab : b.writer.HasView v
  inHand : a.inHand = b.inHand
  hand : ∀ size ∈ a.inHand, 0 ≤ size → ∀ t ∈ v.tail, t.pos ≤ t.last

section Both

variable {S S' : Slab} {a : Session NgxChainBufferWriter} {b : Session NgxShmChainBufferWriter}
  {v : View}

theorem Twins.agree (h : Twins a b v) :
    OutputStream.Agree (NgxChainBufferWriter.stream S) (NgxShmChainBufferWriter.stream S')
      (.ok a, .ok b) :=
  ⟨h.inHand, h.pool.totaly.trans h.slab.totaly.symm, h.pool.content.trans h.slab.content.symm⟩

/-- A region of a size that is not negative lies between `pos` and `last`. -/
theorem NgxChainBufferWriter.HasView.next_hand {w : NgxChainBufferWriter} (h : w.HasView v)
    (fill : ℕ → UInt8) (hsize : 0 ≤ (v.next fill).2) :
    ∀ t ∈ (v.next fill).1.tail, t.pos ≤ t.last := by
  have htail := h.tail
  revert hsize
  rw [View.next]
  split
  · intro hsize t ht
    obtain rfl : TailView.fresh _ fill = t := Option.some.inj ht
    exact hsize
  · next t hv =>
    rw [hv] at htail
    obtain ⟨b, -, hb⟩ := htail
    split
    · intro hsize t ht
      obtain rfl : TailView.fresh _ fill = t := Option.some.inj ht
      exact hsize
    · next hrest =>
      intro hsize t' ht'
      obtain rfl := Option.some.inj ht'
      obtain ⟨-, hfull⟩ | ⟨-, hle, -⟩ := hb.shape
      · exact absurd hfull hrest
      · exact hle

/-- A call of `Next` keeps the twins. -/
theorem Twins.next (h : Twins a b v) (hroom : S.Unlimited) (hroom' : S'.Unlimited)
    (fill : ℕ → UInt8) : ∃ a' b' v',
      (NgxChainBufferWriter.stream S).sessionNext a fill = .ok a' ∧
        (NgxShmChainBufferWriter.stream S').sessionNext b fill = .ok b' ∧ Twins a' b' v' := by
  obtain ⟨a', ha, hpool, hhand⟩ := (h.pool.next hroom fill).ok
  obtain ⟨b', hb, hslab, hhand'⟩ := (h.slab.next hroom' fill).ok
  refine ⟨a', b', _, ha, hb, hpool, hslab, hhand.trans hhand'.symm, ?_⟩
  intro size hsize h0
  obtain rfl : (v.next fill).2 = size := Option.some.inj (hhand.symm.trans hsize)
  exact h.pool.next_hand fill h0

/-- A call of `BackUp` keeps the twins, or the same assertion stops both. -/
theorem Twins.backUp (h : Twins a b v) {count : ℤ} (hmay : OutputStream.MayBackUp a count)
    (htrims : NgxShmChainBufferWriter.TrimsLast b.writer count) :
    (∃ a' b' v', (NgxChainBufferWriter.stream S).sessionBackUp a count = .ok a' ∧
      (NgxShmChainBufferWriter.stream S').sessionBackUp b count = .ok b' ∧ Twins a' b' v') ∨
      ∃ e, (NgxChainBufferWriter.stream S).sessionBackUp a count = .error e ∧
        (NgxShmChainBufferWriter.stream S').sessionBackUp b count = .error e := by
  obtain ⟨h0, size, hsize, hle⟩ := hmay
  have hpool := h.pool.backUp (S := S) h0
  have hslab := h.slab.backUp (S := S') h0 htrims (h.hand size hsize (h0.trans hle))
  cases hv : v.backUp count with
  | error e =>
    rw [hv] at hpool hslab
    exact Or.inr ⟨e, hpool.error, hslab.error⟩
  | ok v' =>
    rw [hv] at hpool hslab
    obtain ⟨a', ha, hpool, hhand⟩ := hpool.ok
    obtain ⟨b', hb, hslab, hhand'⟩ := hslab.ok
    refine Or.inl ⟨a', b', v', ha, hb, hpool, hslab, hhand.trans hhand'.symm, ?_⟩
    intro n hn
    rw [hhand] at hn
    cases hn

/-- Each `BackUp` trims the last buffer of the slab writer, or gives nothing back. -/
def BackUpsTrimLast (s : Except Stop (Session NgxChainBufferWriter) ×
    Except Stop (Session NgxShmChainBufferWriter)) (c : StreamCall) : Prop :=
  ∀ b count, s.2 = .ok b → c = .backUp count →
    NgxShmChainBufferWriter.TrimsLast b.writer count

/-- In every run of the same allowed calls in which bytes are given back only while the chain
has a single link, the two writers agree after every call. -/
theorem runs_agree (hroom : S.Unlimited) (hroom' : S'.Unlimited) {ch ch' ex : ℤ}
    {pool pool' : Pool} {s : Except Stop (Session NgxChainBufferWriter) ×
      Except Stop (Session NgxShmChainBufferWriter)}
    (h : RunsTo ((NgxChainBufferWriter.stream S).both (NgxShmChainBufferWriter.stream S'))
      BackUpsTrimLast (OutputStream.start (.new ch ex) pool, OutputStream.start (.new ch' ex) pool')
      s) :
    (NgxChainBufferWriter.stream S).Agree (NgxShmChainBufferWriter.stream S') s := by
  have hinv : (∃ a b v, s = (.ok a, .ok b) ∧ Twins a b v) ∨ ∃ e, s = (.error e, .error e) := by
    refine h.invariant (fun s => (∃ a b v, s = (.ok a, .ok b) ∧ Twins a b v) ∨
      ∃ e, s = (.error e, .error e)) ?_ ?_
    · refine Or.inl ⟨_, _, .new ex, rfl, NgxChainBufferWriter.new_hasView ch ex,
        NgxShmChainBufferWriter.new_hasView ch' ex, rfl, ?_⟩
      intro size hsize
      cases hsize
    · rintro s c s' - hs hok hstep
      obtain ⟨r, hr, hstep⟩ := Option.bind_eq_some_iff.mp hstep
      obtain ⟨r', hr', rfl⟩ := Option.map_eq_some_iff.mp hstep
      obtain ⟨a, ha, hcase⟩ := OutputStream.step_cases hr
      obtain ⟨b, hb, hcase'⟩ := OutputStream.step_cases hr'
      obtain ⟨a₁, b₁, v, rfl, ht⟩ | ⟨e, rfl⟩ := hs
      · obtain rfl : a₁ = a := Except.ok.inj ha
        obtain rfl : b₁ = b := Except.ok.inj hb
        obtain ⟨fill, rfl, rfl⟩ | ⟨count, rfl, hmay, rfl⟩ := hcase
        · obtain ⟨fill', he, rfl⟩ | ⟨count, he, -, rfl⟩ := hcase'
          · cases he
            obtain ⟨a', b', v', ha', hb', ht'⟩ := ht.next hroom hroom' fill
            exact Or.inl ⟨a', b', v', by rw [ha', hb'], ht'⟩
          · cases he
        · obtain ⟨fill', he, rfl⟩ | ⟨count', he, -, rfl⟩ := hcase'
          · cases he
          · cases he
            obtain ⟨a', b', v', ha', hb', ht'⟩ | ⟨e, ha', hb'⟩ :=
              @Twins.backUp S S' _ _ _ ht count hmay (hok _ count rfl rfl)
            · exact Or.inl ⟨a', b', v', by rw [ha', hb'], ht'⟩
            · exact Or.inr ⟨e, by rw [ha', hb']⟩
      · cases ha
  obtain ⟨a, b, v, rfl, ht⟩ | ⟨e, rfl⟩ := hinv
  · exact ht.agree
  · exact rfl

end Both

/-- An executable condition that implies `BackUpsTrimLast`: the chain has a single link. -/
def backUpsTrimLast (s : Except Stop (Session NgxChainBufferWriter) ×
    Except Stop (Session NgxShmChainBufferWriter)) : StreamCall → Bool
  | .backUp _ => match s.2 with
    | .ok b => decide (b.writer.chain.length = 1)
    | .error _ => true
  | .next _ => true

theorem backUpsTrimLast_sound (s : Except Stop (Session NgxChainBufferWriter) ×
    Except Stop (Session NgxShmChainBufferWriter)) (c : StreamCall)
    (h : backUpsTrimLast s c = true) : BackUpsTrimLast s c := by
  rintro b count hb rfl
  simp only [backUpsTrimLast, hb, decide_eq_true_eq] at h
  exact ⟨Or.inl h⟩

/-- Both streams, with allocators that never fail. -/
abbrev bothStreams :=
  (NgxChainBufferWriter.stream (Slab.unlimited 0)).both
    (NgxShmChainBufferWriter.stream (Slab.unlimited 0))

/-- Both writers before their first call. -/
abbrev bothNew : Except Stop (Session NgxChainBufferWriter) ×
    Except Stop (Session NgxShmChainBufferWriter) :=
  (OutputStream.start (.new 0 1) ⟨∅, []⟩, OutputStream.start (.new 0 1) ⟨∅, []⟩)

/-- Five bytes of the first region are given back, and two more regions follow. -/
theorem runs_agree_backUp :
    ∃ s, run bothStreams backUpsTrimLast bothNew
      [.next fun _ => 1, .backUp 5, .next fun _ => 2, .next fun _ => 3] = some s ∧
        (NgxChainBufferWriter.stream (Slab.unlimited 0)).Agree
          (NgxShmChainBufferWriter.stream (Slab.unlimited 0)) s := by
  obtain ⟨s, hs⟩ := Option.isSome_iff_exists.mp
    (show (run bothStreams backUpsTrimLast bothNew
      [.next fun _ => 1, .backUp 5, .next fun _ => 2, .next fun _ => 3]).isSome = true by
      decide +kernel)
  exact ⟨s, hs, runs_agree (Slab.unlimited_unlimited 0) (Slab.unlimited_unlimited 0)
    (runsTo_of_run backUpsTrimLast_sound hs)⟩

/-- The bytes number `n` of the two chains. -/
def bytesAt (n : ℕ) : Except Stop (Session NgxChainBufferWriter) ×
    Except Stop (Session NgxShmChainBufferWriter) → Option (Option UInt8 × Option UInt8)
  | (.ok a, .ok b) => some ((content a.writer.links)[n]?, (content b.writer.chain)[n]?)
  | _ => none

/-- One byte of the second region is given back: the slab writer trims the first one. -/
theorem not_agree_backUp :
    ∃ s, Reachable bothStreams bothNew s ∧
      ¬(NgxChainBufferWriter.stream (Slab.unlimited 0)).Agree
        (NgxShmChainBufferWriter.stream (Slab.unlimited 0)) s := by
  obtain ⟨s, hs, he⟩ := Option.map_eq_some_iff.mp
    (show (exec bothStreams bothNew
      [.next fun _ => 1, .next fun _ => 2, .backUp 1]).map (bytesAt 4095) =
        some (some (some 1, some 2)) by
      decide +kernel)
  refine ⟨s, reachable_of_exec hs, ?_⟩
  obtain ⟨a | a, b | b⟩ := s
  · cases he
  · cases he
  · cases he
  · rintro ⟨-, -, hcontent⟩
    obtain ⟨ha, hb⟩ := Prod.mk.inj (Option.some.inj he)
    simp only [NgxChainBufferWriter.stream, NgxShmChainBufferWriter.stream] at hcontent
    rw [hcontent, hb] at ha
    revert ha
    decide

end NgxRpc
