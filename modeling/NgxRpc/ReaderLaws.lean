import NgxRpc.Reader

/-!
# Backing up and skipping

`BackUp` and `Skip` should fit in with the calls of `Next` around them: what is backed up is
delivered again, and what is skipped is not. `BackUp` moves `pos` of the first link back,
wherever the last chunk came from, and never touches `totaly`. `Skip` moves `pos` without
counting, and it stops after the first link with `cur_buf` cleared.

## Main definitions

- `BackUpLaw`, `SkipLaw` — what a caller of the two expects

## Main results

- `not_backUpLaw` — the first law holds nowhere, because of `ByteCount`
- `backUp_first` — the rest of it holds for a chunk of the first link
- `skipLaw_iff` — where the second law holds
- `Reached.inMemory` — the readers it speaks of
-/

namespace NgxRpc
open Loop SlabPool

namespace NgxChainBufferReader

variable {r r' : NgxChainBufferReader} {l : Link} {ls : List Link} {b : NgxBuf}

/-! ## Backing up -/

/-- Calls of `Next` in a row, and what each of them returns. -/
inductive Nexts : NgxChainBufferReader → List (Option Chunk) → NgxChainBufferReader → Prop where
  | nil (r : NgxChainBufferReader) : Nexts r [] r
  | cons {r r₁ r' c cs} (h : NextReturns r c r₁) (hcs : Nexts r₁ cs r') : Nexts r (c :: cs) r'

/-- All further calls of `Next` return the same on both readers. -/
def SameReads (r₁ r₂ : NgxChainBufferReader) : Prop :=
  ∀ cs, (∃ r', Nexts r₁ cs r') ↔ ∃ r', Nexts r₂ cs r'

/-- After the last `Next` delivered `c`, `BackUp(k)` lowers `ByteCount` by `k`, and the next
`Next` delivers the last `k` bytes of `c` and goes on as before. -/
def BackUpLaw (r : NgxChainBufferReader) (c : Chunk) (k : ℤ) : Prop :=
  ∃ r₁, r.backUp k = .ok r₁ ∧ r₁.byteCount = r.byteCount - k ∧
    ∃ c' r₂, NextReturns r₁ (some c') r₂ ∧ c'.size = k ∧
      c'.bytes = c.bytes.drop (c.bytes.length - k.toNat) ∧ SameReads r r₂

/-- `BackUp` does not count. -/
theorem byteCount_backUp {k : ℤ} (h : r.backUp k = .ok r') : r'.byteCount = r.byteCount := by
  rw [backUp] at h
  split at h
  · cases h
  · split at h
    · cases h
    · cases h
      rfl

/-- No `BackUp` of a positive number of bytes keeps the law. -/
theorem not_backUpLaw (r : NgxChainBufferReader) (c : Chunk) {k : ℤ} (hk : 0 < k) :
    ¬BackUpLaw r c k := by
  rintro ⟨r₁, hr₁, hcount, -⟩
  rw [byteCount_backUp hr₁] at hcount
  omega

/-- What `Next` returns does not depend on `totaly`. -/
theorem nextReturns_congr {r₁ r₂ : NgxChainBufferReader} {c : Option Chunk}
    (hchain : r₁.chain = r₂.chain) (h : NextReturns r₁ c r') :
    ∃ r'', NextReturns r₂ c r'' ∧ r'.chain = r''.chain := by
  have hne : r₁.chain ≠ [] := by
    intro hnil
    obtain ⟨fuel, hf⟩ := h
    simp [next, hnil] at hf
  obtain ⟨x, hx, he⟩ := (nextReturns_iff hne).mp h
  rw [hchain] at hx hne
  cases x with
  | none =>
    obtain ⟨rfl, rfl⟩ := Prod.mk.inj he
    exact ⟨r₂, (nextReturns_iff hne).mpr ⟨none, hx, rfl⟩, hchain⟩
  | some ib =>
    obtain ⟨rfl, rfl⟩ := Prod.mk.inj he
    refine ⟨_, (nextReturns_iff hne).mpr ⟨some ib, hx, rfl⟩, ?_⟩
    simp [deliver, hchain]

theorem sameReads_of_chain {r₁ r₂ : NgxChainBufferReader} (hchain : r₁.chain = r₂.chain) :
    SameReads r₁ r₂ := by
  have hone : ∀ {r₁ r₂ : NgxChainBufferReader} {cs : List (Option Chunk)},
      r₁.chain = r₂.chain → (∃ r', Nexts r₁ cs r') → ∃ r', Nexts r₂ cs r' := by
    rintro r₁ r₂ cs hchain ⟨r', h⟩
    induction h generalizing r₂ with
    | nil r => exact ⟨r₂, .nil r₂⟩
    | cons hn _ ih =>
      obtain ⟨r₃, hr₃, hchain₃⟩ := nextReturns_congr hchain hn
      obtain ⟨r'', hr''⟩ := ih hchain₃
      exact ⟨r'', .cons hr₃ hr''⟩
  exact fun cs => ⟨hone hchain, hone hchain.symm⟩

/-- The last bytes of a chunk are those before `last`. -/
theorem at_sub (hmem : b.InMemory) {k : ℤ} (hk : 0 ≤ k) (hle : k ≤ b.last - b.pos) :
    (b.at_ (b.last - k)).take k.toNat =
      b.content.drop (b.content.length - k.toNat) := by
  have hlen := hmem.length_content
  have hstart := hmem.start_le
  have hpos : b.content.length - k.toNat = (b.last - b.pos).toNat - k.toNat := by omega
  rw [hpos]
  unfold NgxBuf.content NgxBuf.at_
  rw [List.drop_take, List.drop_drop]
  congr 1
  · omega
  · congr 1
    omega

/-- After a chunk of the first link everything but `ByteCount` is as the law says. -/
theorem backUp_first {r₀ : NgxChainBufferReader} {c : Chunk} {k : ℤ}
    (hchain : r₀.chain = l :: ls) (hl : l.buf = some b) (hmem : b.InMemory)
    (hb : b.pos ≠ b.last) (hsize : b.last - b.pos < 2 ^ 31)
    (hc : NextReturns r₀ (some c) r) (hk : 0 < k) (hle : k ≤ c.size) :
    ∃ r₁, r.backUp k = .ok r₁ ∧ r₁.byteCount = r.byteCount ∧
      ∃ c' r₂, NextReturns r₁ (some c') r₂ ∧ c'.size = k ∧
        c'.bytes = c.bytes.drop (c.bytes.length - k.toNat) ∧ SameReads r r₂ := by
  have hpos := hmem.pos_le
  obtain ⟨hchunk, rfl⟩ := (nextReturns_first hchain hl hmem.inFile hb _ _).mp hc
  obtain rfl := Option.some.inj hchunk
  have hle : k ≤ b.last - b.pos := by
    simpa [deliver, CInt.int_of_range (show -2 ^ 31 ≤ b.last - b.pos by omega) hsize] using hle
  have hint : CInt.int k = k := CInt.int_of_range (by omega) (by omega)
  have hbytes : (r₀.deliver 0 b).1.bytes = b.content := (deliver_bytes hmem 0).mpr hsize
  have hafter : (r₀.deliver 0 b).2.chain =
      { l with buf := some { b with pos := b.last } } :: ls := by
    simp [deliver, hchain]
  have hback : (r₀.deliver 0 b).2.backUp k = .ok { (r₀.deliver 0 b).2 with
      chain := { l with buf := some { b with pos := b.last - k } } :: ls } := by
    simp [backUp, hafter]
  have hne : ({ b with pos := b.last - k } : NgxBuf).pos ≠ b.last := by
    show b.last - k ≠ b.last
    omega
  refine ⟨_, hback, rfl, _, _,
    (nextReturns_first (b := { b with pos := b.last - k }) rfl rfl hmem.inFile hne _ _).mpr
      ⟨rfl, rfl⟩, ?_, ?_, ?_⟩
  · simp [deliver, hint]
  · rw [hbytes, ← at_sub hmem (by omega) hle]
    simp [deliver, Chunk.bytes, hint, NgxBuf.at_]
  · apply sameReads_of_chain
    rw [hafter]
    simp [deliver]

/-- A reader that has delivered three bytes backs up one. -/
theorem not_backUpLaw_one :
    ∃ r : NgxChainBufferReader,
      NextReturns (new [⟨0, some (bufferOf [1, 2, 3])⟩]) (some ⟨[1, 2, 3], 3⟩) r ∧
        ¬BackUpLaw r ⟨[1, 2, 3], 3⟩ 1 := by
  refine ⟨_, ⟨1, rfl⟩, ?_⟩
  rintro ⟨r₁, hr₁, hcount, -⟩
  rw [byteCount_backUp hr₁] at hcount
  revert hcount
  decide

theorem not_backUpLaw_three :
    ∃ r : NgxChainBufferReader,
      NextReturns (new [⟨0, some (bufferOf [1, 2, 3])⟩]) (some ⟨[1, 2, 3], 3⟩) r ∧
        ¬BackUpLaw r ⟨[1, 2, 3], 3⟩ 3 :=
  ⟨_, ⟨1, rfl⟩, not_backUpLaw _ _ (by decide)⟩

/-! ## Skipping -/

/-- The bytes a reader has not delivered yet. -/
def unread (r : NgxChainBufferReader) : List UInt8 := content r.chain

/-- `Skip(count)` on a stream of `total` bytes. -/
def SkipLaw (total : ℕ) (r : NgxChainBufferReader) (count : ℤ) : Prop :=
  ∃ ok r', r.skip count = .ok (ok, r') ∧ (ok = true ↔ count ≤ r.unread.length) ∧
    if ok then r'.unread = r.unread.drop count.toNat ∧ r'.byteCount = r.byteCount + count
    else r'.unread = [] ∧ r'.byteCount = total

/-- The first link holds `n` unread bytes and `ls` follow: what `Skip(count)` comes to. -/
theorem skip_cases {count : ℤ} (hchain : r.chain = l :: ls) (hl : l.buf = some b)
    (hmem : b.InMemory) (h0 : 0 ≤ count) :
    (CInt.int l.content.length < count ∧ ls = [] ∧ r.skip count = .error .nullDereference) ∨
      (CInt.int l.content.length < count ∧ ls ≠ [] ∧ r.skip count =
        .ok (false, ⟨r.passed ++ [l], ls, CInt.unsigned (r.totaly + l.content.length)⟩)) ∨
      (count ≤ CInt.int l.content.length ∧ r.skip count = .ok (true, { r with
        chain := { l with buf := some { b with pos := b.pos + count } } :: ls })) := by
  have hlen : (l.content.length : ℤ) = b.last - b.pos := by
    simpa [Link.content, hl] using hmem.length_content
  have hneg : ¬count < 0 := by omega
  rw [hlen]
  by_cases hsize : CInt.int (b.last - b.pos) < count
  · by_cases hls : ls = []
    · exact Or.inl ⟨hsize, hls, by simp [skip, hchain, hl, hneg, hmem.inFile, hsize, hls]⟩
    · refine Or.inr (Or.inl ⟨hsize, hls, ?_⟩)
      simp [skip, hchain, hl, hneg, hmem.inFile, hsize, hls]
  · refine Or.inr (Or.inr ⟨by omega, ?_⟩)
    simp [skip, hchain, hl, hneg, hmem.inFile, hsize]

/-- Skipping nothing leaves the unread bytes. -/
theorem skipLaw_zero {total : ℕ} (hchain : r.chain = l :: ls) (hl : l.buf = some b)
    (hskip : r.skip 0 = .ok (true, { r with
      chain := { l with buf := some { b with pos := b.pos + 0 } } :: ls })) :
    SkipLaw total r 0 := by
  refine ⟨true, _, hskip, by simp, ?_⟩
  simp [unread, hchain, Link.content, hl, byteCount]

/-- For every reader of in-memory buffers, `Skip(count)` keeps the law only when it skips
nothing, or when the stream ends in the first of several links before `count` bytes. -/
theorem skipLaw_iff {total : ℕ} {count : ℤ} (hne : r.chain ≠ []) (hmem : InMemory r.chain)
    (h0 : 0 ≤ count) (hint : count < 2 ^ 31) :
    SkipLaw total r count ↔
      (count = 0 ∧ 0 ≤ CInt.int (content (r.chain.take 1)).length) ∨
        ((r.unread.length : ℤ) < count ∧ r.chain.tail ≠ [] ∧ content r.chain.tail = [] ∧
          CInt.unsigned (r.totaly + r.unread.length) = total) := by
  obtain ⟨l, ls, hchain⟩ := List.exists_cons_of_ne_nil hne
  obtain ⟨b, hl, hb⟩ := hmem l (by simp [hchain])
  have hunread : r.unread = l.content ++ content ls := by simp [unread, hchain]
  have hfirst : content (r.chain.take 1) = l.content := by simp [hchain]
  have hsmall : (r.unread.length : ℤ) < count →
      CInt.int l.content.length = l.content.length := by
    intro hlt
    rw [hunread, List.length_append] at hlt
    exact CInt.int_of_range (by omega) (by omega)
  rw [hfirst, hchain, List.tail_cons]
  obtain ⟨hsize, hls, hskip⟩ | ⟨hsize, hls, hskip⟩ | ⟨hsize, hskip⟩ :=
    skip_cases hchain hl hb h0
  · -- the `NULL` link is dereferenced
    have hno : ¬SkipLaw total r count := by
      rintro ⟨ok, r', hok, -⟩
      rw [hskip] at hok
      cases hok
    apply iff_of_false hno
    rintro (⟨rfl, hpos⟩ | ⟨-, hls', -⟩)
    · omega
    · exact hls' hls
  · -- `false` is returned at the second link
    have hlaw : SkipLaw total r count ↔ (r.unread.length : ℤ) < count ∧ content ls = [] ∧
        CInt.unsigned (r.totaly + l.content.length) = total := by
      constructor
      · rintro ⟨ok, r', hok, hiff, hend⟩
        rw [hskip] at hok
        cases hok
        have hlt : ¬count ≤ r.unread.length := fun hle => by simpa using hiff.mpr hle
        exact ⟨by omega, hend⟩
      · rintro ⟨hlt, hend⟩
        refine ⟨false, _, hskip, ?_, hend⟩
        have hnle : ¬count ≤ r.unread.length := by omega
        simp [hnle]
    rw [hlaw]
    constructor
    · rintro ⟨hlt, hnil, htotal⟩
      exact Or.inr ⟨hlt, hls, hnil, by simpa [hunread, hnil] using htotal⟩
    · rintro (⟨rfl, hpos⟩ | ⟨hlt, -, hnil, htotal⟩)
      · omega
      · exact ⟨hlt, hnil, by simpa [hunread, hnil] using htotal⟩
  · -- `pos` moves on in the first link, `totaly` does not
    have hlt : ¬((r.unread.length : ℤ) < count ∧ ls ≠ [] ∧ content ls = [] ∧
        CInt.unsigned (r.totaly + r.unread.length) = total) := by
      rintro ⟨hlt, -⟩
      have hsame := hsmall hlt
      rw [hunread, List.length_append] at hlt
      omega
    constructor
    · rintro ⟨ok, r', hok, -, hkept⟩
      rw [hskip] at hok
      cases hok
      have hcount : r.totaly = r.totaly + count := hkept.2
      exact Or.inl ⟨by omega, by omega⟩
    · rintro (⟨rfl, -⟩ | hlt')
      · exact skipLaw_zero hchain hl hskip
      · exact absurd hlt' hlt

/-- The first of two links is shorter than what is skipped, and the second one is empty. -/
theorem skipLaw_iff_two_links :
    SkipLaw 1 (new [⟨0, some (bufferOf [1])⟩, ⟨0, some (bufferOf [])⟩]) 2 :=
  (skipLaw_iff (by decide) (fun l hl => by
    obtain rfl | rfl : l = ⟨0, some (bufferOf [1])⟩ ∨ l = ⟨0, some (bufferOf [])⟩ := by
      simpa [new] using hl
    · exact ⟨_, rfl, ⟨rfl, by decide, by decide, by decide⟩⟩
    · exact ⟨_, rfl, ⟨rfl, by decide, by decide, by decide⟩⟩) (by decide) (by decide)).mpr
    (Or.inr ⟨by decide, by decide, by decide, by decide⟩)

/-- Skipping one of three bytes is not counted. -/
theorem not_skipLaw_one : ¬SkipLaw 3 (new [⟨0, some (bufferOf [1, 2, 3])⟩]) 1 := by
  rintro ⟨ok, r', hok, -, hkept⟩
  obtain ⟨rfl, rfl⟩ := Prod.mk.inj (Except.ok.inj hok)
  revert hkept
  decide

/-- The readers of chain `ch` that calls of `Next` and `Skip` lead to. -/
inductive Reached (ch : List Link) : NgxChainBufferReader → Prop where
  | new : Reached ch (new ch)
  | next {r r' c} (h : Reached ch r) (hn : NextReturns r c r') : Reached ch r'
  | skip {r r' ok count} (h : Reached ch r) (h0 : 0 ≤ count) (hs : r.skip count = .ok (ok, r')) :
      Reached ch r'

/-- The chain stays one of in-memory buffers, and has a link. -/
theorem Reached.inMemory {ch : List Link} (hne : ch ≠ []) (hmem : InMemory ch)
    (h : Reached ch r) : r.chain ≠ [] ∧ InMemory r.chain := by
  induction h with
  | new => exact ⟨hne, hmem⟩
  | @next r r' c h hn ih =>
    obtain ⟨hne, hmem⟩ := ih
    obtain ⟨x, hx, he⟩ := (nextReturns_iff hne).mp hn
    cases x with
    | none =>
      obtain ⟨-, rfl⟩ := Prod.mk.inj he
      exact ⟨hne, hmem⟩
    | some ib =>
      obtain ⟨i, b⟩ := ib
      obtain ⟨-, rfl⟩ := Prod.mk.inj he
      obtain ⟨j, hj⟩ := hx.exists_stop
      obtain ⟨l, hl, hbuf, -⟩ := nextBody_inr hj
      obtain ⟨b', hb', hbmem⟩ := hmem l (List.mem_of_getElem? hl)
      obtain rfl : b = b' := Option.some.inj (hbuf.symm.trans hb')
      refine ⟨by simpa [deliver] using hne, ?_⟩
      intro k hk
      obtain ⟨m, hm⟩ := List.mem_iff_getElem?.mp hk
      simp only [deliver, List.getElem?_modify] at hm
      obtain ⟨k', hk', rfl⟩ := Option.map_eq_some_iff.mp hm
      split
      · refine ⟨_, rfl, ?_⟩
        have hpos := hbmem.pos_le
        simpa using hbmem.advance (k := b.last - b.pos) (by omega) le_rfl
      · exact hmem k' (List.mem_of_getElem? hk')
  | @skip r r' ok count h h0 hs ih =>
    obtain ⟨hne, hmem⟩ := ih
    obtain ⟨l, ls, hchain⟩ := List.exists_cons_of_ne_nil hne
    obtain ⟨b, hl, hb⟩ := hmem l (by simp [hchain])
    obtain ⟨-, -, hskip⟩ | ⟨-, hls, hskip⟩ | ⟨hsize, hskip⟩ := skip_cases hchain hl hb h0
    · rw [hskip] at hs
      cases hs
    · rw [hskip] at hs
      cases hs
      exact ⟨hls, fun k hk => hmem k (by simp [hchain, hk])⟩
    · rw [hskip] at hs
      cases hs
      refine ⟨by simp, ?_⟩
      intro k hk
      obtain rfl | hk := List.mem_cons.mp hk
      · have hlen : (l.content.length : ℤ) = b.last - b.pos := by
          simpa [Link.content, hl] using hb.length_content
        have hle := CInt.int_le (show 0 ≤ (l.content.length : ℤ) by omega)
        exact ⟨_, rfl, hb.advance h0 (by omega)⟩
      · exact hmem k (by simp [hchain, hk])

end NgxChainBufferReader

end NgxRpc
