import NgxRpc.Buffer
import NgxRpc.Foundation.Loop
import NgxRpc.Foundation.SlabPool

/-!
# NgxChainBufferReader

The reader that hands the bytes of a chain to the protobuf parser. `Next` never
moves the `chain` pointer of the reader: it looks at the first link and, when
that is used up, at the second one. With one link the reader delivers the whole
chain; with two or more it never reports the end of the stream, because its loop
does not end once both buffers are used up.

## Main definitions

- `NgxChainBufferReader`, `next` — the reader and its `Next`
- `Delivers` — calls of `Next` until it returns `false`

## Main results

- `readsAll_iff` — the chains the reader reads to their end
-/

namespace NgxRpc
open Loop SlabPool

/-- What `Next` stores through its out parameters: the memory `data` points to,
and `size`. -/
structure Chunk where
  data : List UInt8
  size : ℤ
deriving DecidableEq

/-- The bytes the caller reads. -/
def Chunk.bytes (c : Chunk) : List UInt8 := c.data.take c.size.toNat

/-- `NgxChainBufferReader`: the links its `chain` pointer has moved over, the
chain from that pointer on, and `totaly`. -/
structure NgxChainBufferReader where
  passed : List Link
  chain : List Link
  totaly : ℤ
deriving DecidableEq

namespace NgxChainBufferReader

/-- The constructor. -/
def new (ch : List Link) : NgxChainBufferReader := ⟨[], ch, 0⟩

/-- One round of the loop in `Next`: `cur_buf` is the buffer of link `i`. The loop
is left with `none` when `Next` returns `false`, and with a buffer to deliver
otherwise. -/
def nextBody (chain : List Link) (i : ℕ) : ℕ ⊕ Option (ℕ × NgxBuf) :=
  match chain[i]?.bind Link.buf with
  | none => .inr none
  | some curBuf =>
    if curBuf.inFile then .inr none
    else if curBuf.pos = curBuf.last then
      -- `chain->next->buf`, whichever buffer is used up
      if chain.tail = [] then .inr none else .inl 1
    else .inr (some (i, curBuf))

/-- The assignments of `Next` when it delivers buffer `curBuf` of link `i`. -/
def deliver (r : NgxChainBufferReader) (i : ℕ) (curBuf : NgxBuf) :
    Chunk × NgxChainBufferReader :=
  let size := CInt.int (curBuf.last - curBuf.pos)
  (⟨curBuf.at_ curBuf.pos, size⟩,
    { r with
      chain := r.chain.modify i fun l => { l with buf := some { curBuf with pos := curBuf.last } }
      totaly := CInt.unsigned (r.totaly + size) })

/-- The chunk and the reader after the loop of `Next`. -/
def outcome (r : NgxChainBufferReader) :
    Option (ℕ × NgxBuf) → Option Chunk × NgxChainBufferReader
  | none => (none, r)
  | some (i, curBuf) => (some (r.deliver i curBuf).1, (r.deliver i curBuf).2)

/-- `Next`, given at most `fuel` rounds of its loop. The result is `none` when the
loop is still running then. -/
def next (fuel : ℕ) (r : NgxChainBufferReader) :
    Option (Except Stop (Option Chunk × NgxChainBufferReader)) :=
  match r.chain with
  | [] => some (.error .nullDereference)
  | _ :: _ => (loop (nextBody r.chain) fuel 0).map fun x => .ok (r.outcome x)

/-- `Next` returns with chunk `c`, or with `false` when that is `none`. -/
def NextReturns (r : NgxChainBufferReader) (c : Option Chunk) (r' : NgxChainBufferReader) :
    Prop :=
  ∃ fuel, r.next fuel = some (.ok (c, r'))

/-- `BackUp`. -/
def backUp (r : NgxChainBufferReader) (count : ℤ) : Except Stop NgxChainBufferReader :=
  match r.chain with
  | [] => .error .nullDereference
  | l :: ls =>
    match l.buf with
    | none => .error .nullDereference
    | some b => .ok { r with chain := { l with buf := some { b with pos := b.pos - count } } :: ls }

/-- `Skip`. After a buffer that is too short, `cur_buf` is `NULL` when there is a next
link, and is read through a `NULL` link otherwise, so the loop has one round. -/
def skip (r : NgxChainBufferReader) (count : ℤ) : Except Stop (Bool × NgxChainBufferReader) :=
  match r.chain with
  | [] => .error .nullDereference
  | l :: ls =>
    match l.buf with
    | none => .ok (false, r)
    | some curBuf =>
      let curSize := CInt.int (curBuf.last - curBuf.pos)
      if count < 0 || curBuf.inFile then .ok (false, r)
      else if curSize < count then
        if ls = [] then .error .nullDereference
        else .ok (false, ⟨r.passed ++ [l], ls, CInt.unsigned (r.totaly + curSize)⟩)
      else .ok (true, { r with
        chain := { l with buf := some { curBuf with pos := curBuf.pos + count } } :: ls })

/-- `ByteCount`. -/
def byteCount (r : NgxChainBufferReader) : ℤ := r.totaly

/-- Calling `Next` until it returns `false` delivers the chunks `cs`. -/
inductive Delivers : NgxChainBufferReader → List Chunk → NgxChainBufferReader → Prop where
  | done {r r'} (h : NextReturns r none r') : Delivers r [] r'
  | more {r r₁ r' c cs} (h : NextReturns r (some c) r₁) (hcs : Delivers r₁ cs r') :
      Delivers r (c :: cs) r'

/-- Reading chain `ch` to its end terminates, delivers all its bytes in order, and
`ByteCount` is their number. -/
def ReadsAll (ch : List Link) : Prop :=
  ∃ cs r', Delivers (new ch) cs r' ∧ cs.flatMap Chunk.bytes = content ch ∧
    r'.byteCount = (content ch).length

variable {r r' : NgxChainBufferReader} {l : Link} {b : NgxBuf}

theorem nextReturns_iff {c : Option Chunk} (h : r.chain ≠ []) :
    NextReturns r c r' ↔ ∃ x, Returns (nextBody r.chain) 0 x ∧ r.outcome x = (c, r') := by
  have hnext : ∀ fuel, r.next fuel =
      (loop (nextBody r.chain) fuel 0).map fun x => .ok (r.outcome x) := by
    intro fuel
    rw [next]
    split
    · contradiction
    · rfl
  constructor
  · rintro ⟨fuel, hf⟩
    rw [hnext] at hf
    obtain ⟨x, hx, he⟩ := Option.map_eq_some_iff.mp hf
    exact ⟨x, ⟨fuel, hx⟩, Except.ok.inj he⟩
  · rintro ⟨x, ⟨fuel, hx⟩, he⟩
    exact ⟨fuel, by rw [hnext, hx, Option.map_some, he]⟩

theorem nextBody_inl {chain : List Link} {i j : ℕ} (h : nextBody chain i = .inl j) : j = 1 := by
  simp only [nextBody] at h
  split at h <;> try cases h
  split at h <;> try cases h
  split at h <;> try cases h
  split at h <;> cases h
  rfl

/-- The loop is left with a buffer of the chain that is in memory. -/
theorem nextBody_inr {chain : List Link} {i j : ℕ} (h : nextBody chain i = .inr (some (j, b))) :
    ∃ l, chain[j]? = some l ∧ l.buf = some b ∧ b.inFile = false := by
  simp only [nextBody] at h
  split at h
  · cases h
  · next curBuf hcur =>
    split at h
    · cases h
    · next hfile =>
      split at h
      · split at h <;> cases h
      · simp only [Sum.inr.injEq, Option.some.injEq, Prod.mk.injEq] at h
        obtain ⟨rfl, rfl⟩ := h
        obtain ⟨l, hl, hbuf⟩ := Option.bind_eq_some_iff.mp hcur
        exact ⟨l, hl, hbuf, by simpa using hfile⟩

/-- Two rounds of the loop decide whether `Next` returns. -/
theorem nextReturns_iff_two {c : Option Chunk} (hne : r.chain ≠ []) :
    NextReturns r c r' ↔ r.next 2 = some (.ok (c, r')) := by
  refine ⟨fun h => ?_, fun h => ⟨2, h⟩⟩
  obtain ⟨x, hx, he⟩ := (nextReturns_iff hne).mp h
  have hloop : loop (nextBody r.chain) 2 0 = some x := by
    cases h0 : nextBody r.chain 0 with
    | inr y =>
      rw [(returns_stop_iff h0).mp hx]
      exact loop_stop h0 1
    | inl j =>
      obtain rfl := nextBody_inl h0
      have hx1 := (returns_next_iff h0).mp hx
      cases h1 : nextBody r.chain 1 with
      | inr y =>
        rw [(returns_stop_iff h1).mp hx1]
        exact (loop_next h0 1).trans (loop_stop h1 0)
      | inl k =>
        obtain rfl := nextBody_inl h1
        exact absurd hx1 (not_returns_of_fixed h1)
  rw [next]
  split
  · contradiction
  · rw [hloop, Option.map_some, he]

theorem NextReturns.ne_nil {c : Option Chunk} (h : NextReturns r c r') : r.chain ≠ [] := by
  obtain ⟨fuel, hf⟩ := h
  intro he
  simp [next, he] at hf

/-- `Next` has one result. -/
theorem NextReturns.unique {c₁ c₂ : Option Chunk} {r₁ r₂ : NgxChainBufferReader}
    (h₁ : NextReturns r c₁ r₁) (h₂ : NextReturns r c₂ r₂) : c₁ = c₂ ∧ r₁ = r₂ := by
  have hne := h₁.ne_nil
  rw [nextReturns_iff_two hne] at h₁ h₂
  rw [h₁] at h₂
  simpa using h₂

/-- A chain is read in one way. -/
theorem Delivers.unique {cs₁ cs₂ : List Chunk} {r₁ r₂ : NgxChainBufferReader}
    (h₁ : Delivers r cs₁ r₁) (h₂ : Delivers r cs₂ r₂) : cs₁ = cs₂ ∧ r₁ = r₂ := by
  induction h₁ generalizing cs₂ with
  | done h =>
    cases h₂ with
    | done h' => exact ⟨rfl, (h.unique h').2⟩
    | more h' _ => cases (h.unique h').1
  | more h _ ih =>
    cases h₂ with
    | done h' => cases (h.unique h').1
    | more h' hcs' =>
      obtain ⟨hc, rfl⟩ := h.unique h'
      cases hc
      obtain ⟨rfl, rfl⟩ := ih hcs'
      exact ⟨rfl, rfl⟩

/-- A first buffer that is not used up is delivered. -/
theorem nextReturns_first {ls : List Link} (hchain : r.chain = l :: ls) (hl : l.buf = some b)
    (hin : b.inFile = false) (hb : b.pos ≠ b.last) (c : Option Chunk)
    (r' : NgxChainBufferReader) :
    NextReturns r c r' ↔ c = some (r.deliver 0 b).1 ∧ r' = (r.deliver 0 b).2 := by
  have hbody : nextBody r.chain 0 = .inr (some (0, b)) := by
    simp [hchain, nextBody, hl, hin, hb]
  rw [nextReturns_iff (by simp [hchain])]
  simp only [returns_stop_iff hbody, exists_eq_left, outcome, Prod.mk.injEq]
  exact ⟨fun h => ⟨h.1.symm, h.2.symm⟩, fun h => ⟨h.1.symm, h.2.symm⟩⟩

/-- A loop that delivers nothing leaves the reader as it is. -/
theorem nextReturns_none (hne : r.chain ≠ [])
    (h : ∀ x, Returns (nextBody r.chain) 0 x ↔ x = none) (c : Option Chunk)
    (r' : NgxChainBufferReader) : NextReturns r c r' ↔ c = none ∧ r' = r := by
  rw [nextReturns_iff hne]
  simp only [h, exists_eq_left, outcome, Prod.mk.injEq]
  exact ⟨fun h => ⟨h.1.symm, h.2.symm⟩, fun h => ⟨h.1.symm, h.2.symm⟩⟩

/-- A first buffer in a file ends the stream. -/
theorem nextReturns_inFile {ls : List Link} (hchain : r.chain = l :: ls) (hl : l.buf = some b)
    (hin : b.inFile = true) (c : Option Chunk) (r' : NgxChainBufferReader) :
    NextReturns r c r' ↔ c = none ∧ r' = r := by
  have hbody : nextBody r.chain 0 = .inr none := by simp [hchain, nextBody, hl, hin]
  exact nextReturns_none (by simp [hchain]) (fun x => returns_stop_iff hbody) c r'

theorem delivers_nil (h : ∀ c r', NextReturns r c r' ↔ c = none ∧ r' = r) {cs : List Chunk} :
    Delivers r cs r' ↔ cs = [] ∧ r' = r := by
  constructor
  · intro hd
    cases hd with
    | done hn => exact ⟨rfl, ((h _ _).mp hn).2⟩
    | more hn _ => simp [h] at hn
  · rintro ⟨rfl, rfl⟩
    exact .done ((h _ _).mpr ⟨rfl, rfl⟩)

theorem delivers_cons {r₁ : NgxChainBufferReader} {k : Chunk}
    (h : ∀ c r', NextReturns r c r' ↔ c = some k ∧ r' = r₁) {cs : List Chunk} :
    Delivers r cs r' ↔ ∃ cs', cs = k :: cs' ∧ Delivers r₁ cs' r' := by
  constructor
  · intro hd
    cases hd with
    | done hn => simp [h] at hn
    | more hn hcs =>
      obtain ⟨hc, rfl⟩ := (h _ _).mp hn
      exact ⟨_, by rw [Option.some.inj hc], hcs⟩
  · rintro ⟨cs', rfl, hcs⟩
    exact .more ((h _ _).mpr ⟨rfl, rfl⟩) hcs

/-! ## The stream ends after the first buffer -/

/-- The reader finds no buffer in `ls` to go on with. -/
def EndsBefore (ls : List Link) : Prop := ∀ b ∈ ls.head?.bind Link.buf, b.inFile = true

/-- A first buffer that is used up ends the stream. -/
theorem nextReturns_used {ls : List Link} (hchain : r.chain = l :: ls) (hl : l.buf = some b)
    (hin : b.inFile = false) (hb : b.pos = b.last) (hend : EndsBefore ls) (c : Option Chunk)
    (r' : NgxChainBufferReader) : NextReturns r c r' ↔ c = none ∧ r' = r := by
  refine nextReturns_none (by simp [hchain]) (fun x => ?_) c r'
  cases ls with
  | nil => exact returns_stop_iff (by simp [hchain, nextBody, hl, hin, hb])
  | cons l' ls =>
    have hnext : nextBody r.chain 0 = .inl 1 := by simp [hchain, nextBody, hl, hin, hb]
    rw [returns_next_iff hnext]
    apply returns_stop_iff
    cases hl' : l'.buf with
    | none => simp [hchain, nextBody, hl']
    | some b' =>
      have hin' : b'.inFile = true := hend b' (by simp [hl'])
      simp [hchain, nextBody, hl', hin']

theorem deliver_chain {ls : List Link} (b : NgxBuf) (hchain : r.chain = l :: ls) :
    (r.deliver 0 b).2.chain = { l with buf := some { b with pos := b.last } } :: ls := by
  simp [deliver, hchain]

/-- The first buffer is delivered in at most one chunk, and nothing after it. -/
theorem delivers_first {ls : List Link} (hchain : r.chain = l :: ls) (hl : l.buf = some b)
    (hin : b.inFile = false) (hend : EndsBefore ls) {cs : List Chunk} : Delivers r cs r' ↔
      if b.pos = b.last then cs = [] ∧ r' = r
      else cs = [(r.deliver 0 b).1] ∧ r' = (r.deliver 0 b).2 := by
  split
  · next hb => exact delivers_nil (nextReturns_used hchain hl hin hb hend)
  · next hb =>
    have hused := nextReturns_used (deliver_chain b hchain) rfl hin rfl hend
    rw [delivers_cons (nextReturns_first hchain hl hin hb)]
    simp only [delivers_nil hused]
    constructor
    · rintro ⟨cs', rfl, rfl, rfl⟩
      exact ⟨rfl, rfl⟩
    · rintro ⟨rfl, rfl⟩
      exact ⟨[], rfl, rfl, rfl⟩

/-- The bytes of a chunk are as many bytes of the buffer as its size says. -/
theorem deliver_take (hmem : b.InMemory) (i : ℕ) :
    (r.deliver i b).1.bytes = b.content.take (CInt.int b.content.length).toNat := by
  have hpos := hmem.pos_le
  have hlen := hmem.length_content
  have hle := CInt.int_le (show 0 ≤ b.last - b.pos by omega)
  rw [hlen]
  simp only [deliver, Chunk.bytes, NgxBuf.content, List.take_take]
  rw [Nat.min_eq_left (by omega)]

theorem deliver_bytes (hmem : b.InMemory) (i : ℕ) :
    (r.deliver i b).1.bytes = b.content ↔ b.last - b.pos < 2 ^ 31 := by
  have hlen := hmem.length_content
  have hpos := hmem.pos_le
  rw [deliver_take hmem, List.take_eq_self_iff, hlen]
  constructor
  · intro h
    -- a longer buffer does not survive the conversion to `int`
    have hlt := CInt.int_lt (b.last - b.pos)
    omega
  · intro h
    rw [CInt.int_of_range (by omega) h]
    omega

theorem readsAll_one (hl : l.buf = some b) (hmem : b.InMemory) :
    ReadsAll [l] ↔ (content [l]).length < 2 ^ 31 := by
  have hlen := hmem.length_content
  have hcontent : content [l] = b.content := by simp [Link.content, hl]
  have hend : EndsBefore [] := by simp [EndsBefore]
  have hdel := fun cs r' =>
    (delivers_first rfl hl hmem.inFile hend : Delivers (new [l]) cs r' ↔ _)
  rw [ReadsAll, hcontent]
  by_cases hb : b.pos = b.last
  · have hnil := NgxBuf.content_eq_nil hb
    simp only [hdel, hb, if_true, hnil]
    exact iff_of_true ⟨[], new [l], ⟨rfl, rfl⟩, rfl, rfl⟩ (by simp)
  · simp only [hdel, hb, if_false]
    constructor
    · rintro ⟨cs, r', ⟨rfl, rfl⟩, hbytes, -⟩
      have hlt := (deliver_bytes hmem 0).mp (by simpa using hbytes)
      omega
    · intro hlt
      refine ⟨_, _, ⟨rfl, rfl⟩, ?_, ?_⟩
      · simpa using (deliver_bytes hmem 0).mpr (by omega)
      · simp only [deliver, byteCount, new, Int.zero_add]
        rw [CInt.int_of_range (by omega) (by omega), CInt.unsigned_of_range (by omega) (by omega)]
        exact hlen.symm

/-! ## Several links -/

/-- Neither the first nor the second buffer stops the loop of `Next`. -/
def Endless (r : NgxChainBufferReader) : Prop :=
  ∀ i < 2, ∃ b, r.chain[i]?.bind Link.buf = some b ∧ b.inFile = false

theorem Endless.two_le (h : r.Endless) : 2 ≤ r.chain.length := by
  obtain ⟨b, hb, -⟩ := h 1 (by decide)
  obtain ⟨l, hl, -⟩ := Option.bind_eq_some_iff.mp hb
  obtain ⟨hlt, -⟩ := List.getElem?_eq_some_iff.mp hl
  exact hlt

theorem Endless.ne_nil (h : r.Endless) : r.chain ≠ [] := by
  intro he
  simpa [he] using h.two_le

theorem Endless.not_false (h : r.Endless) : ¬NextReturns r none r' := by
  have htail : r.chain.tail ≠ [] := by
    intro he
    have hlen := congrArg List.length he
    simp only [List.length_tail, List.length_nil] at hlen
    have := h.two_le
    omega
  rw [nextReturns_iff h.ne_nil]
  rintro ⟨x, hx, he⟩
  cases x with
  | some y => simp [outcome] at he
  | none =>
    -- the loop only ever looks at the first two links, and both have buffers
    refine not_returns (fun i => i < 2) ?_ ?_ (by decide) hx
    · intro i i' _ hstep
      rw [nextBody_inl hstep]
      decide
    · intro i hi hstop
      obtain ⟨b, hb, hin⟩ := h i hi
      simp only [nextBody, hb, hin, htail, if_false, Bool.false_eq_true] at hstop
      split at hstop <;> cases hstop

theorem Endless.next {c : Chunk} (h : r.Endless) (hc : NextReturns r (some c) r') :
    r'.Endless := by
  obtain ⟨x, hx, he⟩ := (nextReturns_iff h.ne_nil).mp hc
  cases x with
  | none => simp [outcome] at he
  | some ib =>
    obtain ⟨i, b⟩ := ib
    obtain ⟨j, hj⟩ := hx.exists_stop
    obtain ⟨-, -, -, hin⟩ := nextBody_inr hj
    obtain rfl : (r.deliver i b).2 = r' := (Prod.mk.inj he).2
    intro k hk
    obtain ⟨b', hb', hin'⟩ := h k hk
    obtain ⟨l, hl, hbuf⟩ := Option.bind_eq_some_iff.mp hb'
    simp only [deliver, List.getElem?_modify, hl, Option.map_eq_map, Option.map_some,
      Option.bind_some]
    split
    · exact ⟨_, rfl, hin⟩
    · exact ⟨b', hbuf, hin'⟩

theorem Endless.not_delivers {cs : List Chunk} (h : r.Endless) : ¬Delivers r cs r' := by
  intro hd
  induction hd with
  | done hn => exact h.not_false hn
  | more hn _ ih => exact ih (h.next hn)

/-- The chain has a second link, and no buffer that stops the loop by itself. -/
structure Long (r : NgxChainBufferReader) : Prop where
  two : 2 ≤ r.chain.length
  readable : ∀ l ∈ r.chain, ∃ b, l.buf = some b ∧ b.inFile = false

theorem Long.endless (h : r.Long) : r.Endless := by
  intro i hi
  have hlt : i < r.chain.length := Nat.lt_of_lt_of_le hi h.two
  obtain ⟨b, hb, hin⟩ := h.readable r.chain[i] (List.getElem_mem hlt)
  exact ⟨b, by simp [List.getElem?_eq_getElem hlt, hb], hin⟩

/-- The reader reads a chain of in-memory buffers to its end, loses nothing and counts
right exactly when the chain has a single link with fewer than `2 ^ 31` bytes. -/
theorem readsAll_iff {ch : List Link} (hne : ch ≠ []) (hmem : NgxRpc.InMemory ch) :
    ReadsAll ch ↔ ch.length = 1 ∧ (content ch).length < 2 ^ 31 := by
  match ch, hne with
  | [l], _ =>
    obtain ⟨b, hl, hb⟩ := hmem l (List.mem_singleton.mpr rfl)
    rw [readsAll_one hl hb]
    simp
  | l :: l' :: ls, _ =>
    have hlong : (new (l :: l' :: ls)).Long := by
      refine ⟨by simp [new], fun k hk => ?_⟩
      obtain ⟨b, hl, hb⟩ := hmem k hk
      exact ⟨b, hl, hb.inFile⟩
    refine iff_of_false ?_ (by simp)
    rintro ⟨cs, r', hd, -⟩
    exact hlong.endless.not_delivers hd

theorem readsAll_iff_one_link :
    ReadsAll [⟨0, some (bufferOf [1, 2, 3])⟩] ↔
      [(⟨0, some (bufferOf [1, 2, 3])⟩ : Link)].length = 1 ∧
        (content [⟨0, some (bufferOf [1, 2, 3])⟩]).length < 2 ^ 31 :=
  readsAll_iff (by simp) fun l hl => by
    obtain rfl := List.mem_singleton.mp hl
    exact ⟨_, rfl, ⟨rfl, by decide, by decide, by decide⟩⟩

/-- A chain of two buffers with one byte each. -/
def twoLinks : List Link := [⟨0, some (bufferOf [1])⟩, ⟨0, some (bufferOf [2])⟩]

/-- It is never read to its end. -/
theorem not_readsAll_two_links : NgxRpc.InMemory twoLinks ∧ ¬ReadsAll twoLinks := by
  have hmem : NgxRpc.InMemory twoLinks := by
    intro l hl
    simp only [twoLinks, List.mem_cons, List.not_mem_nil, or_false] at hl
    rcases hl with rfl | rfl <;> exact ⟨_, rfl, ⟨rfl, by decide, by decide, by decide⟩⟩
  refine ⟨hmem, ?_⟩
  rintro ⟨cs, r', hd, -⟩
  have hlong : (new twoLinks).Long := by
    refine ⟨by decide, fun l hl => ?_⟩
    obtain ⟨b, hb, hin⟩ := hmem l hl
    exact ⟨b, hb, hin.inFile⟩
  exact hlong.endless.not_delivers hd

end NgxChainBufferReader

end NgxRpc
