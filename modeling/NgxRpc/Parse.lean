import NgxRpc.ReaderLaws

/-!
# Parsing a message through the reader

`ParseFromZeroCopyStream` pulls chunks out of a stream until the bytes it has seen cannot be the
beginning of a message any more, or the stream has ended. In the first case it gives the bytes it
has not used back to the stream. What it does with a chain follows from what `Next` does with the
first two links, as the reader never gets further.

## Main definitions

- `MessageParser` — the verdicts of a parser
- `Parse` — a parse through a reader

## Main results

- `parse_ended_iff`, `parse_chunk_iff` — one call of `Next`
- `exists_parse_second`, `exists_parse_first` — a parse of a chain
-/

namespace NgxRpc
open NgxChainBufferReader

/-- How `ParseFromZeroCopyStream` takes the bytes of a stream for a message of some type. On a
stream that begins with `bytes` the parse fails before the end, after `stop bytes` of them; if
it does not, `accept` is its verdict when the stream has ended. -/
structure MessageParser where
  stop : List UInt8 → Option ℕ
  accept : List UInt8 → Bool
  stop_pos : ∀ bytes n, stop bytes = some n → 0 < n
  stop_le : ∀ bytes n, stop bytes = some n → n ≤ bytes.length
  stop_append : ∀ bytes more n, stop bytes = some n → stop (bytes ++ more) = some n

namespace MessageParser

variable (P : MessageParser)

/-- The bytes are a message. -/
def Takes (bytes : List UInt8) : Prop := P.stop bytes = none ∧ P.accept bytes = true

/-- A parser that gives its verdict at the end of the stream. -/
def atEnd (accept : List UInt8 → Bool) : MessageParser :=
  ⟨fun _ => none, accept, by simp, by simp, by simp⟩

theorem stop_nil : P.stop [] = none := by
  cases h : P.stop [] with
  | none => rfl
  | some n =>
    have hpos := P.stop_pos [] n h
    have hle := P.stop_le [] n h
    exact absurd hle (Nat.not_le.mpr hpos)

end MessageParser

/-- A parse through a reader, with the bytes `seen` read so far: its verdict, the bytes the
message was parsed from, and the reader it leaves. A parse that fails before the end of the
stream gives the bytes it has not used back. Protobuf aborts on a chunk of negative size. -/
inductive Parse (P : MessageParser) :
    NgxChainBufferReader → List UInt8 → Bool → List UInt8 → NgxChainBufferReader → Prop where
  | ended {r seen r'} (h : NextReturns r none r') : Parse P r seen (P.accept seen) seen r'
  | stopped {r seen r₁ r' c n} (h : NextReturns r (some c) r₁) (hsize : 0 ≤ c.size)
      (hstop : P.stop (seen ++ c.bytes) = some n)
      (hback : r₁.backUp ((seen ++ c.bytes).length - n : ℕ) = .ok r') :
      Parse P r seen false ((seen ++ c.bytes).take n) r'
  | more {r seen r₁ ok used r' c} (h : NextReturns r (some c) r₁) (hsize : 0 ≤ c.size)
      (hgo : P.stop (seen ++ c.bytes) = none) (hrest : Parse P r₁ (seen ++ c.bytes) ok used r') :
      Parse P r seen ok used r'

section Parse

variable {P : MessageParser} {r r' r'' : NgxChainBufferReader} {seen used : List UInt8} {ok : Bool}

/-- A parse has one result. -/
theorem Parse.unique {ok' : Bool} {used' : List UInt8} (h : Parse P r seen ok used r')
    (h' : Parse P r seen ok' used' r'') : ok = ok' ∧ used = used' ∧ r' = r'' := by
  induction h with
  | ended hn =>
    cases h' with
    | ended hn' => exact ⟨rfl, rfl, (hn.unique hn').2⟩
    | stopped hn' => cases (hn.unique hn').1
    | more hn' => cases (hn.unique hn').1
  | stopped hn _ hstop hback =>
    cases h' with
    | ended hn' => cases (hn.unique hn').1
    | stopped hn' _ hstop' hback' =>
      obtain ⟨he, rfl⟩ := hn.unique hn'
      obtain rfl := Option.some.inj he
      obtain rfl := Option.some.inj (hstop.symm.trans hstop')
      exact ⟨rfl, rfl, Except.ok.inj (hback.symm.trans hback')⟩
    | more hn' _ hgo' =>
      obtain ⟨he, rfl⟩ := hn.unique hn'
      obtain rfl := Option.some.inj he
      cases hstop.symm.trans hgo'
  | more hn _ hgo _ ih =>
    cases h' with
    | ended hn' => cases (hn.unique hn').1
    | stopped hn' _ hstop' =>
      obtain ⟨he, rfl⟩ := hn.unique hn'
      obtain rfl := Option.some.inj he
      cases hgo.symm.trans hstop'
    | more hn' _ _ hrest' =>
      obtain ⟨he, rfl⟩ := hn.unique hn'
      obtain rfl := Option.some.inj he
      exact ih hrest'

/-- The message is parsed from nothing exactly when there is nothing to read. -/
theorem Parse.used_eq_nil_iff (h : Parse P r seen ok used r') : used = [] ↔
    seen = [] ∧ ∀ (cs : List Chunk) r'', Nexts r (cs.map some) r'' →
      cs.flatMap Chunk.bytes = [] := by
  induction h with
  | @ended r seen r' hn =>
    refine ⟨fun hnil => ⟨hnil, ?_⟩, fun h => h.1⟩
    intro cs r'' hcs
    cases cs with
    | nil => rfl
    | cons c cs =>
      cases hcs with
      | cons hc _ => cases (hn.unique hc).1
  | @stopped r seen r₁ r' c n hn hsize hstop hback =>
    have hpos := P.stop_pos _ n hstop
    have hle := P.stop_le _ n hstop
    apply iff_of_false
    · intro hnil
      have hlen := congrArg List.length hnil
      rw [List.length_take_of_le hle] at hlen
      exact hpos.ne' hlen
    · rintro ⟨rfl, hall⟩
      have hc : [c].flatMap Chunk.bytes = [] := hall [c] r₁ (.cons hn (.nil r₁))
      have hzero : ([] ++ c.bytes).length = 0 := by simpa using hc
      omega
  | @more r seen r₁ ok used r' c hn _ _ _ ih =>
    rw [ih]
    constructor
    · rintro ⟨hnil, hall⟩
      obtain ⟨hseen, hc⟩ := List.append_eq_nil_iff.mp hnil
      refine ⟨hseen, fun cs r'' hcs => ?_⟩
      cases cs with
      | nil => rfl
      | cons d cs =>
        cases hcs with
        | cons hd hcs =>
          obtain ⟨he, rfl⟩ := hn.unique hd
          obtain rfl := Option.some.inj he
          rw [List.flatMap_cons, hc, hall cs r'' hcs]
          rfl
    · rintro ⟨rfl, hall⟩
      have hc : [c].flatMap Chunk.bytes = [] := hall [c] r₁ (.cons hn (.nil r₁))
      have hbytes : c.bytes = [] := by simpa using hc
      refine ⟨by rw [hbytes]; rfl, fun cs r'' hcs => ?_⟩
      have hmore := hall (c :: cs) r'' (.cons hn hcs)
      rwa [List.flatMap_cons, hbytes, List.nil_append] at hmore

/-! ## One call of `Next` -/

/-- At the end of the stream the parser gives its verdict. -/
theorem parse_ended_iff (h : ∀ c r', NextReturns r c r' ↔ c = none ∧ r' = r) :
    (∃ r', Parse P r seen ok used r') ↔ ok = P.accept seen ∧ used = seen := by
  have hnone : NextReturns r none r := (h _ _).mpr ⟨rfl, rfl⟩
  constructor
  · rintro ⟨r', hparse⟩
    obtain ⟨hok, hused, -⟩ := hparse.unique (.ended hnone)
    exact ⟨hok, hused⟩
  · rintro ⟨rfl, rfl⟩
    exact ⟨r, .ended hnone⟩

/-- After a chunk the parse has failed, or goes on. -/
theorem parse_chunk_iff {k : Chunk} {r₁ : NgxChainBufferReader}
    (h : ∀ c r', NextReturns r c r' ↔ c = some k ∧ r' = r₁)
    (hback : ∀ n, ∃ r', r₁.backUp n = .ok r') :
    (∃ r', Parse P r seen ok used r') ↔ 0 ≤ k.size ∧
      ((∃ n, P.stop (seen ++ k.bytes) = some n ∧ ok = false ∧
          used = (seen ++ k.bytes).take n) ∨
        P.stop (seen ++ k.bytes) = none ∧ ∃ r', Parse P r₁ (seen ++ k.bytes) ok used r') := by
  have hchunk : NextReturns r (some k) r₁ := (h _ _).mpr ⟨rfl, rfl⟩
  constructor
  · rintro ⟨r', hparse⟩
    cases hparse with
    | ended hn => cases ((h _ _).mp hn).1
    | stopped hn hsize hstop hback =>
      obtain ⟨he, rfl⟩ := (h _ _).mp hn
      obtain rfl := Option.some.inj he
      exact ⟨hsize, Or.inl ⟨_, hstop, rfl, rfl⟩⟩
    | more hn hsize hgo hrest =>
      obtain ⟨he, rfl⟩ := (h _ _).mp hn
      obtain rfl := Option.some.inj he
      exact ⟨hsize, Or.inr ⟨hgo, _, hrest⟩⟩
  · rintro ⟨hsize, ⟨n, hstop, rfl, rfl⟩ | ⟨hgo, r', hrest⟩⟩
    · obtain ⟨r', hr'⟩ := hback ((seen ++ k.bytes).length - n : ℕ)
      exact ⟨r', .stopped hchunk hsize hstop hr'⟩
    · exact ⟨r', .more hchunk hsize hgo hrest⟩

/-- A parse begins with a call of `Next` that returns. -/
theorem Parse.next (h : Parse P r seen ok used r') : ∃ c r₁, NextReturns r c r₁ := by
  cases h with
  | ended hn => exact ⟨_, _, hn⟩
  | stopped hn => exact ⟨_, _, hn⟩
  | more hn => exact ⟨_, _, hn⟩

end Parse

/-! ## The first two links -/

/-- The bytes that `Next` gives out of a buffer: as many as its size in an `int` says. -/
def NgxBuf.given (b : NgxBuf) : List UInt8 := b.content.take (CInt.int b.content.length).toNat

section Links

variable {P : MessageParser} {r r' : NgxChainBufferReader} {seen used : List UInt8} {ok : Bool}
  {l l₂ : Link} {b b₂ : NgxBuf} {ls : List Link}

/-- A second buffer that is not used up is delivered after the first one. -/
theorem nextReturns_second (hchain : r.chain = l :: l₂ :: ls) (hl : l.buf = some b)
    (hin : b.inFile = false) (hb : b.pos = b.last) (hl₂ : l₂.buf = some b₂)
    (hin₂ : b₂.inFile = false) (hb₂ : b₂.pos ≠ b₂.last) (c : Option Chunk)
    (r' : NgxChainBufferReader) :
    NextReturns r c r' ↔ c = some (r.deliver 1 b₂).1 ∧ r' = (r.deliver 1 b₂).2 := by
  have h0 : nextBody r.chain 0 = .inl 1 := by simp [hchain, nextBody, hl, hin, hb]
  have h1 : nextBody r.chain 1 = .inr (some (1, b₂)) := by
    simp [hchain, nextBody, hl₂, hin₂, hb₂]
  rw [nextReturns_iff (by simp [hchain])]
  simp only [Loop.returns_next_iff h0, Loop.returns_stop_iff h1, exists_eq_left, outcome,
    Prod.mk.injEq]
  exact ⟨fun h => ⟨h.1.symm, h.2.symm⟩, fun h => ⟨h.1.symm, h.2.symm⟩⟩

/-- Two used buffers keep the loop of `Next` running. -/
theorem not_nextReturns_used {c : Option Chunk} (hchain : r.chain = l :: l₂ :: ls)
    (hl : l.buf = some b) (hin : b.inFile = false) (hb : b.pos = b.last)
    (hl₂ : l₂.buf = some b₂) (hin₂ : b₂.inFile = false) (hb₂ : b₂.pos = b₂.last) :
    ¬NextReturns r c r' := by
  have h0 : nextBody r.chain 0 = .inl 1 := by simp [hchain, nextBody, hl, hin, hb]
  have h1 : nextBody r.chain 1 = .inl 1 := by simp [hchain, nextBody, hl₂, hin₂, hb₂]
  rw [nextReturns_iff (by simp [hchain])]
  rintro ⟨x, hx, -⟩
  exact Loop.not_returns_of_fixed h1 ((Loop.returns_next_iff h0).mp hx)

theorem exists_backUp (hchain : r.chain = l :: ls) (hl : l.buf = some b) (count : ℤ) :
    ∃ r', r.backUp count = .ok r' := by
  rw [backUp]
  rw [hchain]
  simp [hl]

/-- Behind a first buffer that is used up, a second one is the last thing that the parser gets
to see: it rejects these bytes, or waits for more for ever. -/
theorem exists_parse_second (hchain : r.chain = l :: l₂ :: ls) (hl : l.buf = some b)
    (hin : b.inFile = false) (hb : b.pos = b.last) (hl₂ : l₂.buf = some b₂)
    (hmem₂ : b₂.InMemory) (hgo : P.stop seen = none) :
    (∃ r', Parse P r seen ok used r') ↔ ∃ n, P.stop (seen ++ b₂.given) = some n ∧ ok = false ∧
      used = (seen ++ b₂.given).take n := by
  by_cases hb₂ : b₂.pos = b₂.last
  · have hnil : b₂.given = [] := by simp [NgxBuf.given, NgxBuf.content_eq_nil hb₂]
    rw [hnil, List.append_nil, hgo]
    refine iff_of_false ?_ (by simp)
    rintro ⟨r', hparse⟩
    obtain ⟨c, r₁, hn⟩ := hparse.next
    exact not_nextReturns_used hchain hl hin hb hl₂ hmem₂.inFile hb₂ hn
  · have hafter : (r.deliver 1 b₂).2.chain =
        l :: { l₂ with buf := some { b₂ with pos := b₂.last } } :: ls := by
      simp [deliver, hchain]
    have hbytes : (r.deliver 1 b₂).1.bytes = b₂.given := deliver_take hmem₂ 1
    rw [parse_chunk_iff (nextReturns_second hchain hl hin hb hl₂ hmem₂.inFile hb₂)
      (exists_backUp hafter hl), hbytes]
    constructor
    · rintro ⟨-, hstop | ⟨-, r', hrest⟩⟩
      · exact hstop
      · -- both buffers are used now
        obtain ⟨c, r₁, hn⟩ := hrest.next
        exact absurd hn (not_nextReturns_used hafter hl hin hb rfl hmem₂.inFile rfl)
    · rintro ⟨n, hstop, hrest⟩
      refine ⟨?_, Or.inl ⟨n, hstop, hrest⟩⟩
      -- a negative size would give no byte to reject
      by_contra hneg
      have hint : CInt.int b₂.content.length < 0 := by
        rw [hmem₂.length_content]
        exact not_le.mp hneg
      have hnil : b₂.given = [] := by
        simp [NgxBuf.given, Int.toNat_of_nonpos hint.le]
      rw [hnil, List.append_nil, hgo] at hstop
      cases hstop

/-- The first buffer is given out before anything else is looked at. -/
theorem exists_parse_first (hchain : r.chain = l :: ls) (hl : l.buf = some b)
    (hmem : b.InMemory) :
    ∃ r₁, r₁.chain = { l with buf := some { b with pos := b.last } } :: ls ∧
      ∀ ok used, (∃ r', Parse P r [] ok used r') ↔ 0 ≤ CInt.int b.content.length ∧
        ((∃ n, P.stop b.given = some n ∧ ok = false ∧ used = b.given.take n) ∨
          P.stop b.given = none ∧ ∃ r', Parse P r₁ b.given ok used r') := by
  by_cases hb : b.pos = b.last
  · have hsame : { l with buf := some { b with pos := b.last } } = l := by
      cases l
      cases hl
      cases b
      cases hb
      rfl
    have hlen : CInt.int (b.content.length : ℤ) = 0 := by
      rw [NgxBuf.content_eq_nil hb]
      rfl
    have hnil : b.given = [] := by simp [NgxBuf.given, NgxBuf.content_eq_nil hb]
    refine ⟨r, by rw [hsame, hchain], fun ok used => ?_⟩
    simp [hlen, hnil, P.stop_nil]
  · have hbytes : (r.deliver 0 b).1.bytes = b.given := deliver_take hmem 0
    have hsize : (r.deliver 0 b).1.size = CInt.int b.content.length := by
      rw [hmem.length_content]
      rfl
    refine ⟨(r.deliver 0 b).2, deliver_chain b hchain, fun ok used => ?_⟩
    rw [parse_chunk_iff (nextReturns_first hchain hl hmem.inFile hb)
      (exists_backUp (deliver_chain b hchain) rfl), List.nil_append, hbytes, hsize]

end Links

end NgxRpc
