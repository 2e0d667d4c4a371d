import NgxRpc.Buffer
import NgxRpc.Foundation.SlabPool

/-!
# NgxShmChainBufferWriter

The writer that the protobuf serialiser fills with a message. Every `Next` appends
one region to the chain that starts in the task, the regions growing by 4096 bytes
each. `BackUp` trims the buffer the `chain` pointer of the writer points to. `Next`
does not move this pointer, so it is the first buffer of the chain that is trimmed,
not the last one.

## Main definitions

- `NgxShmChainBufferWriter`, `next`, `backUp` — the writer
-/

namespace NgxRpc
open SlabPool

/-- The sizes the code allocates on a 64-bit system. -/
def sizeofBuf : ℕ := 80
def sizeofChain : ℕ := 16

/-- The flag `in_file` of an `ngx_buf_t` in a block with the given bytes. -/
def staleInFile (bytes : List UInt8) : Bool := bytes.getD 72 0 &&& 16 != 0

/-- `*data` and `*size` of a call of `Next`. -/
structure Region where
  data : ℤ
  size : ℤ
deriving DecidableEq

/-- The link, with `last_buf` of its buffer cleared. -/
def Link.unmark (l : Link) : Link :=
  { l with buf := l.buf.map fun b => { b with lastBuf := false } }

theorem content_map_unmark (chain : List Link) :
    content (chain.map Link.unmark) = content chain := by
  induction chain with
  | nil => rfl
  | cons l ls ih =>
    rw [List.map_cons, content_cons, content_cons, ih]
    congr 1
    cases h : l.buf with
    | none => simp [Link.content, Link.unmark, h]
    | some b => simp [Link.content, Link.unmark, h, NgxBuf.content, NgxBuf.at_]

/-- `NgxShmChainBufferWriter`: the chain from `chain` on, `totaly` and `extends`. -/
structure NgxShmChainBufferWriter where
  chain : List Link
  totaly : ℤ
  extends_ : ℤ
deriving DecidableEq

namespace NgxShmChainBufferWriter

/-- `default_size`. -/
def defaultSize : ℤ := 4096

/-- The constructor, for a chain whose first link is at address `ch`. -/
def new (ch : ℤ) (ex : ℤ) : NgxShmChainBufferWriter := ⟨[⟨ch, none⟩], 0, ex⟩

/-- The size of the next region that is allocated. -/
def regionSize (extends_ : ℤ) : ℤ := CInt.int (CInt.unsigned (defaultSize * extends_))

/-- The branch of `Next` that allocates a new buffer for the link at `ptr`. When the
second allocation fails its `start` is `NULL`, and the caller gets this pointer. -/
def newBuf (S : Slab) (ptr : ℤ) (extends_ : ℤ) : SlabM (Link × Region × ℤ) := do
  let size := regionSize extends_
  let (b, stale) ← deref (← alloc S sizeofBuf)
  let start ← alloc S (size % 2 ^ 64).toNat
  let (start, mem) := start.getD (0, List.replicate size.toNat 0)
  access b
  access ptr
  pure (⟨ptr, some {
    addr := b
    start := start
    pos := start
    last := start + size
    end_ := start + size
    inFile := staleInFile stale
    lastBuf := true
    temporary := false
    memory := true
    mem := mem }⟩, ⟨start, size⟩, CInt.unsigned (extends_ + 1))

/-- `Next` on the chain that starts at link `ptr`: the links before the last one lose
`last_buf`; a full last buffer is followed by a new link. -/
def nextFrom (S : Slab) (extends_ : ℤ) : List Link → SlabM (List Link × Region × ℤ)
  | [] => throw .nullDereference
  | [ptr] => do
    access ptr.addr
    match ptr.buf with
    | none =>
      let (l, region, ex) ← newBuf S ptr.addr extends_
      pure ([l], region, ex)
    | some b => do
      access b.addr
      if b.last = b.end_ then
        let (next, _) ← deref (← alloc S sizeofChain)
        access ptr.addr
        access next
        let (l, region, ex) ← newBuf S next extends_
        pure ([ptr, l], region, ex)
      else
        pure ([{ ptr with buf := some { b with pos := b.last, last := b.end_ } }],
          ⟨b.last, CInt.int (b.end_ - b.last)⟩, extends_)
  -- not the last link yet: clear its `last_buf`
  | ptr :: l :: ls => do
    access ptr.addr
    let b ← deref ptr.buf
    access b.addr
    let (ls', region, ex) ← nextFrom S extends_ (l :: ls)
    pure ({ ptr with buf := some { b with lastBuf := false } } :: ls', region, ex)

/-- `Next`. -/
def next (S : Slab) (w : NgxShmChainBufferWriter) : SlabM (NgxShmChainBufferWriter × Region) := do
  let (chain, region, ex) ← nextFrom S w.extends_ w.chain
  pure (⟨chain, CInt.int (w.totaly + region.size), ex⟩, region)

/-- `BackUp`. -/
def backUp (w : NgxShmChainBufferWriter) (count : ℤ) : SlabM NgxShmChainBufferWriter :=
  match w.chain with
  | [] => throw .nullDereference
  | l :: ls => do
    let totaly := CInt.int (w.totaly - count)
    access l.addr
    let b ← deref l.buf
    access b.addr
    -- `chain` is still the first link
    let b := { b with last := b.last - count }
    assert (decide (b.pos ≤ b.last))
    assert (decide (0 ≤ totaly))
    pure { w with chain := { l with buf := some b } :: ls, totaly := totaly }

/-- `ByteCount`. -/
def byteCount (w : NgxShmChainBufferWriter) : ℤ := w.totaly

/-! ## One call of `Next` -/

/-- The buffer `Next` allocates as region number `k`, with bytes that satisfy `G`. -/
structure FreshBuf (G : UInt8 → Prop) (size : ℤ) (b : NgxBuf) : Prop where
  pos : b.pos = b.start
  last : b.last = b.end_
  end_ : b.end_ = b.start + size
  length : 0 ≤ size → b.mem.length = size.toNat
  stale : ∀ x ∈ b.mem, G x

section Spec

variable {S : Slab} {E : Stop → Prop} {G : UInt8 → Prop} {p : Pool}

theorem wp_newBuf (hroom : S.Unlimited ∨ E .nullDereference ∧ G 0)
    (hstale : ∀ p n, ∀ x ∈ S.stale p n, G x) {ptr ex : ℤ} {Q : Link × Region × ℤ → Pool → Prop}
    (hQ : ∀ b p', FreshBuf G (regionSize ex) b → 0 < b.start ∨ E .nullDereference →
      Q (⟨ptr, some b⟩, ⟨b.start, regionSize ex⟩, CInt.unsigned (ex + 1)) p') :
    wpStop E (newBuf S ptr ex) Q p := by
  simp only [newBuf, wp_bind]
  refine wp_alloc (fun hnone => ?_) fun a _ _ _ => ?_
  · obtain hroom | ⟨hnull, -⟩ := hroom
    · exact absurd hnone (hroom _ _)
    · exact hnull
  · simp only [wp_bind, wp_deref_some]
    refine wp_alloc (fun hnone => ?_) fun a' _ _ hpos => ?_
    · obtain hroom | ⟨hnull, hzero⟩ := hroom
      · exact absurd hnone (hroom _ _)
      · simp only [wp_bind, wp_access, wp_pure, Option.getD_none]
        refine hQ _ _ ?_ (Or.inr hnull)
        refine ⟨rfl, rfl, rfl, fun _ => List.length_replicate, fun x hx => ?_⟩
        rwa [List.eq_of_mem_replicate hx]
    · simp only [wp_bind, wp_access, wp_pure, Option.getD_some]
      refine hQ _ _ ?_ (Or.inl hpos)
      refine ⟨rfl, rfl, rfl, fun hsize => ?_, fun x hx => hstale _ _ x hx⟩
      have hlt := CInt.int_lt (CInt.unsigned (defaultSize * ex))
      rw [S.stale_length, Int.emod_eq_of_lt hsize]
      exact Int.lt_trans hlt (by decide)

/-- `Next` walks to the last link and clears `last_buf` of all others. -/
theorem wp_nextFrom_walk {ex : ℤ} {l : Link} {init : List Link}
    (hinit : (∀ k ∈ init, k.buf.isSome) ∨ E .nullDereference)
    {Q : List Link × Region × ℤ → Pool → Prop}
    (hlast : ∀ p, wpStop E (nextFrom S ex [l])
      (fun r p' => Q (init.map Link.unmark ++ r.1, r.2) p') p) :
    wpStop E (nextFrom S ex (init ++ [l])) Q p := by
  induction init generalizing p Q with
  | nil => exact hlast p
  | cons k ks ih =>
    obtain ⟨k', ks', hks⟩ := List.exists_cons_of_ne_nil (show ks ++ [l] ≠ [] by simp)
    rw [List.cons_append, hks]
    cases hc : k.buf with
    | none =>
      simp only [nextFrom, wp_bind, wp_access, hc, wp_deref_none]
      obtain hinit | hnull := hinit
      · have hsome := hinit k List.mem_cons_self
        rw [hc] at hsome
        cases hsome
      · exact hnull
    | some c =>
      simp only [nextFrom, wp_bind, wp_access, hc, wp_deref_some]
      rw [← hks]
      have hrest := hinit.imp_left fun h j hj => h j (List.mem_cons_of_mem k hj)
      refine ih hrest fun p₂ => wp_mono ?_ (hlast p₂)
      rintro ⟨ls, region, ex'⟩ p₃ h
      rw [wp_pure]
      simpa only [List.map_cons, Link.unmark, hc, Option.map_some, List.cons_append] using h

/-- `Next` walks to the last link and leaves the bytes of all others. -/
theorem wp_nextFrom_append {ex : ℤ} {l : Link} {init : List Link}
    (hinit : ∀ k ∈ init, k.buf.isSome) {Q : List Link × Region × ℤ → Pool → Prop}
    (hlast : ∀ p, wpStop E (nextFrom S ex [l]) (fun r p' => ∀ init',
      content init' = content init ∧ init'.length = init.length →
        (∀ k ∈ init', k.buf.isSome) → Q (init' ++ r.1, r.2) p') p) :
    wpStop E (nextFrom S ex (init ++ [l])) Q p := by
  refine wp_nextFrom_walk (Or.inl hinit) fun p₂ => wp_mono (fun r p' h => ?_) (hlast p₂)
  apply h
  · exact ⟨content_map_unmark init, List.length_map _⟩
  · intro k hk
    obtain ⟨j, hj, rfl⟩ := List.mem_map.mp hk
    rw [Link.unmark, Option.isSome_map]
    exact hinit j hj

/-- On a chain whose last buffer is full, `Next` appends a link and keeps all bytes. -/
theorem wp_nextFrom (hroom : S.Unlimited ∨ E .nullDereference ∧ G 0)
    (hstale : ∀ p n, ∀ x ∈ S.stale p n, G x) {ex : ℤ} {l : Link} {b : NgxBuf}
    (hl : l.buf = some b) (hfull : b.last = b.end_) {init : List Link}
    (hinit : ∀ k ∈ init, k.buf.isSome) {Q : List Link × Region × ℤ → Pool → Prop}
    (hQ : ∀ init' l' b' p', content init' = content init ∧ init'.length = init.length →
      (∀ k ∈ init', k.buf.isSome) → l'.buf = some b' → FreshBuf G (regionSize ex) b' →
      0 < b'.start ∨ E .nullDereference →
      Q (init' ++ [l, l'], ⟨b'.start, regionSize ex⟩, CInt.unsigned (ex + 1)) p') :
    wpStop E (nextFrom S ex (init ++ [l])) Q p := by
  refine wp_nextFrom_append hinit fun p => ?_
  simp only [nextFrom, wp_bind, wp_access, hl, hfull, if_true]
  refine wp_alloc (fun hnone => ?_) fun a _ _ _ => ?_
  · obtain hroom | ⟨hnull, -⟩ := hroom
    · exact absurd hnone (hroom _ _)
    · exact hnull
  · simp only [wp_bind, wp_deref_some, wp_access]
    refine wp_newBuf hroom hstale fun b' p' hb' hstart => ?_
    intro init' hsame hinit'
    exact hQ init' ⟨a, some b'⟩ b' p' hsame hinit' rfl hb' hstart

/-- On a chain whose last buffer is not full, `Next` resumes it and keeps all other bytes. -/
theorem wp_nextFrom_rest {ex : ℤ} {l : Link} {b : NgxBuf} (hl : l.buf = some b)
    (hrest : b.last ≠ b.end_) {init : List Link} (hinit : ∀ k ∈ init, k.buf.isSome)
    {Q : List Link × Region × ℤ → Pool → Prop}
    (hQ : ∀ init' p', content init' = content init ∧ init'.length = init.length →
      (∀ k ∈ init', k.buf.isSome) →
      Q (init' ++ [⟨l.addr, some { b with pos := b.last, last := b.end_ }⟩],
        ⟨b.last, CInt.int (b.end_ - b.last)⟩, ex) p') :
    wpStop E (nextFrom S ex (init ++ [l])) Q p := by
  refine wp_nextFrom_append hinit fun p => ?_
  simp only [nextFrom, wp_bind, wp_access, hl, hrest, if_false, wp_pure]
  intro init' hsame hinit'
  exact hQ init' _ hsame hinit'

end Spec

end NgxShmChainBufferWriter

end NgxRpc
