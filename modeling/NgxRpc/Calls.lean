import NgxRpc.Reader
import NgxRpc.Serialize

/-!
# Calls on readers and writers

The parser calls a reader in any order, and so does the serialiser a writer. The calls
touch links and buffers of the chain and change neither their number nor where they and
their memory are; only `Next` of a writer allocates.

## Main definitions

- `readCalls`, `writeCalls` — any calls of the parser and of the serialiser
- `Link.key`, `chainBlocks` — what a chain owns

## Main results

- `wp_readCalls` — reading a chain touches only what it owns
-/

namespace NgxRpc
open SlabPool

/-- The calls of the parser on a reader. It gives back and skips no negative number of bytes. -/
inductive ReaderCall where
  | next
  | backUp (count : ℕ)
  | skip (count : ℕ)
deriving DecidableEq

/-- The calls of the serialiser on a writer, and its copies into regions. -/
inductive WriterCall where
  | next
  | store (data : ℤ) (bytes : List UInt8)
  | backUp (count : ℤ)
deriving DecidableEq

/-- Touch several blocks. -/
def touch : List ℤ → SlabM Unit
  | [] => pure ()
  | a :: as => do
    accessAt a
    touch as

/-- The link and the `ngx_buf_t` it points to. -/
def Link.fields (l : Link) : List ℤ := l.addr :: (l.buf.map NgxBuf.addr).toList

/-- The blocks that `Next` and the use of the chunk it delivers touch. -/
def nextTouches (chain : List Link) : List ℤ :=
  match chain with
  | [] => []
  | l :: ls =>
    l.fields ++ (match NgxChainBufferReader.nextBody chain 0 with
      | .inl _ => (ls.take 1).flatMap Link.fields
      | .inr _ => []) ++
    match Loop.loop (NgxChainBufferReader.nextBody chain) 2 0 with
      -- the parser reads the chunk
      | some (some (_, b)) => [b.start]
      | _ => []

/-- The links a reader was made for. -/
def NgxChainBufferReader.links (r : NgxChainBufferReader) : List Link := r.passed ++ r.chain

/-- One call on a reader. -/
def readCall (r : NgxChainBufferReader) : ReaderCall → SlabM NgxChainBufferReader
  | .next => do
    touch (nextTouches r.chain)
    match r.next 2 with
    | none => throw .endlessLoop
    | some (.error e) => throw e
    | some (.ok (_, r')) => pure r'
  | .backUp count => do
    touch (r.chain.take 1 |>.flatMap Link.fields)
    match r.backUp count with
    | .error e => throw e
    | .ok r' => pure r'
  | .skip count => do
    touch (r.chain.take 1 |>.flatMap Link.fields)
    match r.skip count with
    | .error e => throw e
    | .ok (_, r') => pure r'

def readCalls (r : NgxChainBufferReader) : List ReaderCall → SlabM NgxChainBufferReader
  | [] => pure r
  | c :: cs => do
    readCalls (← readCall r c) cs

/-- One call on a writer, or one copy into the last buffer. -/
def writeCall (S : Slab) (w : NgxShmChainBufferWriter) : WriterCall → SlabM NgxShmChainBufferWriter
  | .next => do pure (← w.next S).1
  | .store data bytes => do pure { w with chain := ← storeLast data bytes w.chain }
  | .backUp count => w.backUp count

def writeCalls (S : Slab) (w : NgxShmChainBufferWriter) :
    List WriterCall → SlabM NgxShmChainBufferWriter
  | [] => pure w
  | c :: cs => do
    writeCalls S (← writeCall S w c) cs

/-! ## The blocks of a chain -/

/-- The block of the data of a buffer, if there is one. -/
def NgxBuf.dataBlock (b : NgxBuf) : List ℤ := if b.start = 0 then [] else [b.start]

/-- The blocks of the buffer of a link. -/
def linkBlocks (l : Link) : List ℤ := l.buf.elim [] fun b => b.addr :: b.dataBlock

theorem linkBlocks_some {l : Link} {b : NgxBuf} (hb : l.buf = some b) :
    linkBlocks l = b.addr :: b.dataBlock := by
  rw [linkBlocks, hb, Option.elim_some]

theorem NgxBuf.dataBlock_of_ne {b : NgxBuf} (h : b.start ≠ 0) : b.dataBlock = [b.start] :=
  if_neg h

theorem NgxBuf.mem_dataBlock {b : NgxBuf} (h : b.start ≠ 0) : b.start ∈ b.dataBlock := by
  rw [dataBlock_of_ne h]
  exact List.mem_singleton_self _

/-- What of a link decides which blocks its chain owns. -/
def Link.key (l : Link) : ℤ × List ℤ := (l.addr, linkBlocks l)

/-- The blocks of a chain whose first link is part of the task. -/
def chainBlocks (chain : List Link) : List ℤ :=
  chain.tail.map Link.addr ++ chain.flatMap linkBlocks

/-- The first link of the chain has address `a`. -/
def Rooted (a : ℤ) (chain : List Link) : Prop := chain.head?.map Link.addr = some a

theorem Rooted.exists_cons {a : ℤ} {chain : List Link} (h : Rooted a chain) :
    ∃ l ls, chain = l :: ls ∧ l.addr = a := by
  cases chain with
  | nil => cases h
  | cons l ls => exact ⟨l, ls, rfl, Option.some.inj h⟩

theorem chainBlocks_congr {chain chain' : List Link}
    (h : chain'.map Link.key = chain.map Link.key) : chainBlocks chain' = chainBlocks chain := by
  have hkeys : ∀ c : List Link, chainBlocks c =
      (c.map Link.key).tail.map Prod.fst ++ (c.map Link.key).flatMap Prod.snd := by
    intro c
    simp [chainBlocks, List.flatMap_map, ← List.map_tail, Link.key, Function.comp_def]
  rw [hkeys, hkeys, h]

theorem Rooted.congr {a : ℤ} {chain chain' : List Link}
    (h : chain'.map Link.key = chain.map Link.key) (hr : Rooted a chain) : Rooted a chain' := by
  have hkeys : ∀ c : List Link, c.head?.map Link.addr = (c.map Link.key).head?.map Prod.fst := by
    intro c
    cases c <;> rfl
  rw [Rooted, hkeys, h, ← hkeys]
  exact hr

theorem mem_chainBlocks {chain : List Link} {l : Link} {a : ℤ} (hl : l ∈ chain)
    (ha : a ∈ linkBlocks l) : a ∈ chainBlocks chain :=
  List.mem_append_right _ (List.mem_flatMap.mpr ⟨l, hl, ha⟩)

theorem chainBlocks_cons_cons (xs : List ℤ) (k l : Link) (ls : List Link) :
    (xs ++ chainBlocks (k :: l :: ls)).Perm
      ((xs ++ l.addr :: linkBlocks k) ++ chainBlocks (l :: ls)) := by
  rw [List.perm_iff_count]
  intro a
  simp only [chainBlocks, List.tail_cons, List.map_cons, List.flatMap_cons, List.count_append,
    List.count_cons]
  omega

/-- The links of the chain and their buffers are among `xs`. -/
def Covered (xs : List ℤ) (chain : List Link) : Prop :=
  ∀ l ∈ chain, l.addr ∈ xs ∧ ∀ a ∈ linkBlocks l, a ∈ xs

variable {xs : List ℤ}

theorem Covered.congr {chain chain' : List Link} (h : Covered xs chain)
    (hkey : chain'.map Link.key = chain.map Link.key) : Covered xs chain' := by
  intro l' hl'
  have hmem : l'.key ∈ chain.map Link.key := hkey ▸ List.mem_map_of_mem hl'
  obtain ⟨l, hl, he⟩ := List.mem_map.mp hmem
  have haddr : l.addr = l'.addr := congrArg Prod.fst he
  have hblocks : linkBlocks l = linkBlocks l' := congrArg Prod.snd he
  rw [← haddr, ← hblocks]
  exact h l hl

theorem Covered.mono {ys : List ℤ} {chain : List Link} (h : Covered xs chain)
    (hle : ∀ a ∈ xs, a ∈ ys) : Covered ys chain :=
  fun l hl => ⟨hle _ (h l hl).1, fun a ha => hle a ((h l hl).2 a ha)⟩

theorem covered_of_rooted {root : ℤ} {chain : List Link} (h : Rooted root chain) :
    Covered (root :: chainBlocks chain) chain := by
  obtain ⟨k, ks, rfl, rfl⟩ := h.exists_cons
  intro l hl
  refine ⟨?_, fun a ha => List.mem_cons_of_mem _ (mem_chainBlocks hl ha)⟩
  obtain rfl | hl := List.mem_cons.mp hl
  · exact List.mem_cons_self
  · exact List.mem_cons_of_mem _ (List.mem_append_left _ (List.mem_map_of_mem hl))

theorem Covered.fields {chain : List Link} (h : Covered xs chain) {l : Link} (hl : l ∈ chain) :
    ∀ a ∈ l.fields, a ∈ xs := by
  intro a ha
  obtain ⟨haddr, hblocks⟩ := h l hl
  obtain rfl | ha := List.mem_cons.mp ha
  · exact haddr
  · apply hblocks a
    cases hb : l.buf <;> simp_all [linkBlocks]

theorem Covered.take_fields {chain : List Link} (h : Covered xs chain) (n : ℕ) :
    ∀ a ∈ (chain.take n).flatMap Link.fields, a ∈ xs := by
  intro a ha
  obtain ⟨l, hl, hal⟩ := List.mem_flatMap.mp ha
  exact h.fields (List.mem_of_mem_take hl) a hal

theorem Covered.nextTouches {chain : List Link} (h : Covered xs chain) :
    ∀ a ∈ NgxRpc.nextTouches chain, a ≠ 0 → a ∈ xs := by
  intro a ha hnull
  cases chain with
  | nil => cases ha
  | cons l ls =>
    simp only [NgxRpc.nextTouches, List.mem_append] at ha
    obtain (ha | ha) | ha := ha
    · exact h.fields List.mem_cons_self a ha
    · split at ha
      · have hls : Covered xs ls := fun k hk => h k (List.mem_cons_of_mem l hk)
        exact hls.take_fields 1 a ha
      · cases ha
    · split at ha
      · next i b hloop =>
        obtain ⟨j, hj⟩ := Loop.Returns.exists_stop ⟨2, hloop⟩
        obtain ⟨k, hk, hb, -⟩ := NgxChainBufferReader.nextBody_inr hj
        obtain rfl := List.mem_singleton.mp ha
        apply (h k (List.mem_of_getElem? hk)).2
        rw [linkBlocks_some hb]
        exact List.mem_cons_of_mem _ (b.mem_dataBlock hnull)
      · cases ha

/-! ## Frames -/

section Frame

variable {E : Stop → Pool → Prop} {I : Pool → Prop} {p : Pool}

theorem wp_touch {as : List ℤ} (hI : Stable E I xs) (has : ∀ a ∈ as, a ≠ 0 → a ∈ xs) (h : I p)
    {Q : Unit → Pool → Prop} (hQ : ∀ p', I p' → Q () p') : wp E (touch as) Q p := by
  induction as generalizing p with
  | nil => exact hQ p h
  | cons a as ih =>
    simp only [touch, wp_bind, wp_accessAt]
    split
    · exact hI.stop _ _ h
    · next hnull =>
      exact ih (fun b hb => has b (List.mem_cons_of_mem a hb))
        (hI.access a (has a List.mem_cons_self hnull) p h)

theorem wp_storeLast {data : ℤ} {bytes : List UInt8} {chain : List Link} (hI : Stable E I xs)
    (hown : ∀ l ∈ chain, ∀ a ∈ linkBlocks l, a ∈ xs) (h : I p) {Q : List Link → Pool → Prop}
    (hQ : ∀ chain' p', chain'.map Link.key = chain.map Link.key → I p' → Q chain' p') :
    wp E (storeLast data bytes chain) Q p := by
  induction chain generalizing p Q with
  | nil => exact hI.stop _ _ h
  | cons l ls ih =>
    cases ls with
    | nil =>
      cases hb : l.buf with
      | none =>
        simp only [storeLast, hb, wp_bind, wp_deref_none]
        exact hI.stop _ _ h
      | some b =>
        simp only [storeLast, hb, wp_bind, wp_deref_some]
        split
        · exact hQ [l] p rfl h
        · split
          · exact hI.stop _ _ h
          · next hnull =>
            have hmem : b.start ∈ linkBlocks l := by
              rw [linkBlocks_some hb]
              exact List.mem_cons_of_mem _ (b.mem_dataBlock (not_or.mp hnull).2)
            refine hQ _ _ ?_ (hI.access _ (hown l (by simp) b.start hmem) p h)
            simp [Link.key, linkBlocks, hb, NgxBuf.store, NgxBuf.dataBlock]
    | cons k ks =>
      simp only [storeLast, wp_bind]
      refine ih (fun j hj => hown j (List.mem_cons_of_mem l hj)) h fun chain' p' hkey hp' => ?_
      exact hQ (l :: chain') p' (by simp only [List.map_cons, hkey]) hp'

theorem wp_backUp {w : NgxShmChainBufferWriter} (hI : Stable E I xs) (hcov : Covered xs w.chain)
    (h : I p) (count : ℤ) {Q : NgxShmChainBufferWriter → Pool → Prop}
    (hQ : ∀ w' p', w'.chain.map Link.key = w.chain.map Link.key → I p' → Q w' p') :
    wp E (w.backUp count) Q p := by
  rw [NgxShmChainBufferWriter.backUp]
  split
  · exact hI.stop _ _ h
  · next l ls hchain =>
    rw [hchain] at hcov
    have hfields := hcov.fields List.mem_cons_self
    have hacc := hI.access _ (hfields l.addr List.mem_cons_self) p h
    simp only [wp_bind, wp_access]
    cases hb : l.buf with
    | none => exact hI.stop _ _ hacc
    | some b =>
      have hacc' := hI.access _ (hfields b.addr (by simp [Link.fields, hb])) _ hacc
      simp only [wp_bind, wp_deref_some, wp_access, wp_assert, wp_pure]
      split
      · split
        · refine hQ _ _ ?_ hacc'
          simp [hchain, Link.key, linkBlocks, NgxBuf.dataBlock, hb]
        · exact hI.stop _ _ hacc'
      · exact hI.stop _ _ hacc'

/-- Replacing a buffer by one at the same place changes no key. -/
theorem modify_key {chain : List Link} {i : ℕ} {f : Link → Link}
    (h : ∀ l, chain[i]? = some l → (f l).key = l.key) :
    (chain.modify i f).map Link.key = chain.map Link.key := by
  refine List.ext_getElem? fun j => ?_
  rw [List.getElem?_map, List.getElem?_map, List.getElem?_modify]
  cases hl : chain[j]? with
  | none => rfl
  | some l =>
    by_cases hij : i = j
    · subst hij
      simpa using h l hl
    · simp [hij]

theorem next_key {r r' : NgxChainBufferReader} {c : Option Chunk}
    (h : r.next 2 = some (.ok (c, r'))) :
    r'.passed = r.passed ∧ r'.chain.map Link.key = r.chain.map Link.key := by
  have hne : r.chain ≠ [] := by
    intro hnil
    simp [NgxChainBufferReader.next, hnil] at h
  obtain ⟨x, hx, he⟩ := (NgxChainBufferReader.nextReturns_iff hne).mp ⟨2, h⟩
  cases x with
  | none =>
    obtain ⟨-, rfl⟩ := Prod.mk.inj he
    exact ⟨rfl, rfl⟩
  | some ib =>
    obtain ⟨i, b⟩ := ib
    obtain ⟨-, rfl⟩ := Prod.mk.inj he
    obtain ⟨j, hj⟩ := hx.exists_stop
    obtain ⟨l, hl, hb, -⟩ := NgxChainBufferReader.nextBody_inr hj
    refine ⟨rfl, modify_key fun k hk => ?_⟩
    obtain rfl := Option.some.inj (hl.symm.trans hk)
    simp [Link.key, linkBlocks, NgxBuf.dataBlock, hb]

theorem backUp_key {r r' : NgxChainBufferReader} {count : ℤ} (h : r.backUp count = .ok r') :
    r'.passed = r.passed ∧ r'.chain.map Link.key = r.chain.map Link.key := by
  rw [NgxChainBufferReader.backUp] at h
  split at h
  · cases h
  · next l ls hchain =>
    split at h
    · cases h
    · next b hb =>
      obtain rfl := Except.ok.inj h
      simp [hchain, Link.key, linkBlocks, NgxBuf.dataBlock, hb]

/-- `Skip` may move a link from the chain to those passed. -/
theorem skip_key {r r' : NgxChainBufferReader} {count : ℤ} {b : Bool}
    (h : r.skip count = .ok (b, r')) :
    r'.links.map Link.key = r.links.map Link.key := by
  rw [NgxChainBufferReader.skip] at h
  split at h
  · cases h
  · next l ls hchain =>
    split at h
    · obtain ⟨-, rfl⟩ := Prod.mk.inj (Except.ok.inj h)
      rfl
    · next curBuf hb =>
      simp only at h
      split at h
      · obtain ⟨-, rfl⟩ := Prod.mk.inj (Except.ok.inj h)
        rfl
      · split at h
        · split at h
          · cases h
          · obtain ⟨-, rfl⟩ := Prod.mk.inj (Except.ok.inj h)
            simp [NgxChainBufferReader.links, hchain]
        · obtain ⟨-, rfl⟩ := Prod.mk.inj (Except.ok.inj h)
          simp [NgxChainBufferReader.links, hchain, Link.key, linkBlocks, NgxBuf.dataBlock, hb]

theorem wp_readCall {r : NgxChainBufferReader} (hI : Stable E I xs) (hcov : Covered xs r.links)
    (h : I p) (c : ReaderCall) {Q : NgxChainBufferReader → Pool → Prop}
    (hQ : ∀ r' p', r'.links.map Link.key = r.links.map Link.key → I p' → Q r' p') :
    wp E (readCall r c) Q p := by
  have hchain : Covered xs r.chain := fun l hl => hcov l (List.mem_append_right _ hl)
  have hlinks : ∀ {r' : NgxChainBufferReader}, r'.passed = r.passed ∧
      r'.chain.map Link.key = r.chain.map Link.key →
      r'.links.map Link.key = r.links.map Link.key := by
    rintro r' ⟨hpassed, hkey⟩
    rw [NgxChainBufferReader.links, NgxChainBufferReader.links, List.map_append, List.map_append,
      hpassed, hkey]
  cases c with
  | next =>
    simp only [readCall, wp_bind]
    refine wp_touch hI hchain.nextTouches h fun p' hp' => ?_
    split
    · exact hI.stop _ _ hp'
    · exact hI.stop _ _ hp'
    · next hnext => exact hQ _ p' (hlinks (next_key hnext)) hp'
  | backUp count =>
    simp only [readCall, wp_bind]
    refine wp_touch hI (fun a ha _ => hchain.take_fields 1 a ha) h fun p' hp' => ?_
    split
    · exact hI.stop _ _ hp'
    · next hback => exact hQ _ p' (hlinks (backUp_key hback)) hp'
  | skip count =>
    simp only [readCall, wp_bind]
    refine wp_touch hI (fun a ha _ => hchain.take_fields 1 a ha) h fun p' hp' => ?_
    split
    · exact hI.stop _ _ hp'
    · next hskip => exact hQ _ p' (skip_key hskip) hp'

theorem wp_readCalls {r : NgxChainBufferReader} (hI : Stable E I xs) (hcov : Covered xs r.links)
    (h : I p) (cs : List ReaderCall) {Q : NgxChainBufferReader → Pool → Prop}
    (hQ : ∀ r' p', r'.links.map Link.key = r.links.map Link.key → I p' → Q r' p') :
    wp E (readCalls r cs) Q p := by
  induction cs generalizing r p with
  | nil => exact hQ r p rfl h
  | cons c cs ih =>
    simp only [readCalls, wp_bind]
    refine wp_readCall hI hcov h c fun r' p' hkey hp' => ?_
    exact ih (hcov.congr hkey) hp' fun r₂ p₂ hkey₂ hp₂ => hQ r₂ p₂ (hkey₂.trans hkey) hp₂

end Frame

end NgxRpc
