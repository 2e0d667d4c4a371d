import NgxRpc.Foundation.Runs
import NgxRpc.Calls
import NgxRpc.TaskMemory

/-!
# The memory of a request over whole runs

A request owns an rpc context and a task with two chains in shared memory. The
operations of the code on them are run in any order, as long as the objects exist.
Three of them misuse the slab pool: `ngx_http_rpc_task_set_bufs`, which frees the data of
the old chain through `pos` and walks on through freed links, `ngx_http_rpc_ctx_destroy`,
which reads the context it has freed, and `ngx_http_rpc_task_destory`, which frees the
`NULL` that a buffer has for data that was refused.

## Main definitions

- `Memory`, `MemoryOp`, `step` — the operations on the memory of one request
- `MemoryOp.harmless` — the operations that misuse nothing

## Main results

- `runs_safe` — runs of harmless operations are free of faults
-/

namespace NgxRpc
open SlabPool Transition

/-- The rpc context and the task of a request. -/
structure Memory where
  ctx : Option ℤ
  task : Option RpcTask
deriving DecidableEq

/-- What the code does to them. A parse reads `req_bufs` through a new reader, and a
message is written to `res_bufs` through a new writer. -/
inductive MemoryOp where
  | ctxCreate
  | taskCreate
  | setBufs (src : List Link)
  | read (calls : List ReaderCall)
  | write (calls : List WriterCall)
  | taskDestory
  | ctxDestroy
deriving DecidableEq

namespace MemoryOp

variable (S : Slab) (stale : StaleLink)

/-- The program of an operation, when the object it works on exists. -/
def program (m : Memory) : MemoryOp → Option (SlabM Memory)
  | .ctxCreate => if m.ctx = none then some do pure { m with ctx := ← NgxRpc.ctxCreate S } else none
  | .taskCreate =>
    if m.task = none then some do pure { m with task := ← NgxRpc.taskCreate S } else none
  | .setBufs src => m.task.map fun t => do
    let reqBufs ← taskSetBufs S stale t.reqBufs src
    pure { m with task := some { t with reqBufs := reqBufs } }
  | .read calls => m.task.map fun t => do
    let r ← readCalls (.new t.reqBufs) calls
    pure { m with task := some { t with reqBufs := r.links } }
  | .write calls => m.task.map fun t => do
    access t.addr
    let w ← writeCalls S (.new t.addr 1) calls
    pure { m with task := some { t with resBufs := w.chain, resLength := w.totaly } }
  | .taskDestory => m.task.map fun t => do
    NgxRpc.taskDestory t
    pure { m with task := none }
  | .ctxDestroy => m.ctx.map fun c => do
    NgxRpc.ctxDestroy c
    pure { m with ctx := none }

/-- One operation. A program that stops has no further operations. -/
def step (s : Except Stop Memory × Pool) (op : MemoryOp) : Option (Except Stop Memory × Pool) :=
  match s.1 with
  | .error _ => none
  | .ok m => (op.program S stale m).map fun prog => prog s.2

/-- A chain whose only buffer, if any, has not been read from. -/
def Unread (chain : List Link) : Prop :=
  chain.length = 1 ∧ ∀ l ∈ chain, ∀ b ∈ l.buf, b.pos = b.start

instance : DecidablePred Unread := fun chain =>
  inferInstanceAs (Decidable (chain.length = 1 ∧ ∀ l ∈ chain, ∀ b ∈ l.buf, b.pos = b.start))

/-- A source chain that ends with a `NULL` link, or at its head. -/
def Ended (src : List Link) : Prop :=
  src.head?.any (·.buf.isSome) → ∀ k ∈ src, k.buf.isSome

instance : DecidablePred Ended := fun src =>
  inferInstanceAs (Decidable (src.head?.any (·.buf.isSome) → ∀ k ∈ src, k.buf.isSome))

/-- No buffer of the chain is at `NULL` because its data was refused. -/
def HasData (chain : List Link) : Prop := ∀ l ∈ chain, ∀ b ∈ l.buf, b.start ≠ 0

instance : DecidablePred HasData := fun chain =>
  inferInstanceAs (Decidable (∀ l ∈ chain, ∀ b ∈ l.buf, b.start ≠ 0))

/-- No refill of a chain that has several links or has been read from, or from a chain
that ends with an empty link, no refill and no destruction of a task with a buffer that has no
data, and no destruction of the context. -/
def harmless (s : Except Stop Memory × Pool) : MemoryOp → Bool
  | .setBufs src => decide ((∀ m ∈ s.1.toOption, ∀ t ∈ m.task,
      Unread t.reqBufs ∧ HasData t.reqBufs) ∧ Ended src)
  | .taskDestory => decide (∀ m ∈ s.1.toOption, ∀ t ∈ m.task,
      HasData t.reqBufs ∧ HasData t.resBufs)
  | .ctxDestroy => false
  | _ => true

end MemoryOp

/-! ## What is owned -/

/-- The blocks of a task. -/
def taskBlocks (t : RpcTask) : List ℤ := t.addr :: (chainBlocks t.reqBufs ++ chainBlocks t.resBufs)

/-- The blocks of a request. -/
def Memory.blocks (m : Memory) : List ℤ := m.ctx.toList ++ m.task.elim [] taskBlocks

section Spec

variable {S : Slab} {stale : StaleLink} {p : Pool} {xs : List ℤ}

/-! ## Writing -/

theorem owns_newBuf {ptr ex : ℤ} (h : p.Owns xs) (hptr : ptr ∈ xs)
    {Q : Link × Region × ℤ → Pool → Prop}
    (hQ : ∀ l r ex' p', l.addr = ptr → p'.Owns (xs ++ linkBlocks l) → Q (l, r, ex') p') :
    wp SafeStop (NgxShmChainBufferWriter.newBuf S ptr ex) Q p := by
  simp only [NgxShmChainBufferWriter.newBuf, wp_bind]
  refine wp_alloc (fun _ => (h.refused _).safe) fun a _ ha _ => ?_
  simp only [wp_bind, wp_deref_some]
  have hnew := h.alloc ha
  have hptr' : ptr ∈ a :: xs := List.mem_cons_of_mem a hptr
  refine wp_alloc (fun _ => ?_) fun a' _ ha' hpos => ?_
  · -- the buffer is at `NULL` and owns no data
    simp only [wp_bind, wp_access, wp_pure, Option.getD_none]
    have hall (n : ℕ) := ((hnew.refused n).access List.mem_cons_self).access hptr'
    refine hQ _ _ _ _ rfl ((hall _).perm ?_)
    simpa [linkBlocks, NgxBuf.dataBlock] using (List.perm_append_singleton a xs).symm
  · simp only [wp_bind, wp_access, wp_pure, Option.getD_some]
    have hall := ((hnew.alloc ha').access (List.mem_cons_of_mem a' List.mem_cons_self)).access
      (List.mem_cons_of_mem a' hptr')
    refine hQ _ _ _ _ rfl (hall.perm ?_)
    rw [List.perm_iff_count]
    intro b
    simp only [linkBlocks, NgxBuf.dataBlock, hpos.ne', if_false, Option.elim_some,
      List.count_append, List.count_cons, List.count_nil]
    omega

/-- `Next` at the last link: the link, or the two links, own what was allocated. -/
theorem owns_nextFrom_last {ex : ℤ} {l : Link}
    (h : p.Owns (xs ++ chainBlocks [l])) (hl : l.addr ∈ xs)
    {Q : List Link × Region × ℤ → Pool → Prop}
    (hQ : ∀ l' ls' r ex' p', l'.addr = l.addr → p'.Owns (xs ++ chainBlocks (l' :: ls')) →
      Q (l' :: ls', r, ex') p') :
    wp SafeStop (NgxShmChainBufferWriter.nextFrom S ex [l]) Q p := by
  have hacc := h.access (List.mem_append_left _ hl)
  simp only [NgxShmChainBufferWriter.nextFrom, wp_bind, wp_access]
  split
  · next hnone =>
    have hxs : chainBlocks [l] = [] := by simp [chainBlocks, linkBlocks, hnone]
    rw [hxs, List.append_nil] at hacc
    simp only [wp_bind]
    refine owns_newBuf hacc hl fun l' r ex' p' hl' hp' => ?_
    rw [wp_pure]
    exact hQ l' [] r ex' p' hl' (by simpa [chainBlocks] using hp')
  · next b hb =>
    have hxs : chainBlocks [l] = b.addr :: b.dataBlock := by simp [chainBlocks, linkBlocks, hb]
    rw [hxs] at hacc
    have hacc' := hacc.access (a := b.addr) (by simp)
    simp only [wp_bind, wp_access]
    split
    · simp only [wp_bind]
      refine wp_alloc (fun _ => (hacc'.refused _).safe) fun next _ hnext _ => ?_
      simp only [wp_bind, wp_deref_some, wp_access]
      have hlink := ((hacc'.alloc hnext).access (a := l.addr) (by simp [hl])).access
        (a := next) (by simp)
      refine owns_newBuf hlink (by simp) fun l' r ex' p' hl' hp' => ?_
      rw [wp_pure]
      refine hQ l [l'] r ex' p' rfl (hp'.perm ?_)
      rw [List.perm_iff_count]
      intro c
      simp only [chainBlocks, hl', List.tail_cons, List.map_cons, List.map_nil,
        List.flatMap_cons, List.flatMap_nil, List.count_append, List.count_cons, List.count_nil,
        linkBlocks, hb, Option.elim_some]
      omega
    · rw [wp_pure]
      refine hQ _ [] _ _ _ rfl ?_
      simpa [chainBlocks, linkBlocks, NgxBuf.dataBlock] using hacc'

/-- `Next` keeps the address of the first link, and the chain owns what it allocates. -/
theorem owns_nextFrom {ex : ℤ} {l : Link} {ls : List Link}
    (h : p.Owns (xs ++ chainBlocks (l :: ls))) (hl : l.addr ∈ xs)
    {Q : List Link × Region × ℤ → Pool → Prop}
    (hQ : ∀ l' ls' r ex' p', l'.addr = l.addr → p'.Owns (xs ++ chainBlocks (l' :: ls')) →
      Q (l' :: ls', r, ex') p') :
    wp SafeStop (NgxShmChainBufferWriter.nextFrom S ex (l :: ls)) Q p := by
  induction ls generalizing l xs p Q with
  | nil => exact owns_nextFrom_last h hl hQ
  | cons k ks ih =>
    have hacc := h.access (List.mem_append_left _ hl)
    simp only [NgxShmChainBufferWriter.nextFrom, wp_bind, wp_access]
    cases hb : l.buf with
    | none => exact hacc.safe
    | some b =>
      have hmem : b.addr ∈ xs ++ chainBlocks (l :: k :: ks) := by
        simp [chainBlocks, linkBlocks, hb]
      simp only [wp_deref_some, wp_bind, wp_access]
      have howns := (hacc.access hmem).perm (chainBlocks_cons_cons xs l k ks)
      refine ih howns (by simp) fun k' ks' r ex' p' hk' hp' => ?_
      rw [wp_pure]
      refine hQ _ _ _ _ _ rfl (hp'.perm ?_)
      have hblocks : linkBlocks { l with buf := some { b with lastBuf := false } } =
          linkBlocks l := by simp [linkBlocks, NgxBuf.dataBlock, hb]
      rw [← hk', ← hblocks]
      exact (chainBlocks_cons_cons xs _ k' ks').symm

/-- One call on a writer keeps its chain owned and rooted. -/
theorem owns_writeCall {w : NgxShmChainBufferWriter} {root : ℤ}
    (h : p.Owns (xs ++ chainBlocks w.chain)) (hroot : Rooted root w.chain) (hmem : root ∈ xs)
    (c : WriterCall) {Q : NgxShmChainBufferWriter → Pool → Prop}
    (hQ : ∀ w' p', Rooted root w'.chain → p'.Owns (xs ++ chainBlocks w'.chain) → Q w' p') :
    wp SafeStop (writeCall S w c) Q p := by
  obtain ⟨l, ls, hchain, rfl⟩ := hroot.exists_cons
  cases c with
  | next =>
    simp only [writeCall, NgxShmChainBufferWriter.next, hchain, wp_bind]
    rw [hchain] at h
    refine owns_nextFrom h hmem fun l' ls' r ex' p' hl' hp' => ?_
    simp only [wp_pure]
    exact hQ _ p' (congrArg some hl') hp'
  | store data bytes =>
    simp only [writeCall, wp_bind]
    refine wp_storeLast Pool.Owns.stable (fun k hk a ha => ?_) h fun chain' p' hkey hp' => ?_
    · exact List.mem_append_right _ (mem_chainBlocks hk ha)
    · rw [wp_pure]
      apply hQ _ p' (hroot.congr hkey)
      simpa only [chainBlocks_congr hkey] using hp'
  | backUp count =>
    have hcov : Covered (xs ++ chainBlocks w.chain) w.chain := by
      refine (covered_of_rooted hroot).mono fun a ha => ?_
      obtain rfl | ha := List.mem_cons.mp ha
      · exact List.mem_append_left _ hmem
      · exact List.mem_append_right _ ha
    refine wp_backUp Pool.Owns.stable hcov h count fun w' p' hkey hp' => ?_
    apply hQ w' p' (hroot.congr hkey)
    simpa only [chainBlocks_congr hkey] using hp'

theorem owns_writeCalls {w : NgxShmChainBufferWriter} {root : ℤ}
    (h : p.Owns (xs ++ chainBlocks w.chain)) (hroot : Rooted root w.chain) (hmem : root ∈ xs)
    (cs : List WriterCall) {Q : NgxShmChainBufferWriter → Pool → Prop}
    (hQ : ∀ w' p', Rooted root w'.chain → p'.Owns (xs ++ chainBlocks w'.chain) → Q w' p') :
    wp SafeStop (writeCalls S w cs) Q p := by
  induction cs generalizing w p with
  | nil => exact hQ w p hroot h
  | cons c cs ih =>
    simp only [writeCalls, wp_bind]
    exact owns_writeCall h hroot hmem c fun w' p' hroot' h' => ih h' hroot'

/-! ## Refilling -/

/-- Link `l'` has what the copy loop makes of the buffer of link `l`, with no room left. Where
nothing is refused it has data. -/
def Link.FullCopyOf (S : Slab) (l l' : Link) : Prop :=
  ∃ b c, l.buf = some b ∧ l'.buf = some c ∧ NgxRpc.CopyOf b c ∧ c.last = c.end_ ∧
    (S.Unlimited → c.start ≠ 0)

section Tracks

variable {I : List ℤ → Pool → Prop} {rs : List ℤ} {E : Stop → Pool → Prop}

theorem tracks_copyBuf (hI : Tracks I rs) (hroom : S.Unlimited ∨ ∀ e xs p, I xs p → E e p)
    {ptr : ℤ} (hptr : ptr ∈ rs ++ xs) (h : I xs p) (src : NgxBuf) {Q : NgxBuf → Pool → Prop}
    (hQ : ∀ c p', CopyOf src c → c.last = c.end_ → (S.Unlimited → c.start ≠ 0) →
      I (xs ++ linkBlocks ⟨ptr, some c⟩) p' → Q c p') :
    wp E (copyBuf S ptr src) Q p := by
  have hstop : ∀ {p q n xs}, S.pick p n = none → I xs q → E .nullDereference q :=
    fun hnone h => hroom.elim (fun hS => absurd hnone (hS _ _)) fun hE => hE _ _ _ h
  simp only [copyBuf, wp_bind]
  refine wp_alloc (fun hnone => hstop hnone (hI.refused _ h)) fun buf _ hbuf _ => ?_
  simp only [wp_bind, wp_deref_some, wp_access]
  have hnew : I (buf :: xs) _ := hI.access (hI.access (hI.alloc h hbuf) (a := ptr) (by
    rw [List.mem_append, List.mem_cons]
    exact (List.mem_append.mp hptr).imp_right Or.inr)) (a := buf) (by simp)
  refine wp_alloc (fun hnone => ?_) fun data _ hdata hpos => ?_
  · have hacc := hI.access (hI.refused ((src.last - src.pos) % 2 ^ 64).toNat hnew) (a := buf)
      (by simp)
    simp only [wp_bind, wp_access, Option.map_none, Option.getD_none]
    split
    · simp only [wp_bind, wp_accessAt, if_true]
      exact hstop hnone hacc
    · -- an empty buffer is left at `NULL`
      refine hQ _ _ ⟨rfl, rfl, rfl, rfl⟩ rfl (fun hS => absurd hnone (hS _ _)) (hI.perm hacc ?_)
      simpa [linkBlocks, NgxBuf.dataBlock] using (List.perm_append_singleton buf xs).symm
  · have hown : I (data :: buf :: xs) _ := hI.access (hI.alloc hnew hdata) (a := buf) (by simp)
    have hblocks : ∀ c : NgxBuf, c.addr = buf → c.start = data →
        (data :: buf :: xs).Perm (xs ++ linkBlocks ⟨ptr, some c⟩) := by
      rintro c rfl rfl
      rw [List.perm_iff_count]
      intro b
      simp only [linkBlocks, NgxBuf.dataBlock, hpos.ne', if_false, Option.elim_some,
        List.count_append, List.count_cons, List.count_nil]
      omega
    simp only [wp_bind, wp_access, Option.map_some, Option.getD_some]
    split
    · simp only [wp_bind, wp_accessAt, if_neg hpos.ne', wp_pure]
      exact hQ _ _ ⟨rfl, rfl, rfl, rfl⟩ rfl (fun _ => hpos.ne')
        (hI.perm (hI.access hown (a := data) (by simp)) (hblocks _ rfl rfl))
    · exact hQ _ _ ⟨rfl, rfl, rfl, rfl⟩ rfl (fun _ => hpos.ne')
        (hI.perm hown (hblocks _ rfl rfl))

/-- Every link of a source without empty links gets its copy, and the chain has the blocks
that were allocated. -/
theorem tracks_copyBufs (hI : Tracks I rs) (hroom : S.Unlimited ∨ ∀ e xs p, I xs p → E e p)
    {src : List Link} (hne : src ≠ []) (hsrc : ∀ k ∈ src, k.buf.isSome) {ptr : ℤ}
    (hptr : ptr ∈ rs ++ xs) (h : I xs p) (old : Option NgxBuf × List Link)
    {Q : List Link → Pool → Prop} (hQ : ∀ chain p', Rooted ptr chain →
      List.Forall₂ (Link.FullCopyOf S) src chain → I (xs ++ chainBlocks chain) p' → Q chain p') :
    wp E (copyBufs S stale (some (ptr, old)) src) Q p := by
  induction src generalizing p xs ptr old Q with
  | nil => exact absurd rfl hne
  | cons k ks ih =>
    obtain ⟨b, hb⟩ := Option.isSome_iff_exists.mp (hsrc k List.mem_cons_self)
    simp only [copyBufs, hb, wp_bind, wp_deref_some]
    refine tracks_copyBuf hI hroom hptr h b fun c p' hc hfull hdata hp' => ?_
    have hcopy : k.FullCopyOf S ⟨ptr, some c⟩ := ⟨b, c, hb, rfl, hc, hfull, hdata⟩
    have hmem : ptr ∈ rs ++ (xs ++ linkBlocks ⟨ptr, some c⟩) := by
      rw [← List.append_assoc]
      exact List.mem_append_left _ hptr
    split
    · next hlast =>
      subst hlast
      simp only [wp_bind, wp_access, wp_pure]
      refine hQ _ _ rfl (.cons hcopy .nil) ?_
      simpa [chainBlocks] using hI.access hp' hmem
    · next hks =>
      simp only [wp_bind]
      refine wp_alloc (fun hnone => ?_) fun next _ hnext _ => ?_
      · obtain hS | hE := hroom
        · exact absurd hnone (hS _ _)
        · -- the next round writes through the `NULL` link
          obtain ⟨k', ks', rfl⟩ := List.exists_cons_of_ne_nil hks
          obtain ⟨c', hc'⟩ := Option.isSome_iff_exists.mp (hsrc k' (by simp))
          simp only [wp_bind, wp_access, Option.map_none, copyBufs, hc', wp_deref_none]
          exact hE _ _ _ (hI.access (hI.refused _ hp') hmem)
      · simp only [wp_bind, wp_access, Option.map_some]
        have hown := hI.access (a := ptr) (hI.alloc hp' hnext) (by
          rw [List.mem_append, List.mem_cons]
          exact (List.mem_append.mp hmem).imp_right Or.inr)
        refine ih hks (fun j hj => hsrc j (List.mem_cons_of_mem k hj)) (by simp) hown _
          fun chain p₂ hroot hchain hp₂ => ?_
        obtain ⟨l, ls, rfl, haddr⟩ := hroot.exists_cons
        rw [wp_pure]
        refine hQ _ _ rfl (.cons hcopy hchain) (hI.perm hp₂ ?_)
        refine List.Perm.trans ?_ (chainBlocks_cons_cons xs ⟨ptr, some c⟩ l ls).symm
        rw [haddr]
        apply List.Perm.append_right _
        exact List.perm_middle.symm

end Tracks

/-- Copying a chain without empty links. -/
theorem owns_copyBufs {src : List Link} (hne : src ≠ []) (hsrc : ∀ k ∈ src, k.buf.isSome)
    {ptr : ℤ} (h : p.Owns xs) (hptr : ptr ∈ xs) (old : Option NgxBuf × List Link)
    {Q : List Link → Pool → Prop}
    (hQ : ∀ chain p', Rooted ptr chain → p'.Owns (xs ++ chainBlocks chain) → Q chain p') :
    wp SafeStop (copyBufs S stale (some (ptr, old)) src) Q p := by
  have hmem : ptr ∈ xs ++ [] := by rwa [List.append_nil]
  have hown : p.Owns (xs ++ []) := by rwa [List.append_nil]
  exact tracks_copyBufs (Pool.Owns.tracks xs) (Or.inr fun _ _ _ h => h.safe) hne hsrc
    hmem hown old fun chain p' hroot _ hp' => hQ chain p' hroot hp'

/-- Refilling a chain with an unread buffer or none. -/
theorem owns_taskSetBufs {chain src : List Link} (hunread : MemoryOp.Unread chain)
    (hdata : MemoryOp.HasData chain) (hended : MemoryOp.Ended src) {root : ℤ}
    (hroot : Rooted root chain) (hmem : root ∈ xs) (h : p.Owns (xs ++ chainBlocks chain))
    {Q : List Link → Pool → Prop}
    (hQ : ∀ chain' p', Rooted root chain' → p'.Owns (xs ++ chainBlocks chain') → Q chain' p') :
    wp SafeStop (taskSetBufs S stale chain src) Q p := by
  obtain ⟨hone, hpos⟩ := hunread
  obtain ⟨head, rfl⟩ := List.length_eq_one_iff.mp hone
  replace hpos := hpos head List.mem_cons_self
  obtain rfl : head.addr = root := Option.some.inj hroot
  -- the head is all there is, and `pos` is the base of its data
  have hclear : ∀ {Q : Unit → Pool → Prop}, (∀ p', p'.Owns xs → Q () p') →
      wp SafeStop (clearHead head) Q p := by
    intro Q hQ
    have hacc := h.access (List.mem_append_left _ hmem)
    simp only [clearHead, wp_bind, wp_access]
    cases hb : head.buf with
    | none =>
      rw [wp_pure]
      exact hQ _ (by simpa [chainBlocks, linkBlocks, hb] using hacc)
    | some b =>
      have hblocks : (xs ++ chainBlocks [head]).Perm (b.start :: b.addr :: xs) := by
        rw [List.perm_iff_count]
        intro c
        simp only [chainBlocks, linkBlocks_some hb, hdata head List.mem_cons_self b hb,
          NgxBuf.dataBlock_of_ne, ne_eq, not_false_eq_true, List.tail_cons, List.map_nil,
          List.nil_append, List.flatMap_cons, List.flatMap_nil, List.append_nil, List.count_append,
          List.count_cons, List.count_nil]
        omega
      have hown := (hacc.perm hblocks).access (a := b.addr) (by simp)
      simp only [wp_bind, wp_access, wp_free, hpos b hb]
      have hfree := hown.free.access (List.mem_cons_of_mem _ hmem)
      exact hQ _ (hfree.free.access hmem)
  simp only [taskSetBufs, wp_bind]
  refine hclear fun p' hp' => ?_
  simp only [clearRest, wp_bind, wp_pure, wp_access]
  have hacc := hp'.access hmem
  have hempty : ∀ {p' : Pool}, p'.Owns xs → p'.Owns (xs ++ chainBlocks [⟨head.addr, none⟩]) :=
    fun hp' => by simpa [chainBlocks, linkBlocks] using hp'
  cases src with
  | nil => exact hQ _ _ rfl (hempty hacc)
  | cons k ks =>
    cases hk : k.buf with
    | none =>
      simp only [copyBufs, hk, wp_pure, RawLink.chain]
      exact hQ _ _ rfl (hempty hacc)
    | some b =>
      have hsrc := hended (by simp [hk])
      exact owns_copyBufs (by simp) hsrc hacc hmem _ hQ

/-! ## Destruction -/

theorem owns_freeData {ls : List Link} (hdata : MemoryOp.HasData ls)
    (haddr : ∀ l ∈ ls, l.addr ∈ xs) (h : p.Owns (xs ++ ls.flatMap linkBlocks))
    {Q : Unit → Pool → Prop} (hQ : ∀ p', p'.Owns xs → Q () p') : wp SafeStop (freeData ls) Q p := by
  induction ls generalizing p with
  | nil => exact hQ p (by simpa using h)
  | cons l ls ih =>
    have hmem := haddr l List.mem_cons_self
    have hacc := h.access (List.mem_append_left _ hmem)
    simp only [freeData, wp_bind, wp_access]
    cases hb : l.buf with
    | none => exact hQ _ (hacc.sublist (List.sublist_append_left _ _))
    | some b =>
      have hblocks : (xs ++ (l :: ls).flatMap linkBlocks).Perm
          (b.start :: b.addr :: (xs ++ ls.flatMap linkBlocks)) := by
        rw [List.perm_iff_count]
        intro c
        simp only [linkBlocks_some hb, hdata l List.mem_cons_self b hb, NgxBuf.dataBlock_of_ne,
          ne_eq, not_false_eq_true, List.flatMap_cons, List.count_append, List.count_cons,
          List.count_nil]
        omega
      have hown := (hacc.perm hblocks).access (a := b.addr) (by simp)
      simp only [wp_bind, wp_access, wp_free]
      refine ih (fun k hk => hdata k (List.mem_cons_of_mem l hk))
        (fun k hk => haddr k (List.mem_cons_of_mem l hk)) ?_
      exact (hown.free.sublist (List.sublist_cons_self _ _)).access (List.mem_append_left _ hmem)

theorem owns_taskDestory {t : RpcTask} (hreq : Rooted t.addr t.reqBufs)
    (hres : Rooted t.addr t.resBufs) (hdata : MemoryOp.HasData t.reqBufs ∧
      MemoryOp.HasData t.resBufs) (h : p.Owns (xs ++ taskBlocks t)) {Q : Unit → Pool → Prop}
    (hQ : ∀ p', p'.Owns xs → Q () p') : wp SafeStop (taskDestory t) Q p := by
  have hlinks : ∀ {chain : List Link}, Rooted t.addr chain →
      ∀ l ∈ chain, l.addr = t.addr ∨ l.addr ∈ chain.tail.map Link.addr := by
    intro chain hroot l hl
    obtain ⟨k, ks, rfl, hk⟩ := hroot.exists_cons
    obtain rfl | hl := List.mem_cons.mp hl
    · exact Or.inl hk
    · exact Or.inr (List.mem_map_of_mem hl)
  have hperm : (xs ++ taskBlocks t).Perm ((t.addr :: xs ++ t.reqBufs.tail.map Link.addr ++
      chainBlocks t.resBufs) ++ t.reqBufs.flatMap linkBlocks) := by
    rw [List.perm_iff_count]
    intro a
    simp only [taskBlocks, chainBlocks, List.count_append, List.count_cons]
    omega
  simp only [taskDestory, wp_bind, wp_access]
  refine owns_freeData hdata.1 (fun l hl => ?_) ((h.access (by simp [taskBlocks])).perm hperm)
    fun p₁ hp₁ => ?_
  · rcases hlinks hreq l hl with haddr | hmem <;> simp_all
  · have hperm₁ : (t.addr :: xs ++ t.reqBufs.tail.map Link.addr ++ chainBlocks t.resBufs).Perm
        ((t.addr :: xs ++ t.reqBufs.tail.map Link.addr ++ t.resBufs.tail.map Link.addr) ++
          t.resBufs.flatMap linkBlocks) := by
      simp only [chainBlocks, List.append_assoc]
      exact List.Perm.refl _
    simp only [wp_bind]
    refine owns_freeData hdata.2 (fun l hl => ?_) (hp₁.perm hperm₁) fun p₂ hp₂ => ?_
    · rcases hlinks hres l hl with haddr | hmem <;> simp_all
    · simp only [List.cons_append, List.append_assoc] at hp₂
      simp only [wp_bind, wp_access, wp_free]
      exact hQ _ ((hp₂.access List.mem_cons_self).free.sublist (List.sublist_append_left _ _))

end Spec

/-! ## Runs -/

/-- The request owns the blocks of its context and task, and the chains of the task
start in it. -/
structure Sound (m : Memory) (p : Pool) : Prop where
  owns : p.Owns m.blocks
  req : ∀ t, m.task = some t → Rooted t.addr t.reqBufs
  res : ∀ t, m.task = some t → Rooted t.addr t.resBufs

/-- The request is sound, or its program stopped without a fault. -/
def SoundState (s : Except Stop Memory × Pool) : Prop :=
  match s with
  | (.ok m, p) => Sound m p
  | (.error _, p) => p.Safe

theorem soundState_iff {prog : SlabM Memory} {p : Pool} :
    SoundState (prog p) ↔ wp SafeStop prog Sound p := by
  unfold SoundState wp
  rcases prog p with ⟨e | m, p'⟩ <;> rfl

theorem SoundState.safe {s : Except Stop Memory × Pool} (h : SoundState s) : s.2.Safe := by
  obtain ⟨e | m, p⟩ := s
  · exact h
  · exact h.owns.safe

section Step

variable {S : Slab} {stale : StaleLink} {m : Memory} {p : Pool}

theorem Sound.ctxCreate (h : Sound m p) (hctx : m.ctx = none) :
    wp SafeStop (ctxCreate S) (fun ctx p' => Sound { m with ctx := ctx } p') p := by
  simp only [NgxRpc.ctxCreate, wp_bind]
  refine wp_alloc (fun _ => ?_) fun ctx _ hctx' _ => ?_
  · simp only [wp_pure, ← hctx]
    exact ⟨h.owns.refused _, h.req, h.res⟩
  · simp only [wp_bind, wp_access, wp_pure]
    have hown := (h.owns.alloc hctx').access List.mem_cons_self
    exact ⟨by simpa [Memory.blocks, hctx] using hown, h.req, h.res⟩

theorem Sound.taskCreate (h : Sound m p) (htask : m.task = none) :
    wp SafeStop (taskCreate S) (fun task p' => Sound { m with task := task } p') p := by
  simp only [NgxRpc.taskCreate, wp_bind]
  refine wp_alloc (fun _ => ?_) fun task _ htask' _ => ?_
  · simp only [wp_pure, ← htask]
    exact ⟨h.owns.refused _, h.req, h.res⟩
  · simp only [wp_bind, wp_access, wp_pure]
    have hown := (h.owns.alloc htask').access List.mem_cons_self
    have hperm : (task :: m.blocks).Perm (m.ctx.toList ++ [task]) := by
      simpa [Memory.blocks, htask] using (List.perm_append_singleton task m.ctx.toList).symm
    refine ⟨?_, ?_, ?_⟩
    · simpa [Memory.blocks, taskBlocks, chainBlocks, linkBlocks] using hown.perm hperm
    · intro t ht
      obtain rfl := Option.some.inj ht
      rfl
    · intro t ht
      obtain rfl := Option.some.inj ht
      rfl

variable {t : RpcTask}

theorem Sound.owns_task (h : Sound m p) (ht : m.task = some t) :
    p.Owns (m.ctx.toList ++ t.addr :: (chainBlocks t.reqBufs ++ chainBlocks t.resBufs)) := by
  have howns := h.owns
  rwa [Memory.blocks, ht] at howns

theorem sound_task {ctx : Option ℤ}
    (howns : p.Owns (ctx.toList ++ t.addr :: (chainBlocks t.reqBufs ++ chainBlocks t.resBufs)))
    (hreq : Rooted t.addr t.reqBufs) (hres : Rooted t.addr t.resBufs) :
    Sound ⟨ctx, some t⟩ p := by
  refine ⟨howns, ?_, ?_⟩ <;>
    · intro t' ht'
      obtain rfl := Option.some.inj ht'
      assumption

theorem Sound.taskSetBufs (h : Sound m p) (ht : m.task = some t) {src : List Link}
    (hunread : MemoryOp.Unread t.reqBufs) (hdata : MemoryOp.HasData t.reqBufs)
    (hended : MemoryOp.Ended src) :
    wp SafeStop (taskSetBufs S stale t.reqBufs src) (fun reqBufs p' =>
      Sound { m with task := some { t with reqBufs := reqBufs } } p') p := by
  have hperm : ∀ chain : List Link,
      (m.ctx.toList ++ t.addr :: (chainBlocks chain ++ chainBlocks t.resBufs)).Perm
        ((m.ctx.toList ++ t.addr :: chainBlocks t.resBufs) ++ chainBlocks chain) := by
    intro chain
    rw [List.perm_iff_count]
    intro a
    simp only [List.count_append, List.count_cons]
    omega
  refine owns_taskSetBufs hunread hdata hended (h.req t ht) (by simp)
    ((h.owns_task ht).perm (hperm t.reqBufs)) fun chain p' hroot hp' => ?_
  exact sound_task (hp'.perm (hperm chain).symm) hroot (h.res t ht)

theorem Sound.read (h : Sound m p) (ht : m.task = some t) (calls : List ReaderCall) :
    wp SafeStop (readCalls (.new t.reqBufs) calls) (fun r p' =>
      Sound { m with task := some { t with reqBufs := r.links } } p') p := by
  have hreq := h.req t ht
  have hcov : Covered (m.ctx.toList ++ t.addr :: (chainBlocks t.reqBufs ++ chainBlocks t.resBufs))
      (NgxChainBufferReader.new t.reqBufs).links := by
    refine (covered_of_rooted hreq).mono fun a ha => ?_
    obtain rfl | ha := List.mem_cons.mp ha
    · simp
    · simp [ha]
  refine wp_readCalls Pool.Owns.stable hcov (h.owns_task ht) calls fun r p' hkey hp' => ?_
  refine sound_task ?_ (hreq.congr hkey) (h.res t ht)
  have hblocks : chainBlocks r.links = chainBlocks t.reqBufs := chainBlocks_congr hkey
  simpa only [hblocks] using hp'

theorem Sound.write (h : Sound m p) (ht : m.task = some t) (calls : List WriterCall) :
    wp SafeStop (writeCalls S (.new t.addr 1) calls) (fun w p' =>
      Sound { m with task := some { t with resBufs := w.chain, resLength := w.totaly } } p') p := by
  have hperm : ∀ chain : List Link,
      m.ctx.toList ++ t.addr :: (chainBlocks t.reqBufs ++ chainBlocks chain) =
        (m.ctx.toList ++ t.addr :: chainBlocks t.reqBufs) ++ chainBlocks chain := by
    intro chain
    simp only [List.append_assoc, List.cons_append]
  have hown := h.owns_task ht
  rw [hperm] at hown
  have hnew : p.Owns ((m.ctx.toList ++ t.addr :: chainBlocks t.reqBufs) ++
      chainBlocks (NgxShmChainBufferWriter.new t.addr 1).chain) := by
    simpa [NgxShmChainBufferWriter.new, chainBlocks, linkBlocks] using
      hown.sublist (List.sublist_append_left _ _)
  refine owns_writeCalls hnew rfl (by simp) calls fun w p' hroot hp' => ?_
  exact sound_task ((hperm w.chain).symm ▸ hp') (h.req t ht) hroot

theorem Sound.taskDestory (h : Sound m p) (ht : m.task = some t)
    (hdata : MemoryOp.HasData t.reqBufs ∧ MemoryOp.HasData t.resBufs) :
    wp SafeStop (taskDestory t) (fun _ p' => Sound { m with task := none } p') p := by
  refine owns_taskDestory (h.req t ht) (h.res t ht) hdata (h.owns_task ht) fun p' hp' => ?_
  exact ⟨by simpa [Memory.blocks] using hp', by simp, by simp⟩

/-- One harmless operation misuses nothing. -/
theorem SoundState.step {s s' : Except Stop Memory × Pool} (h : SoundState s) {op : MemoryOp}
    (hok : op.harmless s) (hs : op.step S stale s = some s') : SoundState s' := by
  obtain ⟨e | m, p⟩ := s
  · cases hs
  obtain ⟨prog, hprog, rfl⟩ := Option.map_eq_some_iff.mp hs
  rw [soundState_iff]
  replace h : Sound m p := h
  cases op with
  | ctxCreate =>
    obtain ⟨hctx, hsome⟩ := Option.ite_none_right_eq_some.mp hprog
    obtain rfl := Option.some.inj hsome
    rw [wp_bind]
    exact h.ctxCreate hctx
  | taskCreate =>
    obtain ⟨htask, hsome⟩ := Option.ite_none_right_eq_some.mp hprog
    obtain rfl := Option.some.inj hsome
    rw [wp_bind]
    exact h.taskCreate htask
  | setBufs src =>
    obtain ⟨t, ht, rfl⟩ := Option.map_eq_some_iff.mp hprog
    rw [wp_bind]
    obtain ⟨hreq, hended⟩ := of_decide_eq_true hok
    obtain ⟨hunread, hdata⟩ := hreq m rfl t ht
    exact h.taskSetBufs ht hunread hdata hended
  | read calls =>
    obtain ⟨t, ht, rfl⟩ := Option.map_eq_some_iff.mp hprog
    rw [wp_bind]
    exact h.read ht calls
  | write calls =>
    obtain ⟨t, ht, rfl⟩ := Option.map_eq_some_iff.mp hprog
    -- the writer starts with an empty head: what the old chain owned is forgotten
    have hacc : Sound m (p.accessed t.addr) :=
      ⟨h.owns.access (by simp [Memory.blocks, ht, taskBlocks]), h.req, h.res⟩
    rw [wp_bind, wp_access, wp_bind]
    exact hacc.write ht calls
  | taskDestory =>
    obtain ⟨t, ht, rfl⟩ := Option.map_eq_some_iff.mp hprog
    rw [wp_bind]
    exact h.taskDestory ht (of_decide_eq_true hok m rfl t ht)
  | ctxDestroy => cases hok

/-- In a run of harmless operations every free is of the base of a live block, and no
block is touched after it was freed. -/
theorem runs_safe {live : Finset ℤ} {s : Except Stop Memory × Pool}
    (h : RunsTo (MemoryOp.step S stale) (fun s op => op.harmless s)
      (.ok ⟨none, none⟩, ⟨live, []⟩) s) : s.2.Safe := by
  refine SoundState.safe (h.invariant SoundState ?_ fun s op s' _ hs hok hstep => hs.step hok hstep)
  refine ⟨⟨?_, List.nodup_nil, by simp [Memory.blocks]⟩, by simp, by simp⟩
  intro e he
  cases he

end Step

/-- A request with a body of one byte. -/
def oneByte : List Link := [⟨0, some (bufferOf [1])⟩]

/-- A request is created, its body is copied and parsed, an answer is written and the
task is destroyed. -/
theorem runs_safe_request : ∃ s, run (MemoryOp.step (Slab.unlimited 0) fun _ => (none, []))
    MemoryOp.harmless (.ok ⟨none, none⟩, ⟨∅, []⟩) [.ctxCreate, .taskCreate, .setBufs oneByte,
      .read [.next, .next], .write [.next, .backUp 4095], .taskDestory] = some s ∧ s.2.Safe := by
  have hrun : (run (MemoryOp.step (Slab.unlimited 0) fun _ => (none, [])) MemoryOp.harmless
      (.ok ⟨none, none⟩, ⟨∅, []⟩) [.ctxCreate, .taskCreate, .setBufs oneByte,
        .read [.next, .next], .write [.next, .backUp 4095], .taskDestory]).isSome := by
    decide +kernel
  obtain ⟨s, hs⟩ := Option.isSome_iff_exists.mp hrun
  exact ⟨s, hs, runs_safe (runsTo_of_run (fun _ _ hop => hop) hs)⟩

/-- The answer to a forward is copied over a body that has been parsed: the data of the
old body is freed at its end instead of its start. -/
theorem not_runs_safe : ∃ s, Reachable (MemoryOp.step (Slab.unlimited 0) fun _ => (none, []))
    (.ok ⟨none, none⟩, ⟨∅, []⟩) s ∧ ¬s.2.Safe := by
  have hexec : (exec (MemoryOp.step (Slab.unlimited 0) fun _ => (none, []))
      (.ok ⟨none, none⟩, ⟨∅, []⟩) [.ctxCreate, .taskCreate, .setBufs oneByte, .read [.next],
        .setBufs oneByte]).any (fun s => decide ¬s.2.Safe) = true := by
    decide +kernel
  obtain ⟨s, hs, hunsafe⟩ := (Option.any_eq_true _ _).mp hexec
  exact ⟨s, reachable_of_exec hs, of_decide_eq_true hunsafe⟩

end NgxRpc
