import NgxRpc.ShmWriter

/-!
# The shared memory of a task

`ngx_rpc_task.c`: creating a task, filling one of its chains with a copy of a chain
of nginx, and destroying the task. The first link of either chain is a field of the
task, so it has the address of the task.

## Main definitions

- `RpcTask` — the fields of a task that hold data
- `taskCreate`, `taskSetBufs`, `taskDestory`
-/

namespace NgxRpc
open SlabPool

def sizeofTask : ℕ := 336
def sizeofCtx : ℕ := 40

/-- `MAX_PATH_NAME`. -/
def maxPathName : ℕ := 128

/-- The fields of `ngx_rpc_task_s` that carry data. -/
structure RpcTask where
  addr : ℤ
  path : List UInt8
  reqBufs : List Link
  reqLength : ℤ
  resBufs : List Link
  resLength : ℤ
  responseStates : ℤ
deriving DecidableEq

/-- The allocation of an rpc context in `ngx_http_rpc_http_handler`. -/
def ctxCreate (S : Slab) : SlabM (Option ℤ) := do
  match ← alloc S sizeofCtx with
  | none => pure none
  | some (ctx, _) => do
    access ctx
    pure (some ctx)

/-- `ngx_http_rpc_ctx_destroy`: it frees the context and then reads the log to write
to from its `method` field. -/
def ctxDestroy (ctx : ℤ) : SlabM Unit := do
  access ctx
  free ctx
  access ctx

/-- `ngx_http_rpc_task_create`. -/
def taskCreate (S : Slab) : SlabM (Option RpcTask) := do
  match ← alloc S sizeofTask with
  | none => pure none
  | some (task, _) => do
    access task
    pure (some {
      addr := task
      path := List.replicate maxPathName 0
      reqBufs := [⟨task, none⟩]
      reqLength := 0
      resBufs := [⟨task, none⟩]
      resLength := 0
      responseStates := 0 })

/-- The loop of `ngx_http_rpc_task_destory` over one chain: it frees the data of every
link up to the first one without a buffer. -/
def freeData : List Link → SlabM Unit
  | [] => pure ()
  | ptr :: ls => do
    access ptr.addr
    match ptr.buf with
    | none => pure ()
    | some b => do
      access b.addr
      free b.start
      access ptr.addr
      freeData ls

/-- `ngx_http_rpc_task_destory`. -/
def taskDestory (task : RpcTask) : SlabM Unit := do
  access task.addr
  freeData task.reqBufs
  freeData task.resBufs
  access task.addr
  free task.addr

/-- The part of `ngx_http_rpc_task_set_bufs` that frees the head of the old chain. -/
def clearHead (head : Link) : SlabM Unit := do
  access head.addr
  match head.buf with
  | none => pure ()
  | some b => do
    access b.addr
    free b.pos
    access head.addr
    free b.addr
    access head.addr

/-- The loop of `ngx_http_rpc_task_set_bufs` that frees the other links of the old
chain. It steps on through the link it has just freed. -/
def clearRest : List Link → SlabM Unit
  | [] => pure ()
  | ptr :: ls => do
    access ptr.addr
    let b ← deref ptr.buf
    access b.addr
    free b.pos
    access ptr.addr
    free b.addr
    access ptr.addr
    free ptr.addr
    access ptr.addr
    clearRest ls

/-- The fields of a link in a block whose bytes were never written. -/
abbrev StaleLink := List UInt8 → Option NgxBuf × List Link

/-- The buffer `ngx_http_rpc_task_set_bufs` makes for a source buffer. When that is empty
nothing is copied, and it goes on with what it got for the data, be it `NULL`. -/
def copyBuf (S : Slab) (ptr : ℤ) (src : NgxBuf) : SlabM NgxBuf := do
  let size := (src.last - src.pos) % 2 ^ 64
  let (buf, _) ← deref (← alloc S sizeofBuf)
  access ptr
  access buf
  let data := ((← alloc S size.toNat).map Prod.fst).getD 0
  access buf
  if size ≠ 0 then accessAt data
  pure { src with
    addr := buf
    start := data
    pos := data
    last := data + size
    end_ := data + size
    mem := (src.at_ src.pos).take size.toNat }

/-- A link whose fields have not been written by the copy loop; `none` is `NULL`. -/
abbrev RawLink := Option (ℤ × Option NgxBuf × List Link)

/-- The chain that starts at such a link. -/
def RawLink.chain : RawLink → List Link
  | none => []
  | some (ptr, buf, next) => ⟨ptr, buf⟩ :: next

/-- The loop of `ngx_http_rpc_task_set_bufs` that copies the source chain; `ptr` is the
link to fill. -/
def copyBufs (S : Slab) (stale : StaleLink) (ptr : RawLink) : List Link → SlabM (List Link)
  | [] => pure ptr.chain
  | src :: srcs =>
    match src.buf with
    | none => pure ptr.chain
    | some b => do
      let (ptr, _) ← deref ptr
      let buf ← copyBuf S ptr b
      if srcs = [] then
        access ptr
        pure [⟨ptr, some buf⟩]
      else
        let next ← alloc S sizeofChain
        access ptr
        let rest ← copyBufs S stale (next.map fun (a, bytes) => (a, stale bytes)) srcs
        pure (⟨ptr, some buf⟩ :: rest)

/-- `ngx_http_rpc_task_set_bufs` on the chain `reqBufs` of a task. -/
def taskSetBufs (S : Slab) (stale : StaleLink) (reqBufs srcBufs : List Link) :
    SlabM (List Link) :=
  match reqBufs with
  | [] => throw .nullDereference
  | head :: rest => do
    clearHead head
    clearRest rest
    access head.addr
    copyBufs S stale (some (head.addr, none, [])) srcBufs

/-! ## What is copied -/

/-- Buffer `c` is what `ngx_http_rpc_task_set_bufs` makes of buffer `b`. -/
structure CopyOf (b c : NgxBuf) : Prop where
  inFile : c.inFile = b.inFile
  pos : c.pos = c.start
  last : c.last = c.start + (b.last - b.pos) % 2 ^ 64
  mem : c.mem = (b.at_ b.pos).take ((b.last - b.pos) % 2 ^ 64).toNat

theorem CopyOf.mem_eq {b c : NgxBuf} (h : CopyOf b c) (hb : b.InMemory)
    (hsize : b.last - b.pos < 2 ^ 64) : c.mem = b.content := by
  have hpos := hb.pos_le
  rw [h.mem, Int.emod_eq_of_lt (by omega) hsize]
  rfl

/-- A copy of a buffer in memory is in memory. -/
theorem CopyOf.inMemory {b c : NgxBuf} (h : CopyOf b c) (hb : b.InMemory)
    (hsize : b.last - b.pos < 2 ^ 64) : c.InMemory := by
  have hpos := hb.pos_le
  have hlen := hb.length_content
  have hmem := h.mem_eq hb hsize
  have hcpos := h.pos
  have hlast := h.last
  rw [Int.emod_eq_of_lt (by omega) hsize] at hlast
  refine ⟨by rw [h.inFile, hb.inFile], by omega, by omega, ?_⟩
  rw [hmem]
  omega

/-- It holds the same bytes. -/
theorem CopyOf.content_eq {b c : NgxBuf} (h : CopyOf b c) (hb : b.InMemory)
    (hsize : b.last - b.pos < 2 ^ 64) : c.content = b.content := by
  have hpos := hb.pos_le
  have hlen := hb.length_content
  have hlast := h.last
  rw [Int.emod_eq_of_lt (by omega) hsize] at hlast
  have hcount : c.last - c.start = b.content.length := by omega
  simp only [NgxBuf.content, NgxBuf.at_, h.pos, hcount, Int.sub_self, Int.toNat_zero,
    List.drop_zero, h.mem_eq hb hsize, Int.toNat_natCast]
  exact List.take_length

/-- Link `l'` has what the copy loop makes of the buffer of link `l`. -/
def Link.CopyOf (l l' : Link) : Prop :=
  ∃ b c, l.buf = some b ∧ l'.buf = some c ∧ NgxRpc.CopyOf b c

section Spec

variable {S : Slab} {stale : StaleLink} {E : Stop → Prop} {p : Pool}

theorem wp_copyBuf (hroom : S.Unlimited ∨ E .nullDereference) {ptr : ℤ} {src : NgxBuf}
    {Q : NgxBuf → Pool → Prop} (hQ : ∀ c p', CopyOf src c → Q c p') :
    wpStop E (copyBuf S ptr src) Q p := by
  have hfail : ∀ {p n}, S.pick p n = none → E .nullDereference := fun hnone =>
    hroom.resolve_left fun hS => hS _ _ hnone
  simp only [copyBuf, wp_bind]
  apply wp_alloc
  · exact hfail
  · intro a _ _ _
    simp only [wp_bind, wp_deref_some, wp_access]
    apply wp_alloc
    · intro hnone
      simp only [wp_bind, wp_access, Option.map_none, Option.getD_none]
      split
      · simp only [wp_bind, wp_accessAt, if_true]
        exact hfail hnone
      · exact hQ _ _ ⟨rfl, rfl, rfl, rfl⟩
    · intro data _ _ hpos
      simp only [wp_bind, wp_access, Option.map_some, Option.getD_some]
      split
      · simp only [wp_bind, wp_accessAt, hpos.ne', if_false]
        exact hQ _ _ ⟨rfl, rfl, rfl, rfl⟩
      · exact hQ _ _ ⟨rfl, rfl, rfl, rfl⟩

/-- Every link of the source gets its copy, in order. -/
theorem wp_copyBufs (hroom : S.Unlimited ∨ E .nullDereference) {ptr : RawLink} {srcs : List Link}
    (hne : srcs ≠ []) (hptr : ptr.isSome ∨ E .nullDereference)
    (hsrcs : ∀ l ∈ srcs, l.buf.isSome) {Q : List Link → Pool → Prop}
    (hQ : ∀ chain p', List.Forall₂ Link.CopyOf srcs chain → Q chain p') :
    wpStop E (copyBufs S stale ptr srcs) Q p := by
  induction srcs generalizing ptr p Q with
  | nil => contradiction
  | cons src srcs ih =>
    obtain ⟨b, hb⟩ := Option.isSome_iff_exists.mp (hsrcs src List.mem_cons_self)
    cases ptr with
    | none =>
      simp only [copyBufs, hb, wp_bind, wp_deref_none]
      exact hptr.resolve_left (by decide)
    | some ptr =>
      simp only [copyBufs, hb, wp_bind, wp_deref_some]
      refine wp_copyBuf hroom fun c p₁ hc => ?_
      split
      · next hlast =>
        subst hlast
        simp only [wp_bind, wp_access, wp_pure]
        exact hQ _ _ (.cons ⟨b, c, hb, rfl, hc⟩ .nil)
      · next hmore =>
        have hrest : ∀ l ∈ srcs, l.buf.isSome := fun l hl => hsrcs l (List.mem_cons_of_mem src hl)
        simp only [wp_bind]
        apply wp_alloc
        · intro hnone
          simp only [wp_bind, wp_access]
          refine ih hmore (Or.inr ?_) hrest fun chain p₂ hchain => ?_
          · exact hroom.resolve_left fun hS => hS _ _ hnone
          · exact hQ _ _ (.cons ⟨b, c, hb, rfl, hc⟩ hchain)
        · intro next _ _ _
          simp only [wp_bind, wp_access]
          refine ih hmore (Or.inl rfl) hrest fun chain p₂ hchain => ?_
          exact hQ _ _ (.cons ⟨b, c, hb, rfl, hc⟩ hchain)

/-- The first filling of the chain of a task. -/
theorem wp_taskSetBufs (hroom : S.Unlimited ∨ E .nullDereference) {task : ℤ} {srcs : List Link}
    (hne : srcs ≠ []) (hsrcs : ∀ l ∈ srcs, l.buf.isSome) {Q : List Link → Pool → Prop}
    (hQ : ∀ chain p', List.Forall₂ Link.CopyOf srcs chain → Q chain p') :
    wpStop E (taskSetBufs S stale [⟨task, none⟩] srcs) Q p := by
  simp only [taskSetBufs, clearHead, clearRest, wp_bind, wp_access, wp_pure]
  exact wp_copyBufs hroom hne (Or.inl rfl) hsrcs hQ

end Spec

end NgxRpc
