import NgxRpc.Calls
import NgxRpc.Channel

/-!
# What a request leaves behind

A request from the allocation of its rpc context to the cleanups of its connection, with
any number of forwards. The cleanups free the task, the context and the data of the
buffers, but no `ngx_buf_t` and no chain link that `ngx_http_rpc_task_set_bufs` or a
writer allocated. The blocks are counted: every refill of `req_bufs` frees at most what
the refill before it allocated, and every writer leaves at least one block.

## Main definitions

- `handleRequest` — a request and its cleanups

## Main results

- `handleRequest_live_iff` — the requests that leave nothing behind
-/

namespace NgxRpc
open SlabPool NgxShmChainBufferWriter

/-- A forward: the message and where it goes, the chain of the sub-response when its
status is 200, and what the parser reads of `req_bufs` afterwards. -/
structure Forward where
  path : List UInt8
  message : List UInt8
  response : Option (List Link)
  parse : List ReaderCall
deriving DecidableEq

/-- What a processor does with a task: it parses the body, forwards messages and writes
the response. -/
structure Service where
  parse : List ReaderCall
  forwards : List Forward
  response : List UInt8
  result : ℤ
deriving DecidableEq

/-- A request with body chain `body`, empty when `r->request_body->bufs` is `NULL`. It is
not served when no processor takes it. -/
structure Request where
  body : List Link
  contentLengthN : ℤ
  service : Option Service
deriving DecidableEq

/-- Parse `req_bufs` through a new reader. -/
def parseBufs (task : RpcTask) (calls : List ReaderCall) : SlabM RpcTask := do
  let reader ← readCalls (.new task.reqBufs) calls
  pure { task with reqBufs := reader.links }

section Program

variable (S : Slab) (stale : StaleLink)

/-- `ngx_http_rpc_subrequest_done_handler`, as far as it writes the chains. -/
def subrequestDoneHandler (task : RpcTask) : Option (List Link) → SlabM RpcTask
  | none => pure task
  | some out => do
    let reqBufs ← taskSetBufs S stale task.reqBufs out
    pure { task with reqBufs := reqBufs }

/-- `forward_request`, the sub-request, and the parse in `foward_done`. -/
def forward (task : RpcTask) (f : Forward) : SlabM RpcTask := do
  let task ← forwardRequest S task f.path f.message
  let task ← subrequestDoneHandler S stale task f.response
  parseBufs task f.parse

/-- The forwards of a task, one after the other. -/
def forwardAll (task : RpcTask) : List Forward → SlabM RpcTask
  | [] => pure task
  | f :: fs => do
    let task ← forward S stale task f
    forwardAll task fs

/-- A processor serves a task. -/
def serveTask (task : RpcTask) (s : Service) : SlabM RpcTask := do
  let task ← parseBufs task s.parse
  let task ← forwardAll S stale task s.forwards
  finishRequest S task s.response s.result

/-- `ngx_http_rpc_post_async_handler` and what follows until the request is finished. The
result is the task, or `none` when the request is answered without one. -/
def postAsyncHandler (r : Request) : SlabM (Option RpcTask) :=
  if r.body = [] then pure none
  else do
    let task ← deref (← taskCreate S)
    let reqBufs ← taskSetBufs S stale task.reqBufs r.body
    let task := { task with reqBufs := reqBufs, reqLength := r.contentLengthN }
    access task.addr
    match r.service with
    | none => pure (some { task with responseStates := 500, resLength := 0 })
    | some s => some <$> serveTask S stale task s

/-- `ngx_http_rpc_http_handler`, and at the end the cleanups of the connection, the last
one added first. -/
def handleRequest (r : Request) : SlabM Unit := do
  match ← ctxCreate S with
  | none => pure ()
  | some ctx => do
    match ← postAsyncHandler S stale r with
    | none => pure ()
    | some task => taskDestory task
    ctxDestroy ctx

end Program

/-! ## Counting blocks -/

/-- The buffers of a chain. -/
def bufs (chain : List Link) : ℕ := chain.countP fun l => l.buf.isSome

/-- The buffers of a chain that have data. -/
def starts (chain : List Link) : ℕ := chain.countP fun l => l.buf.any fun b => b.start ≠ 0

/-- The blocks `ngx_http_rpc_task_set_bufs` allocates for a chain: a buffer and its data, and
a link after the first one. The next refill frees no more. -/
def owed (chain : List Link) : ℕ := bufs chain + starts chain + chain.tail.length

theorem bufs_cons (l : Link) (ls : List Link) : bufs (l :: ls) = bufs [l] + bufs ls := by
  rw [bufs, bufs, bufs, ← List.countP_append, List.singleton_append]

theorem starts_cons (l : Link) (ls : List Link) :
    starts (l :: ls) = starts [l] + starts ls := by
  rw [starts, starts, starts, ← List.countP_append, List.singleton_append]

theorem bufs_congr {chain chain' : List Link} (h : chain'.map Link.key = chain.map Link.key) :
    bufs chain' = bufs chain := by
  have hkeys : ∀ c : List Link, bufs c = (c.map Link.key).countP fun k => !k.2.isEmpty := by
    intro c
    rw [bufs, List.countP_map]
    refine List.countP_congr fun l _ => ?_
    cases hb : l.buf <;> simp [Link.key, linkBlocks, hb]
  rw [hkeys, hkeys, h]

theorem starts_congr {chain chain' : List Link} (h : chain'.map Link.key = chain.map Link.key) :
    starts chain' = starts chain := by
  have hkeys : ∀ c : List Link, starts c =
      (c.map Link.key).countP fun k => !k.2.tail.isEmpty := by
    intro c
    rw [starts, List.countP_map]
    refine List.countP_congr fun l _ => ?_
    cases hb : l.buf with
    | none => simp [Link.key, linkBlocks, hb]
    | some b =>
      by_cases hnull : b.start = 0 <;>
        simp [Link.key, linkBlocks, NgxBuf.dataBlock, hb, hnull]
  rw [hkeys, hkeys, h]

theorem owed_congr {chain chain' : List Link} (h : chain'.map Link.key = chain.map Link.key) :
    owed chain' = owed chain := by
  have hlen := congrArg List.length h
  rw [List.length_map, List.length_map] at hlen
  rw [owed, owed, bufs_congr h, starts_congr h, List.length_tail, List.length_tail, hlen]

/-- Destroying a task frees fewer blocks of a chain than were allocated for it. -/
theorem starts_le_owed (chain : List Link) : starts chain ≤ owed chain := by
  rw [owed]
  omega

theorem starts_lt_owed {l : Link} {ls : List Link} (hl : l.buf.isSome) :
    starts (l :: ls) < owed (l :: ls) := by
  have hone : bufs [l] = 1 := by simp [bufs, hl]
  have hcons := bufs_cons l ls
  rw [owed]
  omega

/-- What the code takes for the data of a buffer at `NULL` is no address of a block: the buffer
is empty, and reading moves `pos` at most below it. -/
def NullsEmpty (chain : List Link) : Prop :=
  ∀ l ∈ chain, ∀ b ∈ l.buf, b.start = 0 → b.last = 0 ∧ b.pos ≤ 0

theorem nullsEmpty_nil : NullsEmpty [] := fun _ hl => absurd hl List.not_mem_nil

theorem NullsEmpty.cons {l : Link} {b : NgxBuf} {ls : List Link} (h : NullsEmpty ls)
    (hl : l.buf = some b) (hb : b.start = 0 → b.last = 0 ∧ b.pos ≤ 0) : NullsEmpty (l :: ls) := by
  intro k hk c hc
  obtain rfl | hk := List.mem_cons.mp hk
  · obtain rfl := Option.some.inj (hl.symm.trans hc)
    exact hb
  · exact h k hk c hc

section Count

variable {S : Slab} {stale : StaleLink} {p : Pool} {c : ℤ}

/-! ## Writing a message -/

theorem holds_newBuf {ptr ex : ℤ} (h : p.Holds c) {Q : Link × Region × ℤ → Pool → Prop}
    (hQ : ∀ l r ex' p', bufs [l] = 1 → p'.Holds (c + 1 + starts [l]) → Q (l, r, ex') p') :
    wp AnyStop (newBuf S ptr ex) Q p := by
  simp only [newBuf, wp_bind]
  refine wp_alloc (fun _ => trivial) fun a _ ha hpos => ?_
  simp only [wp_bind, wp_deref_some]
  have hbuf := h.alloc ha hpos
  -- without room for the data the buffer alone is left, with `start` at `NULL`
  refine wp_alloc (fun _ => ?_) fun a' _ ha' hpos' => ?_
  · simp only [wp_bind, wp_access, wp_pure, Option.getD_none]
    apply hQ _ _ _ _ rfl
    exact (((hbuf.refused _).access a).access ptr).mono (by simp [starts])
  · simp only [wp_bind, wp_access, wp_pure, Option.getD_some]
    apply hQ _ _ _ _ rfl
    exact (((hbuf.alloc ha' hpos').access a).access ptr).mono (by simp [starts, hpos'.ne'])

/-- `Next` at the last link allocates a buffer for it, or a link and a buffer, or nothing. -/
theorem holds_nextFrom_last {ex : ℤ} {l : Link} (h : p.Holds (c + bufs [l] + starts [l]))
    {Q : List Link × Region × ℤ → Pool → Prop}
    (hQ : ∀ chain' r ex' p', 0 < bufs chain' → p'.Holds (c + bufs chain' + starts chain') →
      Q (chain', r, ex') p') :
    wp AnyStop (nextFrom S ex [l]) Q p := by
  have hacc := h.access l.addr
  simp only [nextFrom, wp_bind, wp_access]
  split
  · next hnone =>
    simp only [wp_bind]
    refine holds_newBuf hacc fun l' r ex' p' hl' hp' => ?_
    rw [wp_pure]
    refine hQ [l'] r ex' p' (by omega) (hp'.mono ?_)
    omega
  · next b hb =>
    have hacc' := hacc.access b.addr
    simp only [wp_bind, wp_access]
    split
    · simp only [wp_bind]
      refine wp_alloc (fun _ => trivial) fun next _ hnext hpos => ?_
      simp only [wp_bind, wp_deref_some, wp_access]
      have hlink := ((hacc'.alloc hnext hpos).access l.addr).access next
      refine holds_newBuf hlink fun l' r ex' p' hl' hp' => ?_
      have hbufs := bufs_cons l [l']
      have hstarts := starts_cons l [l']
      rw [wp_pure]
      refine hQ [l, l'] r ex' p' (by omega) (hp'.mono ?_)
      push_cast [hbufs, hstarts]
      omega
    · rw [wp_pure]
      have hkey : [({ l with buf := some { b with pos := b.last, last := b.end_ } } : Link)].map
          Link.key = [l].map Link.key := by simp [Link.key, linkBlocks, NgxBuf.dataBlock, hb]
      apply hQ _ _ _ _
      · rw [bufs_congr hkey]
        simp [bufs, hb]
      rw [bufs_congr hkey, starts_congr hkey]
      exact hacc'

/-- `Next` allocates what its chain grows by. -/
theorem holds_nextFrom {ex : ℤ} {chain : List Link}
    (h : p.Holds (c + bufs chain + starts chain)) {Q : List Link × Region × ℤ → Pool → Prop}
    (hQ : ∀ chain' r ex' p', 0 < bufs chain' → p'.Holds (c + bufs chain' + starts chain') →
      Q (chain', r, ex') p') :
    wp AnyStop (nextFrom S ex chain) Q p := by
  induction chain generalizing c p Q with
  | nil => trivial
  | cons l ls ih =>
    cases ls with
    | nil => exact holds_nextFrom_last h hQ
    | cons k ks =>
      simp only [nextFrom, wp_bind, wp_access]
      cases hb : l.buf with
      | none => trivial
      | some b =>
        simp only [wp_deref_some, wp_bind, wp_access]
        rw [bufs_cons, starts_cons] at h
        have hrest : p.Holds (c + bufs [l] + starts [l] + bufs (k :: ks) + starts (k :: ks)) :=
          h.mono (by push_cast; omega)
        refine ih ((hrest.access l.addr).access b.addr) fun chain' r ex' p' hpos hp' => ?_
        rw [wp_pure]
        have hkey : (({ l with buf := some { b with lastBuf := false } } : Link) :: chain').map
            Link.key = (l :: chain').map Link.key := by
          simp [Link.key, linkBlocks, NgxBuf.dataBlock, hb]
        refine hQ _ _ _ _ ?_ (hp'.mono ?_)
        · rw [bufs_congr hkey, bufs_cons]
          omega
        · rw [bufs_congr hkey, starts_congr hkey, bufs_cons, starts_cons]
          push_cast
          omega

/-- The writer of a message holds a block besides the data of its buffers. -/
def Wrote (c : ℤ) (w : NgxShmChainBufferWriter) (p : Pool) : Prop :=
  0 < bufs w.chain ∧ p.Holds (c + bufs w.chain + starts w.chain)

theorem Wrote.congr {w w' : NgxShmChainBufferWriter} {p' : Pool} (h : Wrote c w p)
    (hkey : w'.chain.map Link.key = w.chain.map Link.key)
    (hp : p'.Holds (c + bufs w.chain + starts w.chain)) : Wrote c w' p' := by
  rw [Wrote, bufs_congr hkey, starts_congr hkey]
  exact ⟨h.1, hp⟩

theorem holds_next {w : NgxShmChainBufferWriter}
    (h : p.Holds (c + bufs w.chain + starts w.chain)) :
    wp AnyStop (next S w) (fun r p' => Wrote c r.1 p') p := by
  simp only [next, wp_bind]
  refine holds_nextFrom h fun chain' r ex' p' hpos hp' => ?_
  simp only [wp_pure]
  exact ⟨hpos, hp'⟩

/-- Every list covers the blocks of a chain for counting. -/
theorem exists_covered (chain : List Link) : ∃ xs, Covered xs chain := by
  refine ⟨chain.flatMap fun l => l.addr :: linkBlocks l, fun l hl => ⟨?_, fun a ha => ?_⟩⟩
  · exact List.mem_flatMap.mpr ⟨l, hl, List.mem_cons_self⟩
  · exact List.mem_flatMap.mpr ⟨l, hl, List.mem_cons_of_mem _ ha⟩

theorem Wrote.storeLast {w : NgxShmChainBufferWriter} (h : Wrote c w p) (data : ℤ)
    (bytes : List UInt8) :
    wp AnyStop (storeLast data bytes w.chain)
      (fun chain p' => Wrote c { w with chain := chain } p') p := by
  obtain ⟨xs, hcov⟩ := exists_covered w.chain
  exact wp_storeLast (Pool.Holds.stable xs) (fun l hl => (hcov l hl).2) h.2
    fun _ _ hkey hp' => h.congr hkey hp'

theorem Wrote.writeRaw {w : NgxShmChainBufferWriter} (h : Wrote c w p) (buffer : Region)
    (bytes : List UInt8) :
    wp AnyStop (writeRaw S w buffer bytes) (fun r p' => Wrote c r.1 p') p := by
  induction w, buffer, bytes using writeRaw.induct generalizing p with
  | case1 w buffer bytes hfit =>
    rw [NgxShmChainBufferWriter.writeRaw, if_pos hfit, wp_bind]
    exact wp_mono (fun _ _ hw => hw) (h.storeLast buffer.data bytes)
  | case2 w buffer bytes hfit hnonneg ih =>
    rw [NgxShmChainBufferWriter.writeRaw, if_neg hfit, if_pos hnonneg, wp_bind]
    refine wp_mono (fun chain p' hw => ?_) (h.storeLast buffer.data _)
    rw [wp_bind]
    refine wp_mono ?_ (holds_next hw.2)
    rintro ⟨w', buffer'⟩ p₂ hw'
    simp only at hw' ⊢
    split
    · next hpos => exact ih w' buffer' hpos hw'
    · trivial
  | case3 w buffer bytes hfit hneg =>
    rw [NgxShmChainBufferWriter.writeRaw, if_neg hfit, if_neg hneg]
    trivial

/-- Every message leaves a block besides the data of its regions. -/
theorem holds_serialize (h : p.Holds c) (ch : ℤ) (bytes : List UInt8) :
    wp AnyStop (serializeToZeroCopyStream S (new ch 1) bytes)
      (fun w p' => p'.Holds (c + 1 + starts w.chain)) p := by
  have hnew : p.Holds (c + bufs (new ch 1).chain + starts (new ch 1).chain) := by
    simpa [new, bufs, starts] using h
  have hwrote : ∀ {w : NgxShmChainBufferWriter} {p' : Pool}, Wrote c w p' →
      p'.Holds (c + 1 + starts w.chain) := fun hw => hw.2.mono (by have := hw.1; omega)
  simp only [serializeToZeroCopyStream, wp_bind]
  refine wp_mono ?_ (holds_next hnew)
  rintro ⟨w, buffer⟩ p₁ hw
  rw [wp_bind]
  refine wp_mono ?_ (hw.writeRaw buffer bytes)
  rintro ⟨w', buffer'⟩ p₂ hw'
  simp only at hw' ⊢
  split
  · obtain ⟨xs, hcov⟩ := exists_covered w'.chain
    exact wp_backUp (Pool.Holds.stable xs) hcov hw'.2 _
      fun w₂ p₃ hkey hp₃ => hwrote (hw'.congr hkey hp₃)
  · exact hwrote hw'

/-! ## Refilling and reading -/

/-- Freeing what was allocated for the data of a buffer, if anything was. -/
theorem holds_free_data {l : Link} {b : NgxBuf} {a : ℤ} (h : p.Holds (c + starts [l]))
    (hb : l.buf = some b) (hnull : b.start = 0 → a ≤ 0) : (p.freed a).Holds c := by
  by_cases hstart : b.start = 0
  · exact (h.free_nonpos (hnull hstart)).mono (by omega)
  · have hone : starts [l] = 1 := by simp [starts, hb, hstart]
    exact (h.free a).mono (by omega)

theorem holds_copyBuf {ptr : ℤ} (h : p.Holds c) (src : NgxBuf) :
    wp AnyStop (copyBuf S ptr src) (fun b p' => p'.Holds (c + 1 + starts [⟨ptr, some b⟩]) ∧
      (b.start = 0 → b.last = 0 ∧ b.pos ≤ 0)) p := by
  simp only [copyBuf, wp_bind]
  refine wp_alloc (fun _ => trivial) fun buf _ hbuf hpos => ?_
  simp only [wp_bind, wp_deref_some, wp_access]
  have hown := ((h.alloc hbuf hpos).access ptr).access buf
  refine wp_alloc (fun _ => ?_) fun data _ hdata hpos' => ?_
  · simp only [wp_bind, wp_access, Option.map_none, Option.getD_none]
    split
    · simp only [wp_bind, wp_accessAt, if_true]
      trivial
    · next hempty =>
      refine ⟨((hown.refused _).access buf).mono (by simp [starts]), fun _ => ?_⟩
      exact ⟨by rw [not_not.mp hempty, Int.add_zero], le_rfl⟩
  · have hfull : ∀ {p' : Pool}, p'.Holds (c + 1 + 1) → p'.Holds (c + 1 + starts [⟨ptr,
        some { src with addr := buf, start := data, pos := data,
                        last := data + (src.last - src.pos) % 2 ^ 64,
                        end_ := data + (src.last - src.pos) % 2 ^ 64,
                        mem := (src.at_ src.pos).take ((src.last - src.pos) % 2 ^ 64).toNat }⟩]) :=
      fun hp' => hp'.mono (by simp [starts, hpos'.ne'])
    have hnull : data = 0 → data + (src.last - src.pos) % 2 ^ 64 = 0 ∧ data ≤ 0 :=
      fun hzero => absurd hzero hpos'.ne'
    have hnew := (hown.alloc hdata hpos').access buf
    simp only [wp_bind, wp_access, Option.map_some, Option.getD_some]
    split
    · simp only [wp_bind, wp_accessAt, if_neg hpos'.ne', wp_pure]
      exact ⟨hfull (hnew.access data), hnull⟩
    · exact ⟨hfull hnew, hnull⟩

/-- Besides `c` blocks those are live that were allocated for the chain. -/
def Accounted (c : ℤ) (chain : List Link) (p : Pool) : Prop :=
  p.Holds (c + owed chain) ∧ NullsEmpty chain

/-- Copying a chain without empty links allocates what is owed for the copy. -/
theorem holds_copyBufs {src : List Link} (hne : src ≠ []) (hsrc : ∀ k ∈ src, k.buf.isSome)
    (h : p.Holds c) (ptr : ℤ) (old : Option NgxBuf × List Link) :
    wp AnyStop (copyBufs S stale (some (ptr, old)) src) (fun chain p' =>
      ∃ l ls, chain = l :: ls ∧ l.buf.isSome ∧ Accounted c chain p') p := by
  induction src generalizing p c ptr old with
  | nil => exact absurd rfl hne
  | cons k ks ih =>
    obtain ⟨b, hb⟩ := Option.isSome_iff_exists.mp (hsrc k List.mem_cons_self)
    simp only [copyBufs, hb, wp_bind, wp_deref_some]
    refine wp_mono ?_ (holds_copyBuf h b)
    rintro b' p' ⟨hp', hempty⟩
    have hone : bufs [⟨ptr, some b'⟩] = 1 := rfl
    split
    · simp only [wp_bind, wp_access, wp_pure]
      refine ⟨_, _, rfl, rfl, (hp'.access ptr).mono ?_, nullsEmpty_nil.cons rfl hempty⟩
      simp only [owed, hone, List.tail_cons, List.length_nil]
      omega
    · next hks =>
      simp only [wp_bind]
      refine wp_alloc (fun _ => ?_) fun next _ hnext hpos => ?_
      · -- the next round writes through the `NULL` link
        obtain ⟨k', ks', rfl⟩ := List.exists_cons_of_ne_nil hks
        obtain ⟨d, hd⟩ := Option.isSome_iff_exists.mp (hsrc k' (by simp))
        simp only [wp_bind, wp_access, Option.map_none, copyBufs, hd, wp_deref_none]
        trivial
      · simp only [wp_bind, wp_access, Option.map_some]
        refine wp_mono ?_ (ih hks (fun j hj => hsrc j (List.mem_cons_of_mem k hj))
          ((hp'.alloc hnext hpos).access ptr) next _)
        rintro chain p₂ ⟨l, ls, rfl, -, hp₂, hrest⟩
        rw [wp_pure]
        refine ⟨_, _, rfl, rfl, hp₂.mono ?_, hrest.cons rfl hempty⟩
        have hbufs := bufs_cons ⟨ptr, some b'⟩ (l :: ls)
        have hstarts := starts_cons ⟨ptr, some b'⟩ (l :: ls)
        simp only [owed, List.tail_cons, List.length_cons]
        omega

theorem holds_clearRest {ls : List Link} (hnull : NullsEmpty ls)
    (h : p.Holds (c + bufs ls + starts ls + ls.length)) :
    wp AnyStop (clearRest ls) (fun _ p' => p'.Holds c) p := by
  induction ls generalizing p with
  | nil => simpa [clearRest, bufs, starts] using h
  | cons l ls ih =>
    simp only [clearRest, wp_bind, wp_access]
    cases hb : l.buf with
    | none => trivial
    | some b =>
      have hone : bufs [l] = 1 := by simp [bufs, hb]
      rw [bufs_cons, starts_cons, hone, List.length_cons] at h
      have hdata : p.Holds (c + bufs ls + starts ls + ls.length + 2 + starts [l]) :=
        h.mono (by push_cast; omega)
      have hpos := holds_free_data ((hdata.access l.addr).access b.addr) hb
        fun hstart => (hnull l List.mem_cons_self b hb hstart).2
      simp only [wp_bind, wp_deref_some, wp_access, wp_free]
      have hfree := ((hpos.access l.addr).free b.addr).access l.addr
      refine ih (fun k hk => hnull k (List.mem_cons_of_mem l hk)) ?_
      exact ((hfree.free l.addr).access l.addr).mono (by omega)

theorem holds_clearHead {head : Link} (hnull : NullsEmpty [head])
    (h : p.Holds (c + bufs [head] + starts [head])) :
    wp AnyStop (clearHead head) (fun _ p' => p'.Holds c) p := by
  have hacc := h.access head.addr
  simp only [clearHead, wp_bind, wp_access]
  cases hb : head.buf with
  | none =>
    rw [wp_pure]
    exact hacc.mono (by omega)
  | some b =>
    have hone : bufs [head] = 1 := by simp [bufs, hb]
    rw [hone] at hacc
    simp only [wp_bind, wp_access, wp_free]
    have hpos := holds_free_data (hacc.access b.addr) hb
      fun hstart => (hnull head List.mem_cons_self b hb hstart).2
    exact (((hpos.access head.addr).free b.addr).access head.addr).mono (by omega)

/-- A refill frees what was owed for the old chain, and copying a buffer leaves more to
free than its data. -/
theorem holds_taskSetBufs {chain src : List Link} (hsrc : ∀ k ∈ src, k.buf.isSome)
    (h : Accounted c chain p) :
    wp AnyStop (taskSetBufs S stale chain src) (fun chain' p' => Accounted c chain' p' ∧
      (src ≠ [] → starts chain' < owed chain')) p := by
  obtain ⟨h, hnull⟩ := h
  cases chain with
  | nil => trivial
  | cons head rest =>
    rw [owed, bufs_cons, starts_cons, List.tail_cons] at h
    have hhead : p.Holds
        (c + bufs rest + starts rest + rest.length + bufs [head] + starts [head]) :=
      h.mono (by push_cast; omega)
    simp only [taskSetBufs, wp_bind]
    refine wp_mono (fun _ p₁ hp₁ => ?_) (holds_clearHead
      (fun l hl => hnull l (List.mem_singleton.mp hl ▸ List.mem_cons_self)) hhead)
    rw [wp_bind]
    refine wp_mono (fun _ p₂ hp₂ => ?_) (holds_clearRest
      (fun l hl => hnull l (List.mem_cons_of_mem head hl)) hp₁)
    rw [wp_bind, wp_access]
    have hacc := hp₂.access head.addr
    cases src with
    | nil =>
      refine ⟨⟨by simpa [RawLink.chain, owed, bufs, starts] using hacc, ?_⟩,
        fun hne => absurd rfl hne⟩
      simp [NullsEmpty, RawLink.chain]
    | cons k ks =>
      refine wp_mono ?_ (holds_copyBufs (by simp) hsrc hacc head.addr (none, []))
      rintro chain' p' ⟨l, ls, rfl, hl, hp'⟩
      exact ⟨hp', fun _ => starts_lt_owed hl⟩

theorem NullsEmpty.next {r r' : NgxChainBufferReader} {chunk : Option Chunk}
    (h : NullsEmpty r.links) (hnext : r.next 2 = some (.ok (chunk, r'))) : NullsEmpty r'.links := by
  have hne : r.chain ≠ [] := by
    intro hnil
    simp [NgxChainBufferReader.next, hnil] at hnext
  obtain ⟨x, hx, he⟩ := (NgxChainBufferReader.nextReturns_iff hne).mp ⟨2, hnext⟩
  cases x with
  | none =>
    obtain ⟨-, rfl⟩ := Prod.mk.inj he
    exact h
  | some ib =>
    obtain ⟨i, b⟩ := ib
    obtain ⟨-, rfl⟩ := Prod.mk.inj he
    obtain ⟨j, hj⟩ := hx.exists_stop
    obtain ⟨l, hl, hb, -⟩ := NgxChainBufferReader.nextBody_inr hj
    intro k hk c hc hnull
    obtain hk | hk := List.mem_append.mp hk
    · exact h k (List.mem_append_left _ hk) c hc hnull
    · obtain ⟨m, hm⟩ := List.mem_iff_getElem?.mp hk
      rw [NgxChainBufferReader.deliver, List.getElem?_modify, Option.map_eq_map,
        Option.map_eq_some_iff] at hm
      obtain ⟨k', hk', rfl⟩ := hm
      have hmem := h k' (List.mem_append_right _ (List.mem_of_getElem? hk'))
      by_cases hi : i = m
      · -- the buffer that is given out is read to its end
        subst hi
        obtain rfl := Option.some.inj (hl.symm.trans hk')
        rw [if_pos rfl] at hc
        obtain rfl := Option.some.inj hc
        have hlast := (hmem b hb hnull).1
        exact ⟨hlast, hlast.le⟩
      · rw [if_neg hi] at hc
        exact hmem c hc hnull

theorem NullsEmpty.setPos {passed ls : List Link} {l : Link} {b : NgxBuf} {pos : ℤ}
    (h : NullsEmpty (passed ++ l :: ls)) (hb : l.buf = some b)
    (hpos : b.last = 0 → b.pos ≤ 0 → pos ≤ 0) :
    NullsEmpty (passed ++ { l with buf := some { b with pos := pos } } :: ls) := by
  intro k hk c hc hnull
  obtain hk | hk := List.mem_append.mp hk
  · exact h k (List.mem_append_left _ hk) c hc hnull
  · obtain rfl | hk := List.mem_cons.mp hk
    · obtain rfl := Option.some.inj hc
      obtain ⟨hlast, hle⟩ := h l (by simp) b hb hnull
      exact ⟨hlast, hpos hlast hle⟩
    · exact h k (by simp [hk]) c hc hnull

theorem NullsEmpty.backUp {r r' : NgxChainBufferReader} {count : ℕ} (h : NullsEmpty r.links)
    (hback : r.backUp count = .ok r') : NullsEmpty r'.links := by
  rw [NgxChainBufferReader.backUp] at hback
  split at hback
  · cases hback
  · next l ls hchain =>
    split at hback
    · cases hback
    · next b hb =>
      obtain rfl := Except.ok.inj hback
      rw [NgxChainBufferReader.links, hchain] at h
      exact h.setPos hb fun hlast hpos => by omega

theorem NullsEmpty.skip {r r' : NgxChainBufferReader} {count : ℕ} {ok : Bool}
    (h : NullsEmpty r.links) (hskip : r.skip count = .ok (ok, r')) : NullsEmpty r'.links := by
  rw [NgxChainBufferReader.skip] at hskip
  split at hskip
  · cases hskip
  · next l ls hchain =>
    split at hskip
    · obtain ⟨-, rfl⟩ := Prod.mk.inj (Except.ok.inj hskip)
      exact h
    · next b hb =>
      simp only at hskip
      split at hskip
      · obtain ⟨-, rfl⟩ := Prod.mk.inj (Except.ok.inj hskip)
        exact h
      · rw [NgxChainBufferReader.links, hchain] at h
        split at hskip
        · split at hskip
          · cases hskip
          · obtain ⟨-, rfl⟩ := Prod.mk.inj (Except.ok.inj hskip)
            simpa [NgxChainBufferReader.links] using h
        · next hle =>
          obtain ⟨-, rfl⟩ := Prod.mk.inj (Except.ok.inj hskip)
          refine h.setPos hb fun hlast hpos => ?_
          have hsize := CInt.int_le (x := b.last - b.pos) (by omega)
          omega

/-- Reading gives back and skips bytes of buffers only up to their end. -/
theorem NullsEmpty.readCall {r : NgxChainBufferReader} (h : NullsEmpty r.links)
    (call : ReaderCall) :
    wp AnyStop (readCall r call) (fun r' _ => NullsEmpty r'.links) p := by
  cases call with
  | next =>
    simp only [NgxRpc.readCall, wp_bind]
    refine wp_any (fun _ _ => trivial) fun _ p' => ?_
    split
    · trivial
    · trivial
    · next hnext => exact h.next hnext
  | backUp count =>
    simp only [NgxRpc.readCall, wp_bind]
    refine wp_any (fun _ _ => trivial) fun _ p' => ?_
    split
    · trivial
    · next hback => exact h.backUp hback
  | skip count =>
    simp only [NgxRpc.readCall, wp_bind]
    refine wp_any (fun _ _ => trivial) fun _ p' => ?_
    split
    · trivial
    · next hskip => exact h.skip hskip

theorem NullsEmpty.readCalls {r : NgxChainBufferReader} (h : NullsEmpty r.links)
    (calls : List ReaderCall) :
    wp AnyStop (readCalls r calls) (fun r' _ => NullsEmpty r'.links) p := by
  induction calls generalizing r p with
  | nil => exact h
  | cons call calls ih =>
    simp only [NgxRpc.readCalls, wp_bind]
    exact wp_mono (fun _ _ hr => ih hr) (h.readCall call)

theorem holds_parseBufs {task : RpcTask} (h : Accounted c task.reqBufs p)
    (calls : List ReaderCall) :
    wp AnyStop (parseBufs task calls) (fun task' p' => Accounted c task'.reqBufs p') p := by
  obtain ⟨xs, hcov⟩ := exists_covered (NgxChainBufferReader.new task.reqBufs).links
  have hkeys : wp AnyStop (readCalls (.new task.reqBufs) calls)
      (fun r p' => p'.Holds (c + owed r.links)) p := by
    refine wp_readCalls (Pool.Holds.stable xs) hcov h.1 calls fun r p' hkey hp' => ?_
    have howed : owed r.links = owed task.reqBufs := owed_congr hkey
    rwa [howed]
  have hempty : NullsEmpty (NgxChainBufferReader.new task.reqBufs).links := h.2
  simp only [parseBufs, wp_bind]
  exact wp_mono (fun _ _ hr => hr) (wp_and hkeys (hempty.readCalls calls))

/-! ## A request -/

theorem holds_freeData {ls : List Link} (h : p.Holds c) :
    wp AnyStop (freeData ls) (fun _ p' => p'.Holds (c - starts ls)) p := by
  induction ls generalizing p c with
  | nil => simpa [freeData, starts] using h
  | cons l ls ih =>
    have hcons := starts_cons l ls
    simp only [freeData, wp_bind, wp_access]
    cases hb : l.buf with
    | none => exact (h.access l.addr).mono (by omega)
    | some b =>
      have hacc := ((h.access l.addr).access b.addr).mono
        (show c - starts [l] + starts [l] ≤ c by omega)
      simp only [wp_bind, wp_access, wp_free]
      have hfree := holds_free_data hacc hb fun hnull => hnull.le
      exact wp_mono (fun _ p' hp' => hp'.mono (by omega)) (ih (hfree.access l.addr))

theorem holds_taskDestory {task : RpcTask}
    (h : p.Holds (c + 1 + owed task.reqBufs + starts task.resBufs)) :
    wp AnyStop (taskDestory task)
      (fun _ p' => p'.Holds (c + owed task.reqBufs - starts task.reqBufs)) p := by
  simp only [taskDestory, wp_bind, wp_access]
  refine wp_mono (fun _ p₁ hp₁ => ?_) (holds_freeData (h.access task.addr))
  rw [wp_bind]
  refine wp_mono (fun _ p₂ hp₂ => ?_) (holds_freeData hp₁)
  simp only [wp_bind, wp_access, wp_free]
  exact ((hp₂.access task.addr).free task.addr).mono (by omega)

/-- The chains that nginx hands over have no empty links. -/
structure Request.Filled (r : Request) : Prop where
  body : ∀ l ∈ r.body, l.buf.isSome
  responses : ∀ s ∈ r.service, ∀ f ∈ s.forwards, ∀ out ∈ f.response, ∀ l ∈ out, l.buf.isSome

theorem holds_forward {task : RpcTask} {f : Forward}
    (hout : ∀ out ∈ f.response, ∀ l ∈ out, l.buf.isSome) (h : Accounted c task.reqBufs p) :
    wp AnyStop (forward S stale task f) (fun task' p' => Accounted c task'.reqBufs p') p := by
  have hdone : ∀ {task : RpcTask} {p : Pool}, Accounted c task.reqBufs p →
      wp AnyStop (subrequestDoneHandler S stale task f.response)
        (fun task' p' => Accounted c task'.reqBufs p') p := by
    intro task p h
    cases hf : f.response with
    | none => exact h
    | some out =>
      simp only [subrequestDoneHandler, wp_bind]
      exact wp_mono (fun _ _ hbufs => hbufs.1) (holds_taskSetBufs (hout out hf) h)
  simp only [forward, wp_bind]
  apply wp_forwardRequest (fun _ _ => trivial)
  refine wp_mono (fun w p₁ hp₁ => ?_) (holds_serialize (h.1.access task.addr) task.addr f.message)
  rw [wp_bind]
  have hp₁' := ((hp₁.access task.addr).access task.addr).mono
    (show c + owed task.reqBufs ≤ _ by omega)
  exact wp_mono (fun task₂ p₂ hp₂ => holds_parseBufs hp₂ f.parse) (hdone ⟨hp₁', h.2⟩)

theorem holds_forwardAll {task : RpcTask} {fs : List Forward}
    (hout : ∀ f ∈ fs, ∀ out ∈ f.response, ∀ l ∈ out, l.buf.isSome)
    (h : Accounted c task.reqBufs p) :
    wp AnyStop (forwardAll S stale task fs) (fun task' p' => Accounted c task'.reqBufs p') p := by
  induction fs generalizing task p with
  | nil => exact h
  | cons f fs ih =>
    simp only [forwardAll, wp_bind]
    refine wp_mono (fun task' p' hp' => ?_) (holds_forward (hout f List.mem_cons_self) h)
    exact ih (fun g hg => hout g (List.mem_cons_of_mem f hg)) hp'

theorem holds_serveTask {task : RpcTask} {s : Service}
    (hout : ∀ f ∈ s.forwards, ∀ out ∈ f.response, ∀ l ∈ out, l.buf.isSome)
    (h : Accounted c task.reqBufs p) :
    wp AnyStop (serveTask S stale task s) (fun task' p' =>
      p'.Holds (c + 1 + owed task'.reqBufs + starts task'.resBufs)) p := by
  simp only [serveTask, wp_bind]
  refine wp_mono (fun task₁ p₁ hp₁ => ?_) (holds_parseBufs h s.parse)
  rw [wp_bind]
  refine wp_mono (fun task₂ p₂ hp₂ => ?_) (holds_forwardAll hout hp₁)
  apply wp_finishRequest
  refine wp_mono (fun w p₃ hp₃ => ?_)
    (holds_serialize (hp₂.1.access task₂.addr) task₂.addr s.response)
  exact (hp₃.access task₂.addr).mono (by simp only; omega)

/-- When a task is finished more is live than the cleanup of the task frees. -/
theorem holds_postAsyncHandler {r : Request} (hr : r.Filled) (hbody : r.body ≠ [])
    (h : p.Holds c) :
    wp AnyStop (postAsyncHandler S stale r) (fun task p' => ∃ t c', task = some t ∧
      p'.Holds (c' + 1 + owed t.reqBufs + starts t.resBufs) ∧
        c < c' + owed t.reqBufs - starts t.reqBufs) p := by
  simp only [postAsyncHandler, hbody, if_false, wp_bind, taskCreate]
  refine wp_alloc (fun _ => trivial) fun addr _ haddr hpos => ?_
  simp only [wp_bind, wp_access, wp_pure, wp_deref_some]
  have htask : Accounted (c + 1) [⟨addr, none⟩] ((p.allocated addr).accessed addr) :=
    ⟨by simpa [owed, bufs, starts] using (h.alloc haddr hpos).access addr, by simp [NullsEmpty]⟩
  refine wp_mono ?_ (holds_taskSetBufs hr.body htask)
  rintro reqBufs p₁ ⟨hp₁, hlt⟩
  simp only [wp_bind, wp_access]
  cases hs : r.service with
  | none =>
    refine ⟨_, c, rfl, (hp₁.1.access addr).mono ?_, ?_⟩
    · simp [starts]
    · have hlt' := hlt hbody
      simp only
      omega
  | some s =>
    simp only [map_eq_pure_bind, wp_bind]
    refine wp_mono (fun t p₂ hp₂ => ?_)
      (holds_serveTask (hr.responses s hs) ⟨hp₁.1.access addr, hp₁.2⟩)
    have hle := starts_le_owed t.reqBufs
    refine ⟨t, c + 1, rfl, hp₂, ?_⟩
    omega

/-- A request with a body leaves blocks behind. -/
theorem holds_handleRequest {r : Request} (hr : r.Filled) (hbody : r.body ≠ [])
    (hroom : S.pick p sizeofCtx ≠ none) (h : p.Holds c) :
    wp AnyStop (handleRequest S stale r) (fun _ p' => p'.Holds (c + 1)) p := by
  simp only [handleRequest, ctxCreate, wp_bind]
  refine wp_alloc (fun hnone => absurd hnone hroom) fun ctx _ hctx hpos => ?_
  simp only [wp_bind, wp_access, wp_pure]
  refine wp_mono ?_ (holds_postAsyncHandler hr hbody ((h.alloc hctx hpos).access ctx))
  rintro task p₁ ⟨t, c', rfl, hp₁, hlt⟩
  simp only [wp_bind]
  refine wp_mono (fun _ p₂ hp₂ => ?_) (holds_taskDestory hp₁)
  simp only [ctxDestroy, wp_bind, wp_access, wp_free]
  exact (((hp₂.access ctx).free ctx).access ctx).mono (by omega)

/-- The set of live blocks is what it was before the request exactly when no task was
created for it. -/
theorem handleRequest_live_iff {r : Request} {p' : Pool} (hr : r.Filled)
    (hrun : handleRequest S stale r p = (.ok (), p')) :
    p'.live = p.live ↔ r.body = [] ∨ S.pick p sizeofCtx = none := by
  constructor
  · intro hlive
    by_contra hnot
    obtain ⟨hbody, hroom⟩ := not_or.mp hnot
    -- otherwise there is one block more than before
    have hwp : wp AnyStop (handleRequest S stale r)
        (fun _ p' => p'.Holds ((p.live.filter (0 < ·)).card + 1)) p :=
      holds_handleRequest hr hbody hroom le_rfl
    have hcard := (wp_iff.mp hwp).1 _ _ hrun
    rw [Pool.Holds, hlive] at hcard
    omega
  · intro hcases
    have hwp : wp AnyStop (handleRequest S stale r) (fun _ p' => p'.live = p.live) p := by
      simp only [handleRequest, ctxCreate, wp_bind]
      refine wp_alloc (fun _ => rfl) fun ctx hpick hctx _ => ?_
      have hbody : r.body = [] := by
        obtain hbody | hnone := hcases
        · exact hbody
        · rw [hpick] at hnone
          cases hnone
      simp only [wp_bind, wp_access, wp_pure, postAsyncHandler, hbody, if_true, ctxDestroy, wp_free,
        Pool.live_accessed, Pool.live_freed, Pool.live_allocated]
      exact Finset.erase_insert hctx
    exact (wp_iff.mp hwp).1 _ _ hrun

end Count

/-- A request with a body of one byte that no processor takes. -/
def refusedRequest : Request := ⟨[⟨0, some (bufferOf [1])⟩], 1, none⟩

/-- A request whose method reads the body, forwards a message, reads the answer to it and
responds. -/
def servedRequest : Request :=
  ⟨[⟨0, some (bufferOf [1])⟩], 1, some {
    parse := [.next, .next]
    forwards := [⟨asciiBytes "/a", [7], some [⟨0, some (bufferOf [2, 3])⟩], [.next, .backUp 1]⟩]
    response := [4, 5]
    result := 200 }⟩

theorem servedRequest_filled : servedRequest.Filled := by
  refine ⟨by decide, ?_⟩
  rintro s ⟨⟩
  decide

theorem handleRequest_live_iff_served : ∃ p', handleRequest (Slab.unlimited 0)
    (fun _ => (none, [])) servedRequest ⟨∅, []⟩ = (.ok (), p') ∧ (p'.live = ∅ ↔
      servedRequest.body = [] ∨ (Slab.unlimited 0).pick ⟨∅, []⟩ sizeofCtx = none) := by
  have hrun : (handleRequest (Slab.unlimited 0) (fun _ => (none, [])) servedRequest ⟨∅, []⟩).1 =
      .ok () := by
    simp only [handleRequest, postAsyncHandler, serveTask, forwardAll, forward, forwardRequest,
      finishRequest, servedRequest, serialize_eq_writeRounds]
    decide +kernel
  exact ⟨_, Prod.ext hrun rfl, handleRequest_live_iff servedRequest_filled (Prod.ext hrun rfl)⟩

/-- It leaves a buffer behind. -/
theorem not_handleRequest_live : ∃ p', refusedRequest.Filled ∧
    handleRequest (Slab.unlimited 0) (fun _ => (none, [])) refusedRequest ⟨∅, []⟩ = (.ok (), p') ∧
      p'.live ≠ ∅ := by
  have hok : (handleRequest (Slab.unlimited 0) (fun _ => (none, [])) refusedRequest ⟨∅, []⟩).1 =
      .ok () := by
    decide +kernel
  have hlive : (handleRequest (Slab.unlimited 0) (fun _ => (none, [])) refusedRequest
      ⟨∅, []⟩).2.live ≠ ∅ := by
    decide +kernel
  exact ⟨_, ⟨by decide, by simp [refusedRequest]⟩, Prod.ext hok rfl, hlive⟩

end NgxRpc
