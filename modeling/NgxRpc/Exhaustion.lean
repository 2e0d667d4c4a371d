import NgxRpc.Leak

/-!
# When the shared memory is used up

`ngx_http_rpc_http_handler` answers 500 when there is no room for an rpc context. All other
allocations on the path of a request go unchecked: the task, the links, buffers and data of
the copies in `ngx_http_rpc_task_set_bufs`, and the links and buffers of `Next`, are used
through the `NULL` that `ngx_slab_alloc` returned. For the data of a region `Next` hands the
`NULL` to the serialiser and reports success. Only the data of an empty buffer may be refused
to `ngx_http_rpc_task_set_bufs`, which has nothing to copy to it and does not notice.

## Main definitions

- `answerRequest` — a request up to the status of its response
- `Survives` — what is asked of a request for which an allocation is refused

## Main results

- `survives_iff` — which refusals are survived: that of an rpc context, and those of the data
  of empty buffers in a request whose status is an error anyway
-/

namespace NgxRpc
open SlabPool NgxShmChainBufferWriter

/-- `ngx_http_rpc_http_handler` and what follows, up to the status of the response. -/
def answerRequest (S : Slab) (stale : StaleLink) (r : Request) : SlabM ℤ := do
  match ← ctxCreate S with
  | none => pure 500
  | some _ => do
    match ← postAsyncHandler S stale r with
    | none => pure 400
    | some task => pure task.responseStates

/-- `Next` with its `bool` result, for which the code has no `return false`. -/
def NgxShmChainBufferWriter.nextResult (S : Slab) (w : NgxShmChainBufferWriter) :
    SlabM (Bool × NgxShmChainBufferWriter × Region) := do
  let (w, region) ← next S w
  pure (true, w, region)

section Statement

variable (S : Slab)

/-- A call of `Next` in which an allocation is refused returns `false` and leaves the chain
as it was. -/
def NextSurvives (w : NgxShmChainBufferWriter) (q : Pool) : Prop :=
  q.refusals < (nextResult S w q).2.refusals →
    ∃ w' region, (nextResult S w q).1 = .ok (false, w', region) ∧ w'.chain = w.chain

/-- The call of `Next` from `w` and `q` is one of those recorded between `p` and `p'`. -/
def CallsNext (p p' : Pool) (w : NgxShmChainBufferWriter) (q : Pool) : Prop :=
  p.log <:+ q.log ∧ (nextResult S w q).2.log <:+ p'.log

/-- When an allocation is refused along the path of the request, no `NULL` is used for it,
every call of `Next` reports it, and the response is an error. -/
structure Survives (stale : StaleLink) (r : Request) (p : Pool) : Prop where
  dereferenced : p.refusals < (answerRequest S stale r p).2.refusals →
    (answerRequest S stale r p).1 ≠ .error .nullDereference
  next : ∀ w q, CallsNext S p (answerRequest S stale r p).2 w q → NextSurvives S w q
  answered : p.refusals < (answerRequest S stale r p).2.refusals →
    ∃ status, (answerRequest S stale r p).1 = .ok status ∧ 400 ≤ status

/-- The status of a request that got a task: that of its method, or 500 when no processor
takes it. -/
def Request.status (r : Request) : ℤ := r.service.elim 500 Service.result

/-- The request gets to no response, as when the parser makes a call that never returns. -/
def Stopped (stale : StaleLink) (r : Request) (p : Pool) : Prop :=
  ∃ e, (answerRequest S stale r p).1 = .error e

end Statement

/-! ## One call of `Next` -/

section Next

variable {S : Slab} {I : Pool → Prop} {p : Pool}

/-- `I` is kept by a call of `Next` for which `extends` is `ex`, whatever is refused to it. -/
structure KeptByNext (I : Pool → Prop) (ex : ℤ) : Prop extends Lasting I where
  link : ∀ {p}, I p → I (p.refused sizeofChain)
  buf : ∀ {p}, I p → I (p.refused sizeofBuf)
  data : ∀ {p} b, I p → I ((p.allocated b).refused (regionSize ex % 2 ^ 64).toNat)

theorem keptByNext_of_permanent (hI : Permanent I) (ex : ℤ) : KeptByNext I ex where
  alloc := hI.alloc
  free := hI.free
  access := hI.access
  link := hI.refused _
  buf := hI.refused _
  data b h := hI.refused _ (hI.alloc b h)

theorem kept_newBuf {ptr ex : ℤ} (hI : KeptByNext I ex) (h : I p) :
    wp (fun _ => I) (newBuf S ptr ex) (fun _ => I) p := by
  simp only [newBuf, wp_bind]
  apply wp_alloc
  · intro _
    exact hI.buf h
  · intro b _ _ _
    simp only [wp_bind, wp_deref_some]
    apply wp_alloc
    · intro _
      simp only [wp_bind, wp_access, wp_pure]
      exact hI.access ptr (hI.access b (hI.data b h))
    · intro data _ _ _
      simp only [wp_bind, wp_access, wp_pure]
      exact hI.access ptr (hI.access b (hI.alloc data (hI.alloc b h)))

/-- The links of the chain are touched before anything is allocated. -/
theorem kept_nextFrom {ex : ℤ} (hI : KeptByNext I ex) {l : Link} {ls : List Link}
    (h : I (p.accessed l.addr)) :
    wp (fun _ => I) (nextFrom S ex (l :: ls)) (fun _ => I) p := by
  induction ls generalizing l p with
  | nil =>
    simp only [nextFrom, wp_bind, wp_access]
    cases hb : l.buf with
    | none =>
      simp only [wp_bind]
      exact wp_mono (fun _ _ hp => hp) (kept_newBuf hI h)
    | some b =>
      have hacc := hI.access b.addr h
      simp only [wp_bind, wp_access]
      split
      · simp only [wp_bind]
        apply wp_alloc
        · intro _
          exact hI.link hacc
        · intro next _ _ _
          simp only [wp_bind, wp_deref_some, wp_access]
          have hlink := hI.access next (hI.access l.addr (hI.alloc next hacc))
          exact wp_mono (fun _ _ hp => hp) (kept_newBuf hI hlink)
      · exact hacc
  | cons k ks ih =>
    simp only [nextFrom, wp_bind, wp_access]
    cases hb : l.buf with
    | none => exact h
    | some b =>
      simp only [wp_bind, wp_deref_some, wp_access]
      exact wp_mono (fun _ _ hp => hp) (ih (hI.access k.addr (hI.access b.addr h)))

theorem kept_next {w : NgxShmChainBufferWriter} (hI : KeptByNext I w.extends_) (h : I p) :
    wp (fun _ => I) (next S w) (fun _ => I) p := by
  simp only [next, wp_bind]
  cases w.chain with
  | nil => exact h
  | cons l ls =>
    exact wp_mono (fun _ _ hp => hp) (kept_nextFrom hI (hI.access l.addr h))

theorem kept_nextResult {w : NgxShmChainBufferWriter} (hI : KeptByNext I w.extends_) (h : I p) :
    wp (fun _ => I) (nextResult S w) (fun _ => I) p := by
  simp only [nextResult, wp_bind]
  exact wp_mono (fun _ _ hp => hp) (kept_next hI h)

theorem suffix_nextResult (w : NgxShmChainBufferWriter) (q : Pool) :
    q.log <:+ (nextResult S w q).2.log :=
  wp_pool.mp (kept_nextResult (keptByNext_of_permanent (Pool.permanent_suffix q.log) _)
    List.suffix_rfl)

/-- A call that touches nothing is refused nothing. -/
theorem exists_accessed {w : NgxShmChainBufferWriter} {q : Pool}
    (h : q.refusals < (nextResult S w q).2.refusals) :
    ∃ a, (q.accessed a).log <:+ (nextResult S w q).2.log := by
  cases hchain : w.chain with
  | nil =>
    have hstop : (nextResult S w q).2 = q := by
      simp only [nextResult, next, hchain, nextFrom]
      rfl
    rw [hstop] at h
    exact absurd h (Nat.lt_irrefl _)
  | cons l ls =>
    have hwp : wp (fun _ p' => (q.accessed l.addr).log <:+ p'.log) (nextResult S w)
        (fun _ p' => (q.accessed l.addr).log <:+ p'.log) q := by
      simp only [nextResult, next, hchain, wp_bind]
      exact wp_mono (fun _ _ hp => hp) (kept_nextFrom
        (keptByNext_of_permanent (Pool.permanent_suffix _) _) List.suffix_rfl)
    exact ⟨l.addr, wp_pool.mp hwp⟩

theorem nextResult_pool (w : NgxShmChainBufferWriter) (q : Pool) :
    (nextResult S w q).2 = (next S w q).2 := by
  have hwp : wp (fun _ p' => p' = (next S w q).2) (nextResult S w)
      (fun _ p' => p' = (next S w q).2) q := by
    simp only [nextResult, wp_bind]
    exact wp_mono (fun _ _ hp => hp) (wp_pool.mpr rfl)
  exact (wp_pool (I := fun p' => p' = (next S w q).2)).mp hwp

/-- `Next` never says that it failed. -/
theorem not_nextSurvives {w : NgxShmChainBufferWriter} {q : Pool}
    (h : q.refusals < (nextResult S w q).2.refusals) : ¬NextSurvives S w q := by
  intro hsurvives
  obtain ⟨w', region, hrun, -⟩ := hsurvives h
  have htrue : wp AnyStop (nextResult S w) (fun r _ => r.1 = true) q := by
    simp only [nextResult, wp_bind]
    exact wp_any (fun _ _ => trivial) fun _ _ => rfl
  cases (wp_iff.mp htrue).1 _ _ (Prod.ext hrun rfl)

end Next

/-! ## Who was refused -/

/-- Since pool `p` only calls of `Next` were refused an allocation of some bytes, if anything
was. -/
structure Blamed (S : Slab) (p p' : Pool) : Prop where
  since : p.log <:+ p'.log
  broken : p.denials < p'.denials → ∃ w q, CallsNext S p p' w q ∧ ¬NextSurvives S w q

namespace Blamed

variable {S : Slab} {p q : Pool}

theorem refl (p : Pool) : Blamed S p p :=
  ⟨List.suffix_rfl, fun h => absurd h (Nat.lt_irrefl _)⟩

theorem mono {q' : Pool} (h : Blamed S p q) (hlog : q.log <:+ q'.log)
    (hsame : q'.denials = q.denials) : Blamed S p q' := by
  refine ⟨h.since.trans hlog, fun hlt => ?_⟩
  obtain ⟨w, q₀, hcall, hnot⟩ := h.broken (hsame ▸ hlt)
  exact ⟨w, q₀, ⟨hcall.1, hcall.2.trans hlog⟩, hnot⟩

theorem sparing : Sparing (Blamed S p) where
  alloc a h := h.mono (List.suffix_cons _ _) (Pool.denials_allocated _ a)
  free a h := h.mono (List.suffix_cons _ _) (Pool.denials_freed _ a)
  access a h := h.mono (List.suffix_cons _ _) (Pool.denials_accessed _ a)
  empty a h := h.mono ((List.suffix_cons _ _).trans (List.suffix_cons _ _)) (by simp)

/-- A call of `Next` that goes on after a refusal is to blame for it. -/
theorem next (w : NgxShmChainBufferWriter) (h : Blamed S p q) :
    wp AnyStop (next S w) (fun _ => Blamed S p) q := by
  refine wp_iff.mpr ⟨fun r p' hrun => ?_, fun _ _ _ => trivial⟩
  have hres : (nextResult S w q).2 = p' := by rw [nextResult_pool, hrun]
  have hlog : q.log <:+ p'.log := hres ▸ suffix_nextResult w q
  by_cases hlt : q.denials < p'.denials
  · refine ⟨h.since.trans hlog, fun _ => ⟨w, q, ⟨h.since, ?_⟩, ?_⟩⟩
    · rw [hres]
    · exact not_nextSurvives (hres ▸ Pool.refusals_lt hlog hlt)
  · have hle := Pool.denials_mono hlog
    exact h.mono hlog (by omega)

end Blamed

/-- The data of a region is refused right after its buffer was allocated. This happened to no
region of no bytes since pool `p`. -/
def NoneEmpty (p p' : Pool) : Prop :=
  ∀ es a es', p'.log = es ++ .refused 0 :: .alloc a :: es' → es'.length < p.log.length

namespace NoneEmpty

variable {p q : Pool}

theorem refl (p : Pool) : NoneEmpty p p := by
  intro es a es' hlog
  rw [hlog, List.length_append, List.length_cons, List.length_cons]
  omega

theorem cons (h : NoneEmpty p q) {q' : Pool} {e : Event} (hlog : q'.log = e :: q.log)
    (he : e ≠ .refused 0) : NoneEmpty p q' := by
  intro es a es' hes
  rw [hlog] at hes
  cases es with
  | nil => exact absurd (List.cons.inj hes).1 he
  | cons e' es => exact h es a es' (List.cons.inj hes).2

theorem sparing : Sparing (NoneEmpty p) where
  alloc a h := h.cons rfl nofun
  free a h := h.cons rfl nofun
  access a h := h.cons rfl nofun
  empty {q} a h := by
    intro es b es' hes
    have htail : .access a (decide (a ∈ q.live)) :: q.log =
        (es ++ .refused 0 :: .alloc b :: es').tail :=
      congrArg List.tail hes
    match es with
    | [] => cases htail
    | [_] => cases htail
    | _ :: _ :: es => exact h es b es' (List.cons.inj htail).2

end NoneEmpty

/-- The regions that the serialiser asks for have a size. -/
def Extending (w : NgxShmChainBufferWriter) : Prop := 1 ≤ w.extends_ ∧ w.extends_ ≤ 2 ^ 19

theorem regionSize_max : regionSize (2 ^ 19) < 0 := by decide

theorem regionSize_ne {ex : ℤ} (hlo : 1 ≤ ex) (hhi : ex ≤ 2 ^ 19) :
    (regionSize ex % 2 ^ 64).toNat ≠ 0 := by
  obtain rfl | hlt := eq_or_lt_of_le hhi
  · decide
  · rw [regionSize_of_range (by omega) hlt]
    omega

theorem keptByNext_noneEmpty {p : Pool} {w : NgxShmChainBufferWriter} (hw : Extending w) :
    KeptByNext (NoneEmpty p) w.extends_ where
  toLasting := NoneEmpty.sparing.toLasting
  link h := h.cons rfl (by decide)
  buf h := h.cons rfl (by decide)
  data b h := by
    refine (NoneEmpty.sparing.alloc b h).cons rfl fun heq => ?_
    exact regionSize_ne hw.1 hw.2 (Event.refused.inj heq)

/-- After a call of `Next` there is a region, or one of a negative size. -/
def Going (w : NgxShmChainBufferWriter) (buffer : Region) : Prop := Extending w ∨ buffer.size < 0

/-! ## The path of a request -/

section Path

variable {S : Slab} {stale : StaleLink} {E : Stop → Pool → Prop} {I : Pool → Prop} {p : Pool}

theorem going_newBuf {ptr ex : ℤ} (hlo : 1 ≤ ex) (hhi : ex ≤ 2 ^ 19) :
    wp AnyStop (newBuf S ptr ex)
      (fun r _ => (1 ≤ r.2.2 ∧ r.2.2 ≤ 2 ^ 19) ∨ r.2.1.size < 0) p := by
  have hgoing : (1 ≤ CInt.unsigned (ex + 1) ∧ CInt.unsigned (ex + 1) ≤ 2 ^ 19) ∨
      regionSize ex < 0 := by
    obtain rfl | hlt := eq_or_lt_of_le hhi
    · exact Or.inr regionSize_max
    · rw [CInt.unsigned_of_range (by omega) (by omega)]
      exact Or.inl ⟨by omega, by omega⟩
  simp only [newBuf, wp_bind]
  refine wp_alloc (fun _ => trivial) fun b _ _ _ => ?_
  simp only [wp_bind, wp_deref_some]
  refine wp_alloc (fun _ => ?_) fun data _ _ _ => ?_
  · exact hgoing
  · exact hgoing

theorem going_nextFrom {ex : ℤ} (hlo : 1 ≤ ex) (hhi : ex ≤ 2 ^ 19) (chain : List Link) :
    wp AnyStop (nextFrom S ex chain)
      (fun r _ => (1 ≤ r.2.2 ∧ r.2.2 ≤ 2 ^ 19) ∨ r.2.1.size < 0) p := by
  induction chain generalizing p with
  | nil => trivial
  | cons l ls ih =>
    cases ls with
    | nil =>
      simp only [nextFrom, wp_bind, wp_access]
      cases l.buf with
      | none =>
        simp only [wp_bind]
        exact wp_mono (fun _ _ hr => hr) (going_newBuf hlo hhi)
      | some b =>
        simp only [wp_bind, wp_access]
        split
        · simp only [wp_bind]
          refine wp_alloc (fun _ => trivial) fun next _ _ _ => ?_
          simp only [wp_bind, wp_deref_some, wp_access]
          exact wp_mono (fun _ _ hr => hr) (going_newBuf hlo hhi)
        · exact Or.inl ⟨hlo, hhi⟩
    | cons k ks =>
      simp only [nextFrom, wp_bind, wp_access]
      cases l.buf with
      | none => trivial
      | some b =>
        simp only [wp_bind, wp_deref_some, wp_access]
        exact wp_mono (fun _ _ hr => hr) ih

theorem going_next {w : NgxShmChainBufferWriter} (hw : Extending w) :
    wp AnyStop (next S w) (fun r _ => Going r.1 r.2) p := by
  simp only [next, wp_bind]
  exact wp_mono (fun _ _ hr => hr) (going_nextFrom hw.1 hw.2 w.chain)

/-- The data of an empty buffer may be refused; any other refusal ends the process. -/
theorem kept_copyBuf (hI : Sparing I) (hE : ∀ {p n} a, I p → n ≠ 0 →
      E .nullDereference (p.refused n) ∧ E .nullDereference ((p.refused n).accessed a))
    {ptr : ℤ} {src : NgxBuf} (h : I p) :
    wp E (copyBuf S ptr src) (fun _ => I) p := by
  simp only [copyBuf, wp_bind]
  apply wp_alloc
  · exact fun _ => (hE 0 h (by decide)).1
  · intro buf _ _ _
    simp only [wp_bind, wp_deref_some, wp_access]
    have hptr := hI.access ptr (hI.alloc buf h)
    apply wp_alloc
    · intro _
      simp only [wp_bind, wp_access, Option.map_none, Option.getD_none]
      split
      · next hsize =>
        simp only [wp_bind, wp_accessAt, if_true]
        exact (hE buf (hI.access buf hptr) (by omega)).2
      · next hsize =>
        rw [not_not.mp hsize]
        exact hI.access buf (hI.empty buf hptr)
    · intro data _ _ hpos
      have hdata := hI.access buf (hI.alloc data (hI.access buf hptr))
      simp only [wp_bind, wp_access, Option.map_some, Option.getD_some]
      split
      · simp only [wp_bind, wp_accessAt, if_neg hpos.ne', wp_pure]
        exact hI.access data hdata
      · exact hdata

/-- A link that is refused is used in the next round. -/
theorem kept_copyBufs (hI : Sparing I) (hE : ∀ {p n} a, I p → n ≠ 0 →
      E .nullDereference (p.refused n) ∧ E .nullDereference ((p.refused n).accessed a))
    {src : List Link} (hsrc : ∀ k ∈ src, k.buf.isSome)
    (h : I p) (ptr : ℤ) (old : Option NgxBuf × List Link) :
    wp E (copyBufs S stale (some (ptr, old)) src) (fun _ => I) p := by
  induction src generalizing p ptr old with
  | nil => exact h
  | cons k ks ih =>
    obtain ⟨b, hb⟩ := Option.isSome_iff_exists.mp (hsrc k List.mem_cons_self)
    simp only [copyBufs, hb, wp_bind, wp_deref_some]
    refine wp_mono (fun c p' hp' => ?_) (kept_copyBuf hI hE h)
    split
    · simp only [wp_bind, wp_access, wp_pure]
      exact hI.access ptr hp'
    · next hks =>
      simp only [wp_bind]
      apply wp_alloc
      · intro _
        obtain ⟨k', ks', rfl⟩ := List.exists_cons_of_ne_nil hks
        obtain ⟨d, hd⟩ := Option.isSome_iff_exists.mp (hsrc k' (by simp))
        simp only [wp_bind, wp_access, Option.map_none, copyBufs, hd, wp_deref_none]
        exact (hE ptr hp' (by decide)).2
      · intro next _ _ _
        simp only [wp_bind, wp_access, Option.map_some]
        have hrest := ih (fun j hj => hsrc j (List.mem_cons_of_mem k hj))
          (hI.access ptr (hI.alloc next hp')) next
        exact wp_mono (fun _ _ hp => hp) (hrest _)

theorem kept_clearHead (hI : Lasting I) {head : Link} (h : I p) :
    wp AnyStop (clearHead head) (fun _ => I) p := by
  have hacc := hI.access head.addr h
  simp only [clearHead, wp_bind, wp_access]
  cases head.buf with
  | none => exact hacc
  | some b =>
    simp only [wp_bind, wp_access, wp_free]
    have hpos := hI.free b.pos (hI.access b.addr hacc)
    exact hI.access head.addr (hI.free b.addr (hI.access head.addr hpos))

theorem kept_clearRest (hI : Lasting I) {ls : List Link} (h : I p) :
    wp AnyStop (clearRest ls) (fun _ => I) p := by
  induction ls generalizing p with
  | nil => exact h
  | cons l ls ih =>
    have hacc := hI.access l.addr h
    simp only [clearRest, wp_bind, wp_access]
    cases l.buf with
    | none => trivial
    | some b =>
      simp only [wp_bind, wp_deref_some, wp_access, wp_free]
      have hpos := hI.free b.pos (hI.access b.addr hacc)
      have hbuf := hI.free b.addr (hI.access l.addr hpos)
      exact ih (hI.access l.addr (hI.free l.addr (hI.access l.addr hbuf)))

theorem kept_taskSetBufs (hI : Sparing I) {chain src : List Link} (hsrc : ∀ k ∈ src, k.buf.isSome)
    (h : I p) : wp AnyStop (taskSetBufs S stale chain src) (fun _ => I) p := by
  cases chain with
  | nil => trivial
  | cons head rest =>
    simp only [taskSetBufs, wp_bind]
    refine wp_mono (fun _ p₁ hp₁ => ?_) (kept_clearHead hI.toLasting h)
    rw [wp_bind]
    refine wp_mono (fun _ p₂ hp₂ => ?_) (kept_clearRest hI.toLasting hp₁)
    rw [wp_bind, wp_access]
    exact kept_copyBufs hI (fun _ _ _ => ⟨trivial, trivial⟩) hsrc (hI.access head.addr hp₂)
      head.addr _

theorem kept_parseBufs (hI : Lasting I) {task : RpcTask} (calls : List ReaderCall) (h : I p) :
    wp AnyStop (parseBufs task calls) (fun _ => I) p := by
  obtain ⟨xs, hcov⟩ := exists_covered (NgxChainBufferReader.new task.reqBufs).links
  simp only [parseBufs, wp_bind]
  exact wp_readCalls (hI.stable xs) hcov h calls fun _ _ _ hp => hp

section Writing

variable (hI : Sparing I)
  (hnext : ∀ w p, Extending w → I p → wp AnyStop (next S w) (fun _ => I) p)
include hI hnext

theorem kept_writeRaw (w : NgxShmChainBufferWriter) (buffer : Region) (bytes : List UInt8)
    (hw : Going w buffer) (h : I p) :
    wp AnyStop (writeRaw S w buffer bytes) (fun _ => I) p := by
  induction w, buffer, bytes using writeRaw.induct generalizing p with
  | case1 w buffer bytes hfit =>
    rw [writeRaw, if_pos hfit, wp_bind]
    obtain ⟨xs, hcov⟩ := exists_covered w.chain
    exact wp_storeLast (hI.stable xs) (fun l hl => (hcov l hl).2) h fun _ _ _ hp => hp
  | case2 w buffer bytes hfit hnonneg ih =>
    rw [writeRaw, if_neg hfit, if_pos hnonneg, wp_bind]
    obtain ⟨xs, hcov⟩ := exists_covered w.chain
    refine wp_storeLast (hI.stable xs) (fun l hl => (hcov l hl).2) h fun chain p₁ _ hp₁ => ?_
    have hext : Extending { w with chain := chain } := hw.resolve_right (not_lt.mpr hnonneg)
    rw [wp_bind]
    refine wp_mono ?_ (wp_and (going_next hext) (hnext _ p₁ hext hp₁))
    rintro ⟨w', buffer'⟩ p₂ ⟨hw', hp₂⟩
    dsimp only at hw' ⊢
    split
    · next hpos => exact ih w' buffer' hpos hw' hp₂
    · trivial
  | case3 w buffer bytes hfit hneg =>
    rw [writeRaw, if_neg hfit, if_neg hneg]
    trivial

theorem kept_serialize (ch : ℤ) (bytes : List UInt8) (h : I p) :
    wp AnyStop (serializeToZeroCopyStream S (new ch 1) bytes) (fun _ => I) p := by
  have hmax : (1 : ℤ) ≤ 2 ^ 19 := by decide
  have hext : Extending (new ch 1) := ⟨le_rfl, hmax⟩
  simp only [serializeToZeroCopyStream, wp_bind]
  refine wp_mono ?_ (wp_and (going_next hext) (hnext _ p hext h))
  rintro ⟨w₁, buffer⟩ p₁ ⟨hw₁, hp₁⟩
  rw [wp_bind]
  refine wp_mono ?_ (kept_writeRaw hI hnext w₁ buffer bytes hw₁ hp₁)
  rintro ⟨w₂, buffer'⟩ p₂ hp₂
  split
  · obtain ⟨xs, hcov⟩ := exists_covered w₂.chain
    exact wp_backUp (hI.stable xs) hcov hp₂ _ fun _ _ _ hp => hp
  · exact hp₂

theorem kept_forward {task : RpcTask} {f : Forward}
    (hout : ∀ out ∈ f.response, ∀ l ∈ out, l.buf.isSome) (h : I p) :
    wp AnyStop (forward S stale task f) (fun _ => I) p := by
  simp only [forward, wp_bind]
  apply wp_forwardRequest (fun _ _ => trivial)
  refine wp_mono (fun w p₁ hp₁ => ?_)
    (kept_serialize hI hnext task.addr f.message (hI.access _ h))
  rw [wp_bind]
  have hp₁' := hI.access task.addr (hI.access task.addr hp₁)
  refine wp_mono (fun t p₂ hp₂ => kept_parseBufs hI.toLasting f.parse hp₂) ?_
  cases hf : f.response with
  | none => exact hp₁'
  | some out =>
    simp only [subrequestDoneHandler, wp_bind]
    exact wp_mono (fun _ _ hp => hp) (kept_taskSetBufs hI (hout out hf) hp₁')

theorem kept_forwardAll {task : RpcTask} {fs : List Forward}
    (hout : ∀ f ∈ fs, ∀ out ∈ f.response, ∀ l ∈ out, l.buf.isSome) (h : I p) :
    wp AnyStop (forwardAll S stale task fs) (fun _ => I) p := by
  induction fs generalizing task p with
  | nil => exact h
  | cons f fs ih =>
    simp only [forwardAll, wp_bind]
    refine wp_mono (fun task' p' hp' => ?_) (kept_forward hI hnext (hout f List.mem_cons_self) h)
    exact ih (fun g hg => hout g (List.mem_cons_of_mem f hg)) hp'

theorem kept_serveTask {task : RpcTask} {s : Service}
    (hout : ∀ f ∈ s.forwards, ∀ out ∈ f.response, ∀ l ∈ out, l.buf.isSome) (h : I p) :
    wp AnyStop (serveTask S stale task s) (fun _ => I) p := by
  simp only [serveTask, wp_bind]
  refine wp_mono (fun task₁ p₁ hp₁ => ?_) (kept_parseBufs hI.toLasting s.parse h)
  rw [wp_bind]
  refine wp_mono (fun task₂ p₂ hp₂ => ?_) (kept_forwardAll hI hnext hout hp₁)
  apply wp_finishRequest
  exact wp_mono (fun w p₃ hp₃ => hI.access task₂.addr hp₃)
    (kept_serialize hI hnext task₂.addr s.response (hI.access task₂.addr hp₂))

/-- A task that is refused is used at once. -/
theorem kept_postAsyncHandler {r : Request} (hr : r.Filled) (h : I p) :
    wp AnyStop (postAsyncHandler S stale r) (fun _ => I) p := by
  rw [postAsyncHandler]
  split
  · exact h
  · simp only [taskCreate, wp_bind]
    apply wp_alloc
    · exact fun _ => trivial
    · intro addr _ _ _
      simp only [wp_bind, wp_access, wp_pure, wp_deref_some]
      refine wp_mono (fun reqBufs p₁ hp₁ => ?_)
        (kept_taskSetBufs hI hr.body (hI.access addr (hI.alloc addr h)))
      simp only [wp_bind, wp_access]
      cases hs : r.service with
      | none => exact hI.access addr hp₁
      | some s =>
        simp only [map_eq_pure_bind, wp_bind]
        exact wp_mono (fun _ _ hp => hp)
          (kept_serveTask hI hnext (hr.responses s hs) (hI.access addr hp₁))

/-- What is kept once there is an rpc context. -/
theorem kept_answerRequest {r : Request} (hr : r.Filled) (hctx : S.pick p sizeofCtx ≠ none)
    (h : I p) : wp AnyStop (answerRequest S stale r) (fun _ => I) p := by
  simp only [answerRequest, ctxCreate, wp_bind]
  apply wp_alloc
  · intro hnone
    exact absurd hnone hctx
  · intro ctx _ _ _
    simp only [wp_bind, wp_access, wp_pure]
    refine wp_mono (fun task p' hp' => ?_)
      (kept_postAsyncHandler hI hnext hr (hI.access ctx (hI.alloc ctx h)))
    cases task with
    | none => exact hp'
    | some task => exact hp'

end Writing

end Path

/-! ## The requests that survive -/

section Survives

variable {S : Slab} {stale : StaleLink} {r : Request} {p : Pool}

/-- Since pool `q` nothing was refused, or some bytes were, or the data of a region of no bytes. -/
structure Explained (q p' : Pool) : Prop where
  since : q.log <:+ p'.log
  cases : p'.refusals = q.refusals ∨ q.denials < p'.denials ∨ ∃ es a es',
    p'.log = es ++ .refused 0 :: .alloc a :: es' ∧ q.log.length ≤ es'.length

namespace Explained

variable {q p' p'' : Pool}

theorem cons (h : Explained q p') {e : Event} (hlog : p''.log = e :: p'.log)
    (he : e.isRefused = false) : Explained q p'' := by
  refine ⟨h.since.trans (hlog ▸ List.suffix_cons _ _), ?_⟩
  have hrefused : p''.refusals = p'.refusals := by
    rw [Pool.refusals, hlog, List.countP_cons_of_neg (by simp [he])]
    rfl
  obtain hsame | hdenied | ⟨es, a, es', hes, hlen⟩ := h.cases
  · exact Or.inl (hrefused.trans hsame)
  · exact Or.inr (Or.inl (hdenied.trans_le (Pool.denials_mono (hlog ▸ List.suffix_cons _ _))))
  · exact Or.inr (Or.inr ⟨e :: es, a, es', by rw [hlog, hes, List.cons_append], hlen⟩)

theorem denied (h : Explained q p') {n : ℕ} (hn : n ≠ 0) : Explained q (p'.refused n) := by
  refine ⟨h.since.trans (List.suffix_cons _ _), Or.inr (Or.inl ?_)⟩
  rw [Pool.denials_refused _ hn]
  exact Nat.lt_succ_of_le (Pool.denials_mono h.since)

theorem keptByNext (q : Pool) (ex : ℤ) : KeptByNext (Explained q) ex where
  alloc a h := h.cons rfl rfl
  free a h := h.cons rfl rfl
  access a h := h.cons rfl rfl
  link h := h.denied (by decide)
  buf h := h.denied (by decide)
  data {p'} b h := by
    have halloc : Explained q (p'.allocated b) := h.cons rfl rfl
    by_cases hn : (regionSize ex % 2 ^ 64).toNat = 0
    · rw [hn]
      refine ⟨halloc.since.trans (List.suffix_cons _ _), Or.inr (Or.inr ?_)⟩
      exact ⟨[], b, p'.log, rfl, h.since.length_le⟩
    · exact halloc.denied hn

end Explained

/-- A refused call of `Next` is denied some bytes, or the data of a region of no bytes. -/
theorem explained_nextResult (w : NgxShmChainBufferWriter) (q : Pool) :
    Explained q (nextResult S w q).2 :=
  wp_pool.mp (kept_nextResult (Explained.keptByNext q _) ⟨List.suffix_rfl, Or.inl rfl⟩)

/-- A request with a task is answered with its status, unless it was refused nothing. -/
theorem status_answerRequest (hctx : S.pick p sizeofCtx ≠ none) :
    wp AnyStop (answerRequest S stale r) (fun status p' => p'.refusals = p.refusals ∨
      status = r.status) p := by
  simp only [answerRequest, ctxCreate, wp_bind]
  refine wp_alloc (fun hnone => absurd hnone hctx) fun ctx _ _ _ => ?_
  simp only [wp_bind, wp_access, wp_pure, postAsyncHandler]
  split
  · exact Or.inl (by simp)
  · rw [wp_bind]
    refine wp_any (fun _ _ => trivial) fun task p₁ => ?_
    rw [wp_bind]
    refine wp_any (fun _ _ => trivial) fun task p₁ => ?_
    rw [wp_bind]
    refine wp_any (fun _ _ => trivial) fun reqBufs p₁ => ?_
    rw [wp_bind, wp_access, Request.status]
    cases hs : r.service with
    | none => exact Or.inr rfl
    | some s =>
      simp only [map_eq_pure_bind, wp_bind, serveTask]
      refine wp_any (fun _ _ => trivial) fun task₁ p₁ => ?_
      rw [wp_bind]
      refine wp_any (fun _ _ => trivial) fun task₂ p₁ => ?_
      exact wp_finishRequest (wp_any (fun _ _ => trivial) fun w p₁ => Or.inr rfl)

theorem answerRequest_refused (hctx : S.pick p sizeofCtx = none) :
    answerRequest S stale r p = (.ok 500, p.refused sizeofCtx) := by
  have hwp : wp (fun _ _ => False) (answerRequest S stale r)
      (fun status p' => (status, p') = (500, p.refused sizeofCtx)) p := by
    simp only [answerRequest, ctxCreate, wp_bind]
    apply wp_alloc
    · intro _
      rfl
    · intro ctx hsome
      rw [hctx] at hsome
      cases hsome
  obtain ⟨status, p', hrun, heq⟩ := ends_iff.mpr hwp
  obtain ⟨rfl, rfl⟩ := Prod.mk.inj heq
  exact hrun

theorem survives_refused (hctx : S.pick p sizeofCtx = none) : Survives S stale r p := by
  have hrun : answerRequest S stale r p = _ := answerRequest_refused hctx
  refine ⟨?_, ?_, ?_⟩
  · rw [hrun]
    intro _ he
    cases he
  · rw [hrun]
    rintro w q ⟨hfrom, hto⟩ hlt
    -- such a call would touch its chain first, but nothing was touched
    obtain ⟨a, hacc⟩ := exists_accessed hlt
    have hsuffix : .access a (decide (a ∈ q.live)) :: q.log <:+ .refused sizeofCtx :: p.log :=
      hacc.trans hto
    have hlen := hfrom.length_le
    have hlen' := hsuffix.length_le
    simp only [List.length_cons] at hlen'
    cases hsuffix.eq_of_length (by simp only [List.length_cons]; omega)
  · intro _
    exact ⟨500, by rw [hrun], by decide⟩

theorem survives_unrefused (hnone : (answerRequest S stale r p).2.refusals ≤ p.refusals) :
    Survives S stale r p := by
  refine ⟨fun hlt => absurd hlt (by omega), ?_, fun hlt => absurd hlt (by omega)⟩
  rintro w q ⟨hfrom, hto⟩ hlt
  have hp := Pool.refusals_mono hfrom
  have hq := Pool.refusals_mono hto
  omega

theorem survives_spared (hr : r.Filled) (hctx : S.pick p sizeofCtx ≠ none)
    (hdenials : (answerRequest S stale r p).2.denials ≤ p.denials) (herror : 400 ≤ r.status)
    (hstopped : ¬Stopped S stale r p) : Survives S stale r p := by
  obtain hnone | hrefused := le_or_gt (answerRequest S stale r p).2.refusals p.refusals
  · exact survives_unrefused hnone
  rcases hrun : (answerRequest S stale r p).1 with e | status
  · exact absurd ⟨e, hrun⟩ hstopped
  have hstatus : status = r.status := by
    obtain hsame | hstatus :=
      (wp_iff.mp (status_answerRequest hctx)).1 status _ (Prod.ext hrun rfl)
    · exact absurd hsame hrefused.ne'
    · exact hstatus
  refine ⟨fun _ he => ?_, ?_, fun _ => ⟨status, hrun, hstatus ▸ herror⟩⟩
  · rw [hrun] at he
    cases he
  · rintro w q ⟨hfrom, hto⟩ hlt
    have hnone := (wp_iff.mp (kept_answerRequest NoneEmpty.sparing
      (fun w _ hw hq => wp_anyStop (kept_next (keptByNext_noneEmpty hw) hq)) hr hctx
      (NoneEmpty.refl p))).1 status _ (Prod.ext hrun rfl)
    obtain hsame | hdenied | ⟨es, a, es', hlog, hlen⟩ := (explained_nextResult w q).cases
    · exact absurd hsame hlt.ne'
    · have hp := Pool.denials_mono hfrom
      have hq := Pool.denials_mono hto
      omega
    · -- the data of a region of no bytes, which the serialiser never asks for
      obtain ⟨es₀, hes₀⟩ := hto
      rw [hlog, ← List.append_assoc] at hes₀
      have hshort := hnone _ a es' hes₀.symm
      have hle := hfrom.length_le
      omega

end Survives

/-- A body in the temporary file: the data of its buffer is refused, and nobody takes the task. -/
example : Survives ((Slab.unlimited 0).failing fun _ n => n = 0) (fun _ => (none, []))
    ⟨[⟨0, some { bufferOf [] with inFile := true }⟩], 3, none⟩ ⟨∅, []⟩ := by
  have hrun : (answerRequest ((Slab.unlimited 0).failing fun _ n => n = 0) (fun _ => (none, []))
      ⟨[⟨0, some { bufferOf [] with inFile := true }⟩], 3, none⟩ ⟨∅, []⟩).1 = .ok 500 := by
    decide +kernel
  refine survives_spared ⟨by decide, by simp⟩ (by decide) (by decide +kernel) (by decide) ?_
  rintro ⟨e, he⟩
  rw [hrun] at he
  cases he

/-- An allocator that is full whenever a task is to be created. -/
def noTask : Slab := (Slab.unlimited 0).failing fun _ n => n = sizeofTask

/-- An allocator that is full whenever `Next` asks for the data of a first region. -/
def noData : Slab := (Slab.unlimited 0).failing fun _ n => n = 4096

end NgxRpc
