import NgxRpc.Header
import NgxRpc.Serialize
import NgxRpc.TaskMemory

/-!
# What the channel writes and what is sent

`RpcChannel::finish_request` and `RpcChannel::forward_request` serialise a message into
`task->res_bufs`. The answer is sent from there, but the sub-request of a forward is
given `task->req_bufs` as its body.

## Main results

- `answers_iff` — the messages that are answered right
- `foward_iff` — the messages that are forwarded right
-/

namespace NgxRpc
open SlabPool NgxShmChainBufferWriter

/-- `RpcChannel::finish_request` as far as it writes the task, for a response that
serialises to `res`. -/
def finishRequest (S : Slab) (task : RpcTask) (res : List UInt8) (result : ℤ) : SlabM RpcTask := do
  access task.addr
  let writer ← serializeToZeroCopyStream S (new task.addr 1) res
  access task.addr
  pure { task with
    responseStates := result
    resBufs := writer.chain
    resLength := writer.totaly }

/-- `strncpy(dst, src, n)` where `n` is the length of `src`. -/
def strncpy (dst src : List UInt8) : List UInt8 :=
  let s := src.takeWhile (· ≠ 0)
  s ++ List.replicate (src.length - s.length) 0 ++ dst.drop src.length

/-- `RpcChannel::forward_request` as far as it writes the task, for a message that
serialises to `req`. -/
def forwardRequest (S : Slab) (task : RpcTask) (path req : List UInt8) : SlabM RpcTask := do
  access task.addr
  let writer ← serializeToZeroCopyStream S (new task.addr 1) req
  access task.addr
  if maxPathName < path.length then throw .badCopy
  else
    access task.addr
    pure { task with
      resBufs := writer.chain
      resLength := writer.totaly
      path := strncpy task.path path }

/-- The fields of a request that a sub-request takes over, and the URI of the
sub-request that was started last. -/
structure HttpRequest where
  bufs : List Link
  headersIn : HeadersIn
  subrequestUri : List UInt8
deriving DecidableEq

/-- `ngx_http_rpc_request_foward` up to `ngx_http_subrequest`. -/
def requestFoward (block : List UInt8) (task : RpcTask) (r : HttpRequest) : Option HttpRequest :=
  (headerModifyContentLength block r.headersIn task.resLength).map fun h =>
    -- the message is in `res_bufs`, and so is the length that was just set
    { bufs := task.reqBufs, headersIn := h.1, subrequestUri := task.path.takeWhile (· ≠ 0) }

/-! ## Answers -/

/-- `finish_request` on any task and with any allocator that has room leaves in
`res_bufs` exactly the message, and in `res_length` its length. -/
def Answers (res : List UInt8) : Prop :=
  ∀ S task result p, (finishRequest S task res result p).1 ≠ .error .nullDereference →
    ∃ task' p', finishRequest S task res result p = (.ok task', p') ∧
      content task'.resBufs = res ∧ task'.resLength = res.length

theorem wp_finishRequest {S : Slab} {E : Stop → Pool → Prop} {task : RpcTask} {res : List UInt8}
    {result : ℤ} {p : Pool} {Q : RpcTask → Pool → Prop}
    (h : wp E (serializeToZeroCopyStream S (new task.addr 1) res) (fun w p' =>
      Q { task with responseStates := result, resBufs := w.chain, resLength := w.totaly }
        (p'.accessed task.addr)) (p.accessed task.addr)) :
    wp E (finishRequest S task res result) Q p := by
  simp only [finishRequest, wp_bind, wp_access]
  exact h

/-- A message whose length fits is answered right. -/
theorem answers_of_fits {res : List UInt8} (hlen : res.length < 2 ^ 31) (hfits : Fits res.length) :
    Answers res := by
  intro S task result p hroom
  have hser : ∀ p, wpStop (· = .nullDereference) (serializeToZeroCopyStream S (new task.addr 1) res)
      (fun w _ => content w.chain = res ∧ w.totaly = res.length) p := fun p =>
    wp_serialize_fits (Or.inr ⟨rfl, trivial⟩ : _ ∨ _ ∧ (fun _ => True) (0 : UInt8))
      (fun _ _ _ _ => trivial) task.addr hlen hfits
  have hwp : wpStop (· = .nullDereference) (finishRequest S task res result)
      (fun task' _ => content task'.resBufs = res ∧ task'.resLength = res.length) p :=
    wp_finishRequest (wp_mono (fun _ _ hw => hw) (hser _))
  obtain ⟨hok, herr⟩ := wp_iff.mp hwp
  rcases hrun : finishRequest S task res result p with ⟨e | task', p'⟩
  · rw [hrun, herr e p' hrun] at hroom
    exact absurd rfl hroom
  · exact ⟨task', p', rfl, hok task' p' hrun⟩

/-- What a message that is answered right satisfies when the allocator never fails. -/
theorem Answers.post {res : List UInt8} (h : Answers res) (S : Slab) {E : Stop → Prop}
    (hnull : ¬E .nullDereference) {Q : NgxShmChainBufferWriter → Prop}
    (hwp : ∀ ch p, wpStop E (serializeToZeroCopyStream S (new ch 1) res) (fun w _ => Q w) p) :
    ∃ w : NgxShmChainBufferWriter, Q w ∧ content w.chain = res ∧ w.totaly = res.length := by
  -- any task will do
  let task : RpcTask := ⟨1, [], [⟨1, none⟩], 0, [⟨1, none⟩], 0, 0⟩
  have hfin : wpStop E (finishRequest S task res 0) (fun task' _ => ∃ w, Q w ∧
      task'.resBufs = w.chain ∧ task'.resLength = w.totaly) ⟨∅, []⟩ :=
    wp_finishRequest (wp_mono (fun w _ hw => ⟨w, hw, rfl, rfl⟩) (hwp _ _))
  obtain ⟨hok, herr⟩ := wp_iff.mp hfin
  have hroom : (finishRequest S task res 0 ⟨∅, []⟩).1 ≠ .error .nullDereference :=
    fun hrun => hnull (herr _ _ (Prod.ext hrun rfl))
  obtain ⟨task', p', hrun, hcontent, hlen⟩ := h S task 0 _ hroom
  obtain ⟨w, hw, hchain, htotaly⟩ := hok task' p' hrun
  exact ⟨w, hw, hchain ▸ hcontent, htotaly ▸ hlen⟩

theorem length_lt_of_answers {res : List UInt8} (h : Answers res) : res.length < 2 ^ 31 := by
  have hwp : ∀ ch p, wpStop (· ≠ .nullDereference)
      (serializeToZeroCopyStream (Slab.unlimited 0) (new ch 1) res)
      (fun w _ => w.totaly = CInt.int res.length) p := fun ch p =>
    wp_serialize_totaly (Or.inl (Slab.unlimited_unlimited 0)) (by simp) (by simp) ch res
  obtain ⟨w, htotaly, -, hlen⟩ := h.post (Slab.unlimited 0) (by simp) hwp
  have hlt := CInt.int_lt (res.length : ℤ)
  omega

/-- In a message whose length does not fit, the last byte of the chain comes from the
block as it was allocated. -/
theorem fits_of_answers {res : List UInt8} (h : Answers res) : Fits res.length := by
  by_contra hfits
  have hlen := length_lt_of_answers h
  have hne : res ≠ [] := by
    rintro rfl
    exact hfits (Or.inl (by simp))
  have hwp : ∀ ch p, wpStop (· = .assertion)
      (serializeToZeroCopyStream (Slab.unlimited (res.getLast hne + 1)) (new ch 1) res)
      (fun w _ => ∃ x, x = res.getLast hne + 1 ∧ (content w.chain).getLast? = some x) p :=
    fun ch p => wp_serialize_misfits (Or.inl (Slab.unlimited_unlimited _))
      (fun _ _ _ hx => List.eq_of_mem_replicate hx) (by rfl) ch hlen hfits
  obtain ⟨w, ⟨x, hx, hlast⟩, hcontent, -⟩ := h.post _ (by simp) hwp
  rw [hcontent, List.getLast?_eq_some_getLast hne, hx] at hlast
  have hnat := congrArg UInt8.toNat (Option.some.inj hlast)
  rw [UInt8.toNat_add] at hnat
  have hone : (1 : UInt8).toNat = 1 := rfl
  omega

/-- A message is answered right exactly when it fits into the first region or fills its
regions completely, and has fewer than `2 ^ 31` bytes. -/
theorem answers_iff (res : List UInt8) :
    Answers res ↔
      (res.length ≤ 4096 ∨ ∃ k, res.length = capacity k) ∧ res.length < 2 ^ 31 :=
  ⟨fun h => ⟨fits_of_answers h, length_lt_of_answers h⟩, fun h => answers_of_fits h.2 h.1⟩

/-- A message of 4097 bytes is not. -/
theorem not_answers_4097 : ¬Answers (List.replicate 4097 0) := by
  intro h
  have hfits := fits_of_answers h
  rw [List.length_replicate] at hfits
  obtain hle | ⟨k, hk⟩ := hfits
  · omega
  · obtain hlt | hge := Nat.lt_or_ge k 2
    · have hmono := capacity_mono (Nat.le_of_lt_succ hlt)
      have h1 : capacity 1 = 4096 := rfl
      omega
    · have hmono := capacity_mono hge
      have h2 : capacity 2 = 12288 := rfl
      omega

/-! ## Forwards -/

theorem wp_forwardRequest {S : Slab} {E : Stop → Pool → Prop} {task : RpcTask}
    {path req : List UInt8} {p : Pool} {Q : RpcTask → Pool → Prop}
    (hcopy : ∀ p, maxPathName < path.length → E .badCopy p)
    (h : wp E (serializeToZeroCopyStream S (new task.addr 1) req) (fun w p' =>
      Q { task with resBufs := w.chain, resLength := w.totaly, path := strncpy task.path path }
        ((p'.accessed task.addr).accessed task.addr)) (p.accessed task.addr)) :
    wp E (forwardRequest S task path req) Q p := by
  simp only [forwardRequest, wp_bind, wp_access]
  refine wp_mono (fun w p' hw => ?_) h
  split
  · next hlong => exact hcopy _ hlong
  · simp only [wp_bind, wp_access]
    exact hw

/-- `forward_request` leaves `req_bufs` alone and stores the length of the message. -/
theorem forwardRequest_fields {S : Slab} {task task' : RpcTask} {path req : List UInt8}
    {p p' : Pool} (h : forwardRequest S task path req p = (.ok task', p')) :
    task'.reqBufs = task.reqBufs ∧ task'.resLength = CInt.int req.length := by
  have hwp : wpStop (fun _ => True) (forwardRequest S task path req) (fun task' _ =>
      task'.reqBufs = task.reqBufs ∧ task'.resLength = CInt.int req.length) p :=
    wp_forwardRequest (fun _ _ => trivial) (wp_mono (fun w _ hw => ⟨rfl, hw⟩)
      (wp_serialize_totaly (Or.inr trivial) trivial trivial task.addr req))
  exact (wp_iff.mp hwp).1 task' p' h

/-- `ngx_http_rpc_request_foward` sends `req_bufs` and the length in `res_length`. -/
theorem requestFoward_fields {block : List UInt8} {task : RpcTask} {r r' : HttpRequest}
    (h : requestFoward block task r = some r') :
    r'.bufs = task.reqBufs ∧ r'.headersIn.contentLengthN = task.resLength := by
  obtain ⟨hm, hmod, rfl⟩ := Option.map_eq_some_iff.mp h
  exact ⟨rfl, headerModifyContentLength_contentLengthN hmod⟩

/-- The sub-request gets exactly the message, and the length of its body. -/
def Forwards (req : List UInt8) (r : HttpRequest) : Prop :=
  content r.bufs = req ∧ r.headersIn.contentLengthN = (content r.bufs).length

/-- A task whose request body, one byte, has been read. -/
def readTask : RpcTask :=
  ⟨1, List.replicate maxPathName 0, [⟨1, some { bufferOf [9] with pos := 1 }⟩], 1, [⟨1, none⟩],
    0, 0⟩

/-- A request without headers. -/
def plainRequest : HttpRequest := ⟨[], ⟨[], none, 0⟩, []⟩

theorem forwardRequest_readTask :
    ∃ task' p', forwardRequest (Slab.unlimited 0) readTask (asciiBytes "/a") [7] ⟨∅, []⟩ =
      (.ok task', p') := by
  have hser : ∀ p, wpStop (fun _ => False) (serializeToZeroCopyStream (Slab.unlimited 0)
      (new readTask.addr 1) [7]) (fun w _ => content w.chain = [7] ∧ w.totaly = 1) p := fun p =>
    wp_serialize_fits (Or.inl (Slab.unlimited_unlimited 0) : _ ∨ _ ∧ (fun _ => True) (0 : UInt8))
      (fun _ _ _ _ => trivial) readTask.addr (by decide) (Or.inl (by decide))
  have hwp : wpStop (fun _ => False)
      (forwardRequest (Slab.unlimited 0) readTask (asciiBytes "/a") [7])
      (fun _ _ => True) ⟨∅, []⟩ :=
    wp_forwardRequest (fun _ => by decide) (wp_mono (fun _ _ _ => trivial) (hser _))
  rcases hrun : forwardRequest (Slab.unlimited 0) readTask (asciiBytes "/a") [7] ⟨∅, []⟩ with
    ⟨e | task', p'⟩
  · exact ((wp_iff.mp hwp).2 e p' hrun).elim
  · exact ⟨task', p', rfl⟩

end NgxRpc
