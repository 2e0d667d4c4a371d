import NgxRpc.Body
import NgxRpc.Channel
import NgxRpc.Refill

/-!
# What the callback of a forward is told

A sub-response reaches the callback of `RpcChannel::forward_request` in two parts. Its status
is stored in the task by `ngx_http_rpc_subrequest_done_handler`, its body only when the status
is 200. `RpcChannel::foward_done` parses `req_bufs` in any case, and gives the callback the
status whatever the parser said.

## Main definitions

- `FowardDone`, `FowardRun` — the forwards of a task
- `Forwarded.Honest` — the status and the message are about this sub-response

## Main results

- `honest_iff` — the callbacks of which this is true
-/

namespace NgxRpc
open SlabPool NgxChainBufferReader

/-- `NGX_HTTP_OK`. -/
def httpOk : ℤ := 200

/-- A sub-response: its status, and the chain with its body. -/
structure SubResponse where
  status : ℤ
  out : List Link
  parts : List BodyPart
  isBody : IsBody out parts
  size : (bodyBytes parts).length < 2 ^ 63

/-- What the callback of a forward is given: the status, and a message that was parsed from
the bytes `used`, with the verdict `parsed`. -/
structure Callback where
  status : ℤ
  parsed : Bool
  used : List UInt8

/-- A forward: its path and message, the sub-response, the parser of the response message, the
task when the sub-response came, and what the callback was given. -/
structure Forwarded where
  path : List UInt8
  message : List UInt8
  response : SubResponse
  parser : MessageParser
  task : RpcTask
  callback : Callback

/-- `ngx_http_rpc_subrequest_done_handler`, when `rc` is not `NGX_AGAIN`. -/
def subrequestDone (S : Slab) (stale : StaleLink) (task : RpcTask) (response : SubResponse) :
    SlabM RpcTask :=
  subrequestDoneHandler S stale { task with responseStates := response.status }
    (if response.status = httpOk then some response.out else none)

/-- `RpcChannel::foward_done` on a task, up to the call of the callback. -/
def FowardDone (P : MessageParser) (task : RpcTask) (callback : Callback) (task' : RpcTask) :
    Prop :=
  ∃ r', Parse P (new task.reqBufs) [] callback.parsed callback.used r' ∧
    callback.status = task.responseStates ∧ task' = { task with reqBufs := r'.links }

/-- The forwards of a task, one after the other, that all get to their callback. -/
inductive FowardRun (S : Slab) (stale : StaleLink) :
    RpcTask × Pool → List Forwarded → RpcTask × Pool → Prop where
  | nil (s : RpcTask × Pool) : FowardRun S stale s [] s
  | cons {task p task₂ p₂ task₃ s} {f : Forwarded} {fs : List Forwarded} {p₁ : Pool}
      (hsend : forwardRequest S task f.path f.message p = (.ok f.task, p₁))
      (hsub : subrequestDone S stale f.task f.response p₁ = (.ok task₂, p₂))
      (hdone : FowardDone f.parser task₂ f.callback task₃)
      (hrest : FowardRun S stale (task₃, p₂) fs s) : FowardRun S stale (task, p) (f :: fs) s

/-- Status 200 is only given with a message that was parsed from exactly the body of the
sub-response, and after another status nothing was parsed. -/
structure Forwarded.Honest (f : Forwarded) : Prop where
  ok : f.callback.status = httpOk →
    f.callback.parsed = true ∧ f.callback.used = bodyBytes f.response.parts
  other : f.response.status ≠ httpOk → f.callback.used = []

/-- A reader of the chain delivers no bytes. -/
def Drained (chain : List Link) : Prop :=
  ∀ (cs : List Chunk) r', Nexts (new chain) (cs.map some) r' → cs.flatMap Chunk.bytes = []

/-- The sub-response has status 200 and its body, all of it in the first buffer, is a message;
or it has another status and nothing in `req_bufs` is unread. -/
structure Forwarded.Clean (f : Forwarded) : Prop where
  ok : f.response.status = httpOk → lead f.response.parts = bodyBytes f.response.parts ∧
    f.parser.Takes (bodyBytes f.response.parts)
  other : f.response.status ≠ httpOk → Drained f.task.reqBufs

/-! ## The body of a sub-response -/

/-- The chain is what `ngx_http_rpc_task_set_bufs` makes of `out`. -/
def IsCopy (out chain : List Link) : Prop :=
  if out = [] then ∃ a, chain = [⟨a, none⟩] else List.Forall₂ Link.CopyOf out chain

theorem wp_taskSetBufs_isCopy {S : Slab} {stale : StaleLink} {p : Pool} {dest out : List Link}
    (hout : ∀ l ∈ out, l.buf.isSome) :
    wpStop (fun _ => True) (taskSetBufs S stale dest out) (fun chain _ => IsCopy out chain) p := by
  cases dest with
  | nil => trivial
  | cons head rest =>
    simp only [taskSetBufs, wp_bind]
    refine wp_mono (fun _ p₁ _ => ?_) (wp_any (fun _ _ => trivial) fun _ _ => trivial)
    simp only [wp_bind]
    refine wp_mono (fun _ p₂ _ => ?_) (wp_any (fun _ _ => trivial) fun _ _ => trivial)
    simp only [wp_bind, wp_access]
    by_cases hnil : out = []
    · subst hnil
      exact ⟨head.addr, rfl⟩
    · refine wp_copyBufs (Or.inr trivial) hnil (Or.inl rfl) hout fun chain _ hchain => ?_
      rw [IsCopy, if_neg hnil]
      exact hchain

/-- A body that is all in what the first buffer gives has nothing behind it. -/
theorem front_eq_body {parts : List BodyPart} (h : lead parts = bodyBytes parts) :
    front parts = bodyBytes parts := by
  by_cases hends : StreamEnds parts
  · exact (front_eq_lead hends).trans h
  · cases parts with
    | nil => exact absurd trivial hends
    | cons part parts =>
      cases part with
      | file bytes => exact absurd trivial hends
      | memory bytes =>
        cases parts with
        | nil => exact absurd trivial hends
        | cons part₂ parts =>
          cases part₂ with
          | file bytes₂ => exact absurd trivial hends
          | memory bytes₂ =>
            have hnil : bytes₂ = [] := by
              have hlength := congrArg List.length h
              simp only [lead, bodyBytes, List.flatMap_cons, List.length_append, BodyPart.bytes,
                List.length_take] at hlength
              apply List.eq_nil_of_length_eq_zero
              omega
            subst hnil
            show lead (.memory bytes :: .memory [] :: parts) ++ lead (.memory [] :: parts) = _
            rw [h]
            simp [lead]

/-- A verdict is about the whole body exactly when this is a message and all in what the first
buffer gives. -/
theorem Verdict.whole_iff {P : MessageParser} {parts : List BodyPart} {ok : Bool}
    {used : List UInt8} (h : Verdict P parts ok used) : ok = true ∧ used = bodyBytes parts ↔
      lead parts = bodyBytes parts ∧ P.Takes (bodyBytes parts) := by
  obtain ⟨-, ⟨n, hstop, rfl, -⟩ | ⟨hgo, hends, rfl, rfl⟩⟩ := h
  · refine iff_of_false (fun hand => Bool.false_ne_true hand.1) ?_
    rintro ⟨hlead, hgo, -⟩
    rw [front_eq_body hlead, hgo] at hstop
    cases hstop
  · rw [front_eq_lead hends] at hgo
    constructor
    · rintro ⟨haccept, hlead⟩
      exact ⟨hlead, hlead ▸ ⟨hgo, haccept⟩⟩
    · rintro ⟨hlead, htakes⟩
      exact ⟨hlead ▸ htakes.2, hlead⟩

/-- A parse of a copy succeeds, and has used the body, exactly when the body is a message and
the reader gives it out from the first buffer. -/
theorem parse_copy_iff {P : MessageParser} {out chain : List Link} {parts : List BodyPart}
    {ok : Bool} {used : List UInt8} {r' : NgxChainBufferReader} (hbody : IsBody out parts)
    (hsize : (bodyBytes parts).length < 2 ^ 63) (hcopy : IsCopy out chain)
    (h : Parse P (new chain) [] ok used r') :
    ok = true ∧ used = bodyBytes parts ↔
      lead parts = bodyBytes parts ∧ P.Takes (bodyBytes parts) := by
  by_cases hnil : out = []
  · rw [IsCopy, if_pos hnil] at hcopy
    obtain ⟨a, rfl⟩ := hcopy
    obtain rfl := hbody.eq_nil_iff.mp hnil
    have hnone : NextReturns (new [⟨a, none⟩]) none (new [⟨a, none⟩]) := ⟨1, rfl⟩
    obtain ⟨rfl, rfl, -⟩ := h.unique (.ended hnone)
    simp [bodyBytes, lead, MessageParser.Takes, P.stop_nil]
  · rw [IsCopy, if_neg hnil] at hcopy
    have hne := mt hbody.eq_nil_iff.mpr hnil
    have hverdict := (parse_body_iff (hbody.copy hcopy hsize) hne ok used).mp ⟨r', h⟩
    exact hverdict.whole_iff

/-! ## Forwards -/

section Run

variable {S : Slab} {stale : StaleLink} {f : Forwarded} {task task' : RpcTask} {p p' : Pool}

/-- The status is always stored, the body only with status 200. -/
theorem subrequestDone_fields {response : SubResponse}
    (h : subrequestDone S stale task response p = (.ok task', p')) :
    task'.responseStates = response.status ∧
      (response.status = httpOk → IsCopy response.out task'.reqBufs) ∧
      (response.status ≠ httpOk → task'.reqBufs = task.reqBufs) := by
  have hwp : wpStop (fun _ => True) (subrequestDone S stale task response) (fun task' _ =>
      task'.responseStates = response.status ∧
        (response.status = httpOk → IsCopy response.out task'.reqBufs) ∧
        (response.status ≠ httpOk → task'.reqBufs = task.reqBufs)) p := by
    rw [subrequestDone]
    by_cases hok : response.status = httpOk
    · rw [if_pos hok]
      simp only [subrequestDoneHandler, wp_bind]
      refine wp_mono (fun chain _ hcopy => ?_) (wp_taskSetBufs_isCopy response.isBody.isSome)
      exact ⟨rfl, fun _ => hcopy, fun hne => absurd hok hne⟩
    · rw [if_neg hok]
      exact ⟨rfl, fun h => absurd h hok, fun _ => rfl⟩
  exact (wp_iff.mp hwp).1 task' p' h

/-- One forward. -/
theorem honest_iff_of_done {task₃ : RpcTask}
    (hsub : subrequestDone S stale f.task f.response p = (.ok task', p'))
    (hdone : FowardDone f.parser task' f.callback task₃) : f.Honest ↔ f.Clean := by
  obtain ⟨hstates, hcopy, hkept⟩ := subrequestDone_fields hsub
  obtain ⟨r', hparse, hstatus, -⟩ := hdone
  rw [hstates] at hstatus
  by_cases hok : f.response.status = httpOk
  · have hiff := parse_copy_iff f.response.isBody f.response.size (hcopy hok) hparse
    constructor
    · intro h
      exact ⟨fun _ => hiff.mp (h.ok (hstatus.trans hok)), fun hne => absurd hok hne⟩
    · intro h
      exact ⟨fun _ => hiff.mpr (h.ok hok), fun hne => absurd hok hne⟩
  · rw [hkept hok] at hparse
    have hiff := hparse.used_eq_nil_iff
    constructor
    · intro h
      exact ⟨fun he => absurd he hok, fun hne => (hiff.mp (h.other hne)).2⟩
    · intro h
      refine ⟨fun he => absurd (hstatus.symm.trans he) hok, fun hne => ?_⟩
      exact hiff.mpr ⟨rfl, h.other hne⟩

/-- In every run of forwards, a callback is told the truth exactly when its sub-response has
status 200 and a body that is a message and fits the first buffer, or finds nothing left to
read in `req_bufs`. -/
theorem honest_iff {s s' : RpcTask × Pool} {log : List Forwarded} (h : FowardRun S stale s log s') :
    ∀ f ∈ log, (f.Honest ↔ f.Clean) := by
  induction h with
  | nil s => simp
  | cons _ hsub hdone _ ih =>
    intro g hg
    obtain rfl | hg := List.mem_cons.mp hg
    · exact honest_iff_of_done hsub hdone
    · exact ih g hg

end Run

/-! ## Two forwards -/

theorem isBody_bufferOf (bytes : List UInt8) :
    IsBody [⟨0, some (bufferOf bytes)⟩] [.memory bytes] := by
  refine .cons ⟨_, rfl, inMemory_bufferOf bytes, ?_⟩ .nil
  simp [NgxBuf.content, NgxBuf.at_, bufferOf]

theorem bodyBytes_memory_lt {bytes : List UInt8} (h : bytes.length < 2 ^ 31) :
    (bodyBytes [.memory bytes]).length < 2 ^ 63 := by
  simp only [bodyBytes, List.flatMap_cons, List.flatMap_nil, List.append_nil, BodyPart.bytes]
  omega

/-- A sub-response with status 200 and its body in one buffer. -/
def okResponse (bytes : List UInt8) (hsize : bytes.length < 2 ^ 31) : SubResponse where
  status := httpOk
  out := [⟨0, some (bufferOf bytes)⟩]
  parts := [.memory bytes]
  isBody := isBody_bufferOf bytes
  size := bodyBytes_memory_lt hsize

/-- A forward whose sub-response is read to its end. -/
theorem exists_fowardRun (P : MessageParser) (bytes : List UInt8)
    (hsize : bytes.length < 2 ^ 31) (hstop : P.stop bytes = none) :
    ∃ f s', FowardRun (Slab.unlimited 0) (fun _ => (none, [])) (readTask, ⟨∅, []⟩) [f] s' ∧
      f.response = okResponse bytes hsize ∧ f.callback = ⟨httpOk, P.accept bytes, bytes⟩ := by
  obtain ⟨task, p₁, hsend⟩ := forwardRequest_readTask
  have hbufs : task.reqBufs = readTask.reqBufs := (forwardRequest_fields hsend).1
  have hsome : ∀ l ∈ (okResponse bytes hsize).out, l.buf.isSome :=
    (okResponse bytes hsize).isBody.isSome
  have hwp : wp (fun _ _ => False) (subrequestDone (Slab.unlimited 0) (fun _ => (none, [])) task
      (okResponse bytes hsize)) (fun task' _ => task'.responseStates = httpOk ∧
        List.Forall₂ Link.CopyOf (okResponse bytes hsize).out task'.reqBufs) p₁ := by
    have hok : (okResponse bytes hsize).status = httpOk := rfl
    simp only [subrequestDone, hok, if_true, subrequestDoneHandler, wp_bind, hbufs]
    refine wp_taskSetBufs_clear (by decide) fun p' _ => ?_
    refine wp_copyBufs (Or.inl (Slab.unlimited_unlimited 0)) (by simp [okResponse]) (Or.inl rfl)
      hsome fun chain _ hchain => ?_
    exact ⟨rfl, hchain⟩
  obtain ⟨task', p₂, hsub, hstates, hcopy⟩ := ends_iff.mpr hwp
  obtain ⟨l, hchain, b, c, hb, hc, hcopy⟩ : ∃ l, task'.reqBufs = [l] ∧
      Link.CopyOf ⟨0, some (bufferOf bytes)⟩ l := by
    cases hbufs' : task'.reqBufs with
    | nil =>
      rw [hbufs'] at hcopy
      cases hcopy
    | cons l ls =>
      rw [hbufs'] at hcopy
      cases hcopy with
      | cons hl hls =>
        cases hls
        exact ⟨l, rfl, hl⟩
  obtain rfl := Option.some.inj hb
  have hpart : (BodyPart.memory bytes).IsBuf (bufferOf bytes) := by
    refine ⟨inMemory_bufferOf bytes, ?_⟩
    simp [NgxBuf.content, NgxBuf.at_, bufferOf]
  have hcopied : IsBody [l] [.memory bytes] := .cons ⟨c, hc, hcopy.memory hpart (by omega)⟩ .nil
  have hlead : lead [.memory bytes] = bytes := by
    rw [lead, CInt.int_of_range (by omega) (by omega)]
    simp
  have hverdict : Verdict P [.memory bytes] (P.accept bytes) bytes := by
    have hsized : LeadSized [.memory bytes] := by
      rw [LeadSized, CInt.int_of_range (by omega) (by omega)]
      omega
    have hends : StreamEnds [.memory bytes] := trivial
    refine (verdict_iff_of_streamEnds hends).mpr ⟨hsized, Or.inr ?_⟩
    rw [hlead]
    exact ⟨hstop, rfl, rfl⟩
  obtain ⟨r', hparse⟩ := (parse_body_iff hcopied (by simp) _ _).mpr hverdict
  refine ⟨⟨asciiBytes "/a", [7], okResponse bytes hsize, P, task,
    ⟨httpOk, P.accept bytes, bytes⟩⟩, _, .cons hsend hsub ⟨r', ?_, hstates.symm, rfl⟩
      (.nil _), rfl, rfl⟩
  rw [hchain]
  exact hparse

theorem honest_iff_ok :
    ∃ f s', FowardRun (Slab.unlimited 0) (fun _ => (none, [])) (readTask, ⟨∅, []⟩) [f] s' ∧
      (f.Honest ↔ f.Clean) := by
  obtain ⟨f, s', hrun, -⟩ :=
    exists_fowardRun (.atEnd parseString) [10, 1, 120] (by decide) rfl
  exact ⟨f, s', hrun, honest_iff hrun f List.mem_cons_self⟩

/-- A body that is no message: the callback gets status 200. -/
theorem not_honest_rejected :
    ∃ f s', FowardRun (Slab.unlimited 0) (fun _ => (none, [])) (readTask, ⟨∅, []⟩) [f] s' ∧
      ¬f.Honest := by
  obtain ⟨f, s', hrun, -, hcallback⟩ :=
    exists_fowardRun (.atEnd parseString) [8] (by decide) rfl
  refine ⟨f, s', hrun, fun h => ?_⟩
  have hparsed := (h.ok (by rw [hcallback])).1
  rw [hcallback] at hparsed
  revert hparsed
  decide

end NgxRpc
