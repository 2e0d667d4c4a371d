import NgxRpc.FowardDone
import NgxRpc.Inspect

/-!
# A call of the inspect service

The body of a request goes through shared memory to a processor, which parses it and calls the
method; the response goes back the same way. Where the reader gives out the whole body and the
response fits into the first region of the writer, the method gets the message that the client
wrote, and the client gets the message that the method passed to `done`.

## Main definitions

- `Method`, `interface` — the methods
- `Processed`, `ForwardProcessed` — the handler that is generated for a method
- `reply` — what it answers

## Main results

- `call_returns` — a call from a message to a message
- `call_refuses` — a body that is no message
- `forward_calls_empty` — what the method behind a forward gets
-/

namespace NgxRpc
open SlabPool NgxChainBufferReader CodedInputStream

/-! ## What is left of a body -/

/-- The parts of a body whose first buffer was read. -/
def readParts : List BodyPart → List BodyPart
  | .memory _ :: parts => .memory [] :: parts
  | parts => parts

section Left

variable {body chain : List Link} {parts : List BodyPart}

/-- A reader that is done with a body has used up its first buffer. -/
theorem IsBody.read {cs : List Chunk} {r' : NgxChainBufferReader} (hbody : IsBody chain parts)
    (hne : parts ≠ []) (hends : StreamEnds parts) (hcs : Delivers (new chain) cs r') :
    IsBody r'.links (readParts parts) := by
  cases hbody with
  | nil => contradiction
  | @cons l part ls parts hpart hparts =>
    obtain ⟨b, hb, hpart⟩ := hpart
    cases part with
    | file bytes =>
      obtain ⟨-, rfl⟩ := (delivers_nil (nextReturns_inFile rfl hb hpart)).mp hcs
      exact .cons ⟨b, hb, hpart⟩ hparts
    | memory bytes =>
      obtain ⟨hmem, rfl⟩ := hpart
      have hend := endsBefore_of_streamEnds hparts hends
      have hlinks := (delivers_first rfl hb hmem.inFile hend).mp hcs
      split at hlinks
      · next hused =>
        obtain ⟨-, rfl⟩ := hlinks
        exact .cons ⟨b, hb, hmem, NgxBuf.content_eq_nil hused⟩ hparts
      · obtain ⟨-, rfl⟩ := hlinks
        have hused : ({ b with pos := b.last } : NgxBuf).InMemory :=
          ⟨hmem.inFile, hmem.start_le.trans hmem.pos_le, le_rfl, hmem.last_le⟩
        show IsBody ({ l with buf := some { b with pos := b.last } } :: ls) _
        exact .cons ⟨_, rfl, hused, NgxBuf.content_eq_nil rfl⟩ hparts

end Left

namespace Inspect

/-- A method that calls `done` before it returns: what it passes to it, from the request and the
empty response that it is given. -/
abbrev Method := Request → Response → Response × ℤ

/-- `Application_server::interface`. -/
def interface : Method := fun _ response => (response.setJson (asciiBytes "hehe"), httpOk)

/-- `NGX_HTTP_INTERNAL_SERVER_ERROR`. -/
def httpInternalServerError : ℤ := 500

/-- The handler of a method, such as `ngxrpc_inspect_application_interface`, on a task whose stream
ends: from the task and the pool to the ones that `finish_request` leaves. A parse that fails may
stop anywhere in `req_bufs`. -/
inductive Processed (S : Slab) (method : Method) (task : RpcTask) (p : Pool) :
    RpcTask × Pool → Prop where
  | parsed {cs r' request task' p'}
      (hcs : Delivers (new task.reqBufs) cs r')
      (hparse : Message.new.parseFromZeroCopyStream (cs.map Chunk.bytes) = some request)
      (hdone : finishRequest S { task with reqBufs := r'.links }
        (method request .new).1.serializeWithCachedSizesToArray (method request .new).2 p =
          (.ok task', p')) : Processed S method task p (task', p')
  | notParsed {cs r' reqBufs task' p'}
      (hcs : Delivers (new task.reqBufs) cs r')
      (hparse : Message.new.parseFromZeroCopyStream (cs.map Chunk.bytes) = none)
      (hdone : finishRequest S { task with reqBufs := reqBufs }
        Message.new.serializeWithCachedSizesToArray httpInternalServerError p = (.ok task', p')) :
      Processed S method task p (task', p')

/-- What a method answers to a body: the empty response and an error where it is no message. -/
def reply (method : Method) (bytes : List UInt8) : Response × ℤ :=
  match Message.new.parseFromZeroCopyStream [bytes] with
  | none => (.new, httpInternalServerError)
  | some request => method request .new

/-- The task holds this response with this status. -/
structure Holds (task : RpcTask) (r : Response × ℤ) : Prop where
  status : task.responseStates = r.2
  bytes : content task.resBufs = r.1.serializeWithCachedSizesToArray
  length : task.resLength = r.1.serializeWithCachedSizesToArray.length

namespace Message

/-- The chunks make no difference. -/
theorem parse_congr (m m' : Message) {input input' : List (List UInt8)}
    (hbytes : input.flatten = input'.flatten) (hsize : input.flatten.length ≤ totalBytesLimit) :
    m.parseFromZeroCopyStream input = m'.parseFromZeroCopyStream input' := by
  apply Option.ext
  intro a
  constructor
  · intro ha
    obtain ⟨hlt, fields, hwire, rfl⟩ := wire_of_parse hsize ha
    exact parse_of_wire m' (hbytes ▸ hwire) (hbytes ▸ hlt)
  · intro ha
    obtain ⟨hlt, fields, hwire, rfl⟩ := wire_of_parse (hbytes ▸ hsize) ha
    exact parse_of_wire m (hbytes ▸ hwire) (hbytes ▸ hlt)

end Message

variable {S : Slab} {stale : StaleLink} {method : Method} {body : List Link}
  {parts : List BodyPart} {task : RpcTask} {p : Pool}

/-- A message that fits into the first region is in the chain of the writer. -/
theorem wp_serialize_message (hS : S.Unlimited) (chain : ℤ) {m : Message}
    (hfits : m.serializeWithCachedSizesToArray.length ≤ 4096) (p : Pool) :
    wpStop (fun _ => False) (NgxShmChainBufferWriter.serializeToZeroCopyStream S (.new chain 1)
      m.serializeWithCachedSizesToArray) (fun w _ =>
        content w.chain = m.serializeWithCachedSizesToArray ∧
          w.totaly = m.serializeWithCachedSizesToArray.length) p :=
  NgxShmChainBufferWriter.wp_serialize_fits (Or.inl hS : _ ∨ _ ∧ (fun _ => True) (0 : UInt8))
    (fun _ _ _ _ => trivial) chain (by omega) (Or.inl hfits)

/-- A response that fits into the first region is left in the task. -/
theorem wp_finishRequest_holds (hS : S.Unlimited) {r : Response × ℤ} (task : RpcTask)
    (hfits : r.1.serializeWithCachedSizesToArray.length ≤ 4096) (p : Pool) :
    wpStop (fun _ => False) (finishRequest S task r.1.serializeWithCachedSizesToArray r.2)
      (fun task' _ => Holds task' r) p := by
  refine wp_finishRequest (wp_mono ?_ (wp_serialize_message hS task.addr hfits _))
  exact fun w _ hw => ⟨rfl, hw.1, hw.2⟩

/-- A program that cannot stop early ends. -/
theorem exists_ok {α : Type} {m : SlabM α} {Q : α → Pool → Prop}
    (h : wpStop (fun _ => False) m Q p) : ∃ a p', m p = (.ok a, p') ∧ Q a p' := by
  obtain ⟨hok, herr⟩ := wp_iff.mp h
  rcases hrun : m p with ⟨e | a, p'⟩
  · exact (herr e p' hrun).elim
  · exact ⟨a, p', rfl, hok a p' hrun⟩

section Run

variable {cs : List Chunk} {r' : NgxChainBufferReader} {bytes : List UInt8}
  (hcs : Delivers (new task.reqBufs) cs r') (hbytes : cs.flatMap Chunk.bytes = bytes)
  (hsize : bytes.length < totalBytesLimit)
include hbytes hsize

/-- The verdict on the chunks of the reader is that on the body. -/
theorem parse_chunks : Message.new.parseFromZeroCopyStream (cs.map Chunk.bytes) =
    Message.new.parseFromZeroCopyStream [bytes] := by
  have hflat : (cs.map Chunk.bytes).flatten = [bytes].flatten := by
    rw [← List.flatMap_def, hbytes, List.flatten_singleton]
  exact Message.parse_congr _ _ hflat (by rw [hflat, List.flatten_singleton]; exact hsize.le)

include hcs
variable (hS : S.Unlimited)
  (hfits : (reply method bytes).1.serializeWithCachedSizesToArray.length ≤ 4096)
include hS hfits

theorem Processed.holds {r : RpcTask × Pool} (h : Processed S method task p r) :
    Holds r.1 (reply method bytes) := by
  have hverdict := parse_chunks hbytes hsize
  cases h with
  | @parsed cs' r'' request task' p' hcs' hparse hdone =>
    obtain ⟨rfl, rfl⟩ := hcs.unique hcs'
    rw [hparse] at hverdict
    have hreply : reply method bytes = method request .new := by rw [reply, ← hverdict]
    rw [hreply] at hfits ⊢
    exact (wp_iff.mp (wp_finishRequest_holds hS _ hfits p)).1 _ _ hdone
  | @notParsed cs' r'' reqBufs task' p' hcs' hparse hdone =>
    obtain ⟨rfl, rfl⟩ := hcs.unique hcs'
    rw [hparse] at hverdict
    have hreply : reply method bytes = (.new, httpInternalServerError) := by rw [reply, ← hverdict]
    rw [hreply] at hfits ⊢
    exact (wp_iff.mp (wp_finishRequest_holds hS _ hfits p)).1 _ _ hdone

theorem exists_processed : ∃ r, Processed S method task p r := by
  have hverdict := parse_chunks hbytes hsize
  cases hparse : Message.new.parseFromZeroCopyStream [bytes] with
  | none =>
    have hreply : reply method bytes = (.new, httpInternalServerError) := by rw [reply, hparse]
    rw [hreply] at hfits
    obtain ⟨task', p', hdone, -⟩ := exists_ok (wp_finishRequest_holds hS
      (r := (.new, httpInternalServerError)) { task with reqBufs := r'.links } hfits p)
    exact ⟨_, .notParsed hcs (hverdict.trans hparse) hdone⟩
  | some request =>
    have hreply : reply method bytes = method request .new := by rw [reply, hparse]
    rw [hreply] at hfits
    obtain ⟨task', p', hdone, -⟩ := exists_ok (wp_finishRequest_holds hS
      { task with reqBufs := r'.links } hfits p)
    exact ⟨_, .parsed hcs (hverdict.trans hparse) hdone⟩

end Run

/-- The handler of the method ends, and the task then holds this response with this status. -/
def Answered (S : Slab) (method : Method) (r : Response × ℤ) (task : Option RpcTask) (p : Pool) :
    Prop :=
  ∃ t, task = some t ∧ (∃ s, Processed S method t p s) ∧
    ∀ s, Processed S method t p s → Holds s.1 r

theorem wp_receiveBody_answered (hS : S.Unlimited) (hbody : IsBody body parts) (hne : parts ≠ [])
    (hends : StreamEnds parts) (hlead : lead parts = bodyBytes parts)
    (hsize : (bodyBytes parts).length < totalBytesLimit) (hfits :
      (reply method (bodyBytes parts)).1.serializeWithCachedSizesToArray.length ≤ 4096)
    (contentLengthN : ℤ) : wpStop (fun _ => False) (receiveBody S stale body contentLengthN)
      (Answered S method (reply method (bodyBytes parts))) p := by
  have hlimit : totalBytesLimit < 2 ^ 63 := by decide
  refine wp_receiveBody (Or.inl hS) (mt hbody.eq_nil_iff.mp hne) hbody.isSome
    fun task p' hcopy _ => ?_
  have hcopied := hbody.copy hcopy (hsize.trans hlimit)
  obtain ⟨cs, r', hcs, hbytes⟩ := (delivers_body_iff hcopied hne
    (Q := fun bytes => bytes = bodyBytes parts)).mpr ⟨hends, hlead⟩
  exact ⟨task, rfl, exists_processed hcs hbytes hsize hS hfits,
    fun s hs => hs.holds hcs hbytes hsize hS hfits⟩

/-- A call from a message to a message: the client writes `request` to whatever regions and sends
it, and parses what is sent back. If the reader gives out the whole body, and the response fits
into the first region, the method gets `request`, and the client what the method passed to
`done`. -/
theorem call_returns (hS : S.Unlimited) (method : Method) {request : Request}
    (hrequest : request.WellFormed) {output : List ℕ} {o : CodedOutputStream}
    (hsent : request.serializeToZeroCopyStream output = some (true, o))
    (hbody : IsBody body parts) (hbytes : bodyBytes parts = o.written) (hne : parts ≠ [])
    (hends : StreamEnds parts) (hlead : lead parts = bodyBytes parts)
    (hsize : request.serializeWithCachedSizesToArray.length < totalBytesLimit)
    (hresponse : (method request .new).1.WellFormed)
    (hfits : (method request .new).1.serializeWithCachedSizesToArray.length ≤ 4096)
    (contentLengthN : ℤ) (p : Pool) :
    wpStop (fun _ => False) (receiveBody S stale body contentLengthN) (fun task p' =>
      ∃ t, task = some t ∧ (∃ s, Processed S method t p' s) ∧
        ∀ s, Processed S method t p' s →
          s.1.responseStates = (method request .new).2 ∧
          ∀ (old : Response) (input : List (List UInt8)), input.flatten = content s.1.resBufs →
            old.parseFromZeroCopyStream input = some (method request .new).1) p := by
  have hwritten : o.written = request.serializeWithCachedSizesToArray :=
    Message.serialize_written (hsize.trans (by decide)) hsent
  rw [hwritten] at hbytes
  have hparse : Message.new.parseFromZeroCopyStream [bodyBytes parts] = some request := by
    have hflat : [bodyBytes parts].flatten = request.serializeWithCachedSizesToArray := by
      rw [List.flatten_singleton, hbytes]
    have hrow := Message.parse_of_wire .new (hflat ▸ hrequest.wire) (hflat ▸ hsize)
    rwa [hrequest.ofFields_fields] at hrow
  have hreply : reply method (bodyBytes parts) = method request .new := by rw [reply, hparse]
  refine wp_mono ?_ (wp_receiveBody_answered hS hbody hne hends hlead (hbytes ▸ hsize)
    (hreply ▸ hfits) contentLengthN)
  rintro _ p' ⟨t, rfl, hrun, hall⟩
  refine ⟨t, rfl, hrun, fun s hs => ?_⟩
  obtain ⟨hstatus, hcontent, -⟩ := hall s hs
  rw [hreply] at hstatus hcontent
  refine ⟨hstatus, fun old input hinput => ?_⟩
  rw [hcontent] at hinput
  have hrow := Message.parse_of_wire old (hinput ▸ hresponse.wire)
    (hinput ▸ lt_of_le_of_lt hfits (by decide))
  rwa [hresponse.ofFields_fields] at hrow

theorem call_returns_interface : wpStop (fun _ => False)
    (receiveBody (Slab.unlimited 0) (fun _ => (none, []))
      [⟨0, some (bufferOf [10, 2, 104, 105])⟩] 4)
    (fun task p' => ∃ t, task = some t ∧
      (∃ s, Processed (Slab.unlimited 0) interface t p' s) ∧
        ∀ s, Processed (Slab.unlimited 0) interface t p' s →
          s.1.responseStates = 200 ∧
          ∀ (old : Response) (input : List (List UInt8)), input.flatten = content s.1.resBufs →
            old.parseFromZeroCopyStream input = some ⟨some [104, 101, 104, 101], []⟩) ⟨∅, []⟩ := by
  obtain ⟨o, hsent, hwritten⟩ := @Message.serialize_fits ⟨some [104, 105], []⟩ [3, 2] (by decide)
    (by decide)
  have hbody : IsBody [⟨0, some (bufferOf [10, 2, 104, 105])⟩] [.memory [10, 2, 104, 105]] :=
    .cons ⟨_, rfl, ⟨rfl, by decide, by decide, by decide⟩, by decide⟩ .nil
  have hbytes : bodyBytes [.memory [10, 2, 104, 105]] = o.written := by
    rw [hwritten]
    decide
  have hrequest : Message.WellFormed ⟨some [104, 105], []⟩ :=
    ⟨by rintro _ ⟨⟩; decide, ⟨[], .nil 100⟩, nofun⟩
  have hresponse : Message.WellFormed (interface ⟨some [104, 105], []⟩ .new).1 :=
    ⟨by rintro _ ⟨⟩; decide, ⟨[], .nil 100⟩, nofun⟩
  exact call_returns (Slab.unlimited_unlimited 0) interface hrequest hsent hbody hbytes (by decide)
    trivial (by decide) (by decide) hresponse (by decide) 4 ⟨∅, []⟩

/-- A body that is no row of fields is answered with an error and no bytes, and the method is not
called. -/
theorem call_refuses (hS : S.Unlimited) (method : Method) (hbody : IsBody body parts)
    (hne : parts ≠ []) (hends : StreamEnds parts) (hlead : lead parts = bodyBytes parts)
    (hsize : (bodyBytes parts).length < totalBytesLimit)
    (hrow : ¬∃ fields, Wire 100 fields (bodyBytes parts)) (contentLengthN : ℤ) (p : Pool) :
    wpStop (fun _ => False) (receiveBody S stale body contentLengthN) (fun task p' =>
      ∃ t, task = some t ∧ (∃ s, Processed S method t p' s) ∧
        ∀ s, Processed S method t p' s →
          s.1.responseStates = 500 ∧ content s.1.resBufs = [] ∧ s.1.resLength = 0) p := by
  have hparse : Message.new.parseFromZeroCopyStream [bodyBytes parts] = none := by
    by_contra hsome
    obtain ⟨request, hrequest⟩ := Option.ne_none_iff_exists'.mp hsome
    obtain ⟨-, fields, hwire, -⟩ :=
      Message.wire_of_parse (by rw [List.flatten_singleton]; exact hsize.le) hrequest
    rw [List.flatten_singleton] at hwire
    exact hrow ⟨fields, hwire⟩
  have hreply : reply method (bodyBytes parts) = (.new, httpInternalServerError) := by
    rw [reply, hparse]
  refine wp_mono ?_ (wp_receiveBody_answered hS hbody hne hends hlead hsize
    (by rw [hreply]; decide) contentLengthN)
  rintro _ p' ⟨t, rfl, hrun, hall⟩
  refine ⟨t, rfl, hrun, fun s hs => ?_⟩
  obtain ⟨hstatus, hcontent, hlength⟩ := hall s hs
  rw [hreply] at hstatus hcontent hlength
  exact ⟨hstatus, hcontent, hlength⟩

/-- The tag 15 has no type. -/
theorem call_refuses_tag : wpStop (fun _ => False)
    (receiveBody (Slab.unlimited 0) (fun _ => (none, [])) [⟨0, some (bufferOf [15])⟩] 1)
    (fun task p' => ∃ t, task = some t ∧
      (∃ s, Processed (Slab.unlimited 0) interface t p' s) ∧
        ∀ s, Processed (Slab.unlimited 0) interface t p' s →
          s.1.responseStates = 500 ∧ content s.1.resBufs = [] ∧ s.1.resLength = 0) ⟨∅, []⟩ := by
  have hrow : ¬∃ fields, Wire 100 fields (bodyBytes [.memory [15]]) := by
    rintro ⟨fields, hwire⟩
    have hparse := @Message.parse_of_wire .new fields [[15]] hwire (by decide)
    have hnone : Message.new.parseFromZeroCopyStream [[15]] = none := rfl
    rw [hnone] at hparse
    cases hparse
  have hbody : IsBody [⟨0, some (bufferOf [15])⟩] [.memory [15]] :=
    .cons ⟨_, rfl, ⟨rfl, by decide, by decide, by decide⟩, by decide⟩ .nil
  exact call_refuses (Slab.unlimited_unlimited 0) interface hbody (by decide) trivial (by decide)
    (by decide) hrow 1 ⟨∅, []⟩

/-! ## A forward -/

/-- A method that calls `forward_request` before it returns: the path and the message. -/
abbrev Forwarding := Request → List UInt8 × Request

/-- `Application_server::requeststatus`. -/
def requeststatus : Forwarding := fun request =>
  (asciiBytes "/ngxrpc/inspect/application/interface", Message.new.copyFrom request)

/-- The handler of a method that forwards, on a task whose body is parsed. -/
inductive ForwardProcessed (S : Slab) (forwarding : Forwarding) (task : RpcTask) (p : Pool) :
    RpcTask × Pool → Prop where
  | parsed {cs r' request task' p'}
      (hcs : Delivers (new task.reqBufs) cs r')
      (hparse : Message.new.parseFromZeroCopyStream (cs.map Chunk.bytes) = some request)
      (hforward : forwardRequest S { task with reqBufs := r'.links } (forwarding request).1
        (forwarding request).2.serializeWithCachedSizesToArray p = (.ok task', p')) :
      ForwardProcessed S forwarding task p (task', p')

/-- The empty body is the empty message. -/
theorem reply_nil (method : Method) : reply method [] = method .new .new := by
  have hparse : Message.new.parseFromZeroCopyStream [[]] = some (Message.ofFields []) :=
    @Message.parse_of_wire .new [] [[]] (.nil 100) (by decide)
  rw [reply, hparse]
  rfl

theorem bodyBytes_readParts (h : lead parts = bodyBytes parts) :
    bodyBytes (readParts parts) = [] ∧ lead (readParts parts) = [] := by
  cases parts with
  | nil => exact ⟨rfl, rfl⟩
  | cons part parts =>
    cases part with
    | memory bytes =>
      refine ⟨?_, rfl⟩
      have hlen := congrArg List.length h
      simp only [lead, bodyBytes, List.flatMap_cons, List.length_append, BodyPart.bytes,
        List.length_take] at hlen
      exact List.eq_nil_of_length_eq_zero (show (bodyBytes parts).length = 0 by
        rw [bodyBytes]; omega)
    | file bytes => exact ⟨h.symm, rfl⟩

theorem streamEnds_readParts (h : StreamEnds parts) : StreamEnds (readParts parts) := by
  obtain _ | ⟨_ | _, _ | ⟨_ | _, parts⟩⟩ := parts <;> exact h

theorem readParts_ne_nil (h : parts ≠ []) : readParts parts ≠ [] := by
  obtain _ | ⟨_ | _, parts⟩ := parts
  · exact h
  · exact List.cons_ne_nil _ _
  · exact h

/-- A message that fits into the first region is forwarded. -/
theorem exists_forwardRequest (hS : S.Unlimited) (task : RpcTask) {path : List UInt8}
    (hpath : path.length ≤ maxPathName) {message : Request}
    (hfits : message.serializeWithCachedSizesToArray.length ≤ 4096) (p : Pool) :
    ∃ task' p', forwardRequest S task path message.serializeWithCachedSizesToArray p =
      (.ok task', p') := by
  have hwp : wpStop (fun _ => False)
      (forwardRequest S task path message.serializeWithCachedSizesToArray) (fun _ _ => True) p := by
    refine wp_forwardRequest (fun _ hlong => Nat.not_le.mpr hlong hpath) ?_
    exact wp_mono (fun _ _ _ => trivial) (wp_serialize_message hS task.addr hfits _)
  obtain ⟨task', p', hrun, -⟩ := exists_ok hwp
  exact ⟨task', p', hrun⟩

/-- Whatever a client sends to a method that forwards, and whatever message this method forwards:
the sub-request announces as many bytes as the message has, and the method behind the path is
called with the empty request. -/
theorem forward_calls_empty (hS : S.Unlimited) (forwarding : Forwarding) (method : Method)
    (hbody : IsBody body parts) (hne : parts ≠ []) (hends : StreamEnds parts)
    (hlead : lead parts = bodyBytes parts) (hsize : (bodyBytes parts).length < totalBytesLimit)
    {request : Request}
    (hrequest : Message.new.parseFromZeroCopyStream [bodyBytes parts] = some request)
    (hpath : (forwarding request).1.length ≤ maxPathName)
    (hmessage : (forwarding request).2.serializeWithCachedSizesToArray.length ≤ 4096)
    (hfits : (method .new .new).1.serializeWithCachedSizesToArray.length ≤ 4096)
    (contentLengthN : ℤ) (p : Pool) :
    wpStop (fun _ => False) (receiveBody S stale body contentLengthN) (fun task p' =>
      ∃ t, task = some t ∧ (∃ s, ForwardProcessed S forwarding t p' s) ∧
        ∀ s, ForwardProcessed S forwarding t p' s →
          ∀ block r r', requestFoward block s.1 r = some r' →
          r'.headersIn.contentLengthN =
            (forwarding request).2.serializeWithCachedSizesToArray.length ∧
          wpStop (fun _ => False) (receiveBody S stale r'.bufs r'.headersIn.contentLengthN)
            (Answered S method (method .new .new)) s.2) p := by
  have hlimit : totalBytesLimit < 2 ^ 63 := by decide
  refine wp_receiveBody (Or.inl hS) (mt hbody.eq_nil_iff.mp hne) hbody.isSome
    fun task p' hcopy _ => ⟨task, rfl, ?_⟩
  have hcopied := hbody.copy hcopy (hsize.trans hlimit)
  obtain ⟨cs, r₁, hcs, hbytes⟩ := (delivers_body_iff hcopied hne
    (Q := fun bytes => bytes = bodyBytes parts)).mpr ⟨hends, hlead⟩
  have hparse := (parse_chunks hbytes hsize).trans hrequest
  constructor
  · obtain ⟨task', p₁, hforward⟩ :=
      exists_forwardRequest hS { task with reqBufs := r₁.links } hpath hmessage p'
    exact ⟨_, .parsed hcs hparse hforward⟩
  · rintro s ⟨hcs', hparse', hforward⟩ block r r' hfoward
    obtain ⟨rfl, rfl⟩ := hcs.unique hcs'
    obtain rfl := Option.some.inj (hparse.symm.trans hparse')
    obtain ⟨hbufs, hlength⟩ := requestFoward_fields hfoward
    obtain ⟨hbufs', hlength'⟩ := forwardRequest_fields hforward
    obtain ⟨hnil, hleads⟩ := bodyBytes_readParts hlead
    constructor
    · rw [hlength, hlength', CInt.int_of_range (by omega) (by omega)]
    · have hread := (hbody.copy hcopy (hsize.trans hlimit)).read hne hends hcs
      have hreply : reply method (bodyBytes (readParts parts)) = method .new .new := by
        rw [hnil, reply_nil]
      rw [hbufs, hbufs', ← hreply]
      exact wp_receiveBody_answered hS hread (readParts_ne_nil hne) (streamEnds_readParts hends)
        (hleads.trans hnil.symm) (by rw [hnil]; decide) (hreply ▸ hfits) _

/-- What `requeststatus` forwards to `interface`. -/
theorem forward_calls_empty_requeststatus : wpStop (fun _ => False)
    (receiveBody (Slab.unlimited 0) (fun _ => (none, []))
      [⟨0, some (bufferOf [10, 2, 104, 105])⟩] 4)
    (fun task p' => ∃ t, task = some t ∧
      (∃ s, ForwardProcessed (Slab.unlimited 0) requeststatus t p' s) ∧
        ∀ s, ForwardProcessed (Slab.unlimited 0) requeststatus t p' s →
          ∀ block r r', requestFoward block s.1 r = some r' →
            r'.headersIn.contentLengthN = 4 ∧
            wpStop (fun _ => False)
              (receiveBody (Slab.unlimited 0) (fun _ => (none, [])) r'.bufs
                r'.headersIn.contentLengthN)
              (Answered (Slab.unlimited 0) interface (interface .new .new)) s.2) ⟨∅, []⟩ := by
  have hbody : IsBody [⟨0, some (bufferOf [10, 2, 104, 105])⟩] [.memory [10, 2, 104, 105]] :=
    .cons ⟨_, rfl, ⟨rfl, by decide, by decide, by decide⟩, by decide⟩ .nil
  have hrequest : Message.new.parseFromZeroCopyStream [bodyBytes [.memory [10, 2, 104, 105]]] =
      some ⟨some [104, 105], []⟩ := rfl
  exact forward_calls_empty (Slab.unlimited_unlimited 0) requeststatus interface hbody (by decide)
    trivial (by decide) (by decide) hrequest (by decide) (by decide) (by decide) 4 ⟨∅, []⟩

end Inspect
end NgxRpc
