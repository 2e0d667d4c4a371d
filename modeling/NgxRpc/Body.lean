import NgxRpc.Leak
import NgxRpc.Parse

/-!
# The body of a request

From the body chain of nginx to the method of the service:
`ngx_http_rpc_post_async_handler` copies the chain into the task, and the handler that
is generated for the method parses the copy through a reader. The copy keeps the flag
`in_file` of a buffer, whose bytes are not in memory, and to the reader such a buffer
is the end of the stream. The parser takes that for the end of the message. Of the buffers in
memory the reader gives out the first two, and gets to an end only behind the first one; a
parser that finds an error before needs no end.

## Main definitions

- `BodyPart`, `IsBody` — the chains nginx hands over
- `receiveBody`, `Ends` — the two handlers
- `NeverShortened` — the method is invoked with the whole body or not at all

## Main results

- `neverShortened_iff` — the bodies of which this is true
-/

namespace NgxRpc
open SlabPool NgxChainBufferReader

/-- The bytes of a buffer of a body, in memory or in the temporary file. -/
inductive BodyPart where
  | memory (bytes : List UInt8)
  | file (bytes : List UInt8)
deriving DecidableEq

namespace BodyPart

def bytes : BodyPart → List UInt8
  | memory bytes => bytes
  | file bytes => bytes

/-- Buffer `b` stands for this part. -/
def IsBuf : BodyPart → NgxBuf → Prop
  | memory bytes, b => b.InMemory ∧ b.content = bytes
  | file _, b => b.inFile = true

end BodyPart

/-- The body. -/
def bodyBytes (parts : List BodyPart) : List UInt8 := parts.flatMap BodyPart.bytes

/-- `r->request_body->bufs` for a body with these parts. -/
def IsBody (body : List Link) (parts : List BodyPart) : Prop :=
  List.Forall₂ (fun l part => ∃ b, l.buf = some b ∧ part.IsBuf b) body parts

/-- `ngx_http_rpc_post_async_handler` up to the push of the task. There is no task when
the request is finalized because of a `NULL` body. -/
def receiveBody (S : Slab) (stale : StaleLink) (body : List Link) (contentLengthN : ℤ) :
    SlabM (Option RpcTask) :=
  if body = [] then pure none
  else do
    let task ← deref (← taskCreate S)
    let reqBufs ← taskSetBufs S stale task.reqBufs body
    pure (some { task with reqBufs := reqBufs, reqLength := contentLengthN })

/-- How a request ends: it is answered with a status by the module itself, or the method
of the service is invoked with what was parsed from `bytes`. -/
inductive Fate where
  | answered (status : ℤ)
  | invoked (bytes : List UInt8) (reqLength : ℤ)
deriving DecidableEq

/-- From the task to the fate of the request. `pushed` says whether
`ngx_rpc_queue_push_and_notify` returned `NGX_OK`, and `P` is the parser of the request
message. -/
inductive Ends (P : MessageParser) (pushed : Bool) : Option RpcTask → Fate → Prop where
  | badRequest : Ends P pushed none (.answered 400)
  | notPushed {task} (h : pushed = false) : Ends P pushed (some task) (.answered 500)
  | notParsed {task used r'} (h : pushed = true)
      (hparse : Parse P (new task.reqBufs) [] false used r') :
      Ends P pushed (some task) (.answered 500)
  | invoked {task used r'} (h : pushed = true)
      (hparse : Parse P (new task.reqBufs) [] true used r') :
      Ends P pushed (some task) (.invoked used task.reqLength)

/-- The method gets the whole body, or the answer is an error. -/
def Fate.Faithful (body : List UInt8) : Fate → Prop
  | answered status => 400 ≤ status
  | invoked bytes reqLength => bytes.length = reqLength ∧ bytes = body

/-- Every request with this body ends, and does not lose a byte of it unnoticed. A worker
may still die of a `NULL` pointer when the shared memory has run out. -/
def NeverShortened (P : MessageParser) (pushed : Bool) (body : List Link)
    (bytes : List UInt8) : Prop :=
  ∀ (S : Slab) (stale : StaleLink) (p : Pool),
    wpStop (fun e => e = .nullDereference ∧ ¬S.Unlimited) (receiveBody S stale body bytes.length)
      (fun task _ => ∃ fate, Ends P pushed task fate ∧ fate.Faithful bytes) p

/-- At most one buffer in memory comes before the end of the chain or a buffer in the
file. -/
def StreamEnds : List BodyPart → Prop
  | .memory _ :: .memory _ :: _ => False
  | _ => True

/-- The bytes of the first buffer, as many as its size in an `int` says, and none when
they are in the file. -/
def lead : List BodyPart → List UInt8
  | .memory bytes :: _ => bytes.take (CInt.int bytes.length).toNat
  | _ => []

/-- All that the reader gives out: the first buffer, and a second one in memory behind it. -/
def front : List BodyPart → List UInt8
  | .memory bytes :: .memory bytes₂ :: parts =>
    lead (.memory bytes :: .memory bytes₂ :: parts) ++ lead (.memory bytes₂ :: parts)
  | parts => lead parts

/-- The size of a first buffer in memory is no negative `int`. -/
def LeadSized : List BodyPart → Prop
  | .memory bytes :: _ => 0 ≤ CInt.int bytes.length
  | _ => True

/-- What a parser makes of a body: it rejects what it is given, or the stream ends behind the
first buffer. -/
structure Verdict (P : MessageParser) (parts : List BodyPart) (ok : Bool) (used : List UInt8) :
    Prop where
  sized : LeadSized parts
  ends : (∃ n, P.stop (front parts) = some n ∧ ok = false ∧ used = (front parts).take n) ∨
    P.stop (front parts) = none ∧ StreamEnds parts ∧ ok = P.accept (lead parts) ∧
      used = lead parts

/-- The parser rejects what it is given of the body, or gets to its end and is given all of
it. -/
structure NotCut (P : MessageParser) (parts : List BodyPart) : Prop where
  sized : LeadSized parts
  ends : P.stop (front parts) ≠ none ∨
    StreamEnds parts ∧ (lead parts = bodyBytes parts ∨ P.accept (lead parts) = false)

/-! ## The two handlers -/

/-- The handler of a whole request receives the body first. -/
theorem postAsyncHandler_eq (S : Slab) (stale : StaleLink) (r : Request) :
    postAsyncHandler S stale r = (do
      match ← receiveBody S stale r.body r.contentLengthN with
      | none => pure none
      | some task => do
        access task.addr
        match r.service with
        | none => pure (some { task with responseStates := 500, resLength := 0 })
        | some s => some <$> serveTask S stale task s) := by
  rw [postAsyncHandler, receiveBody]
  split
  · simp only [pure_bind]
  · cases r.service with
    | none => simp only [bind_assoc, pure_bind]
    | some s => simp only [bind_assoc, pure_bind]

section Spec

variable {S : Slab} {stale : StaleLink} {E : Stop → Prop} {p : Pool}

/-- The task of a request with a body holds a copy of it. -/
theorem wp_receiveBody (hroom : S.Unlimited ∨ E .nullDereference) {body : List Link}
    (hne : body ≠ []) (hbody : ∀ l ∈ body, l.buf.isSome) {contentLengthN : ℤ}
    {Q : Option RpcTask → Pool → Prop}
    (hQ : ∀ task p', List.Forall₂ Link.CopyOf body task.reqBufs →
      task.reqLength = contentLengthN → Q (some task) p') :
    wpStop E (receiveBody S stale body contentLengthN) Q p := by
  simp only [receiveBody, hne, if_false, wp_bind, taskCreate]
  apply wp_alloc
  · intro hnone
    simp only [wp_pure]
    exact hroom.resolve_left fun hS => hS _ _ hnone
  · intro a _ _ _
    simp only [wp_bind, wp_access, wp_pure, wp_deref_some]
    refine wp_taskSetBufs hroom hne hbody fun chain p₁ hchain => ?_
    exact hQ _ _ hchain rfl

end Spec

/-- A request ends in one way. -/
theorem Ends.unique {P : MessageParser} {pushed : Bool} {task : Option RpcTask}
    {fate fate' : Fate} (h : Ends P pushed task fate) (h' : Ends P pushed task fate') :
    fate = fate' := by
  cases h with
  | badRequest =>
    cases h'
    rfl
  | notPushed hpush =>
    cases h' with
    | notPushed => rfl
    | notParsed => rfl
    | invoked hpush' => simp [hpush] at hpush'
  | notParsed hpush hparse =>
    cases h' with
    | notPushed => rfl
    | notParsed => rfl
    | invoked _ hparse' => cases (hparse.unique hparse').1
  | invoked hpush hparse =>
    cases h' with
    | notPushed hpush' => simp [hpush] at hpush'
    | notParsed _ hparse' => cases (hparse.unique hparse').1
    | invoked _ hparse' =>
      obtain ⟨-, rfl, -⟩ := hparse.unique hparse'
      rfl

/-! ## What the parser obtains -/

/-- A first buffer in memory is all that is read when the stream ends after it. -/
theorem delivers_memory_iff {l : Link} {c : NgxBuf} {ls : List Link} (hl : l.buf = some c)
    (hc : c.InMemory) (hend : EndsBefore ls) {Q : List UInt8 → Prop} :
    (∃ cs r', Delivers (new (l :: ls)) cs r' ∧ Q (cs.flatMap Chunk.bytes)) ↔
      Q (c.content.take (CInt.int c.content.length).toNat) := by
  have hiff := fun cs r' =>
    (delivers_first rfl hl hc.inFile hend : Delivers (new (l :: ls)) cs r' ↔ _)
  simp only [hiff]
  split
  · next hempty =>
    simp [NgxBuf.content_eq_nil hempty]
  · rw [← deliver_take hc 0]
    constructor
    · rintro ⟨cs, r', ⟨rfl, rfl⟩, hQ⟩
      simpa using hQ
    · intro hQ
      exact ⟨_, _, ⟨rfl, rfl⟩, by simpa using hQ⟩

/-- The copy of a part in memory has its bytes. -/
theorem CopyOf.memory {b c : NgxBuf} {bytes : List UInt8} (h : CopyOf b c)
    (hb : (BodyPart.memory bytes).IsBuf b) (hsize : bytes.length < 2 ^ 63) :
    c.InMemory ∧ c.content = bytes := by
  obtain ⟨hmem, rfl⟩ := hb
  have hlen := hmem.length_content
  have hlt : b.last - b.pos < 2 ^ 64 := by omega
  exact ⟨h.inMemory hmem hlt, h.content_eq hmem hlt⟩

section Copy

variable {P : MessageParser} {pushed ok : Bool} {used : List UInt8} {body chain : List Link}
  {parts : List BodyPart}

theorem IsBody.isSome (h : IsBody body parts) : ∀ l ∈ body, l.buf.isSome := by
  rw [IsBody] at h
  induction h with
  | nil => simp
  | cons hl _ ih =>
    obtain ⟨b, hb, -⟩ := hl
    rw [List.forall_mem_cons]
    exact ⟨by simp [hb], ih⟩

theorem IsBody.eq_nil_iff (h : IsBody body parts) : body = [] ↔ parts = [] := by
  cases h <;> simp

/-- The copy of a body is a body. -/
theorem IsBody.copy (hbody : IsBody body parts) (hcopy : List.Forall₂ Link.CopyOf body chain)
    (hsize : (bodyBytes parts).length < 2 ^ 63) : IsBody chain parts := by
  rw [IsBody] at hbody
  induction hbody generalizing chain with
  | nil =>
    cases hcopy
    exact .nil
  | @cons src part srcs parts hpart _ ih =>
    obtain ⟨b, hb, hpart⟩ := hpart
    cases hcopy with
    | @cons _ l _ ls hl hls =>
      obtain ⟨b', c, hb', hc, hcopy⟩ := hl
      obtain rfl : b = b' := Option.some.inj (hb.symm.trans hb')
      simp only [bodyBytes, List.flatMap_cons, List.length_append] at hsize
      refine .cons ⟨c, hc, ?_⟩ (ih hls (by simp only [bodyBytes]; omega))
      cases part with
      | memory bytes => exact hcopy.memory hpart (by simp only [BodyPart.bytes] at hsize; omega)
      | file bytes => exact hcopy.inFile.trans hpart

/-- A part of a body that ends the stream. -/
theorem endsBefore_of_streamEnds {bytes : List UInt8} (hbody : IsBody chain parts)
    (hends : StreamEnds (.memory bytes :: parts)) : EndsBefore chain := by
  cases hbody with
  | nil => simp [EndsBefore]
  | @cons l part ls parts hpart hparts =>
    obtain ⟨b, hb, hpart⟩ := hpart
    cases part with
    | file bytes =>
      have hin : b.inFile = true := hpart
      simp [EndsBefore, hb, hin]
    | memory bytes => exact absurd hends id

/-- Without an end, the second buffer is in memory, too. -/
theorem exists_second {ls : List Link} {bytes : List UInt8} (hparts : IsBody ls parts)
    (hends : ¬StreamEnds (.memory bytes :: parts)) : ∃ l₂ ls' c₂ parts', ls = l₂ :: ls' ∧
      parts = .memory c₂.content :: parts' ∧ l₂.buf = some c₂ ∧ c₂.InMemory := by
  cases hparts with
  | nil => exact absurd trivial hends
  | @cons l₂ part₂ ls' parts' hpart₂ _ =>
    obtain ⟨c₂, hc₂, hpart₂⟩ := hpart₂
    cases part₂ with
    | file bytes₂ => exact absurd trivial hends
    | memory bytes₂ =>
      obtain ⟨hmem₂, rfl⟩ := hpart₂
      exact ⟨l₂, ls', c₂, parts', rfl, rfl, hc₂, hmem₂⟩

/-- What is read of a body to its end. -/
theorem delivers_body_iff (hbody : IsBody chain parts) (hne : parts ≠ [])
    {Q : List UInt8 → Prop} :
    (∃ cs r', Delivers (new chain) cs r' ∧ Q (cs.flatMap Chunk.bytes)) ↔
      StreamEnds parts ∧ Q (lead parts) := by
  cases hbody with
  | nil => contradiction
  | @cons l part ls parts hpart hparts =>
    obtain ⟨c, hc, hpart⟩ := hpart
    cases part with
    | file bytes =>
      -- the flag `in_file` ends the stream at once
      have hnil := fun cs r' => (delivers_nil (nextReturns_inFile rfl hc hpart) :
        Delivers (new (l :: ls)) cs r' ↔ _)
      simp [hnil, StreamEnds, lead]
    | memory bytes =>
      obtain ⟨hmem, rfl⟩ := hpart
      by_cases hends : StreamEnds (.memory c.content :: parts)
      · rw [delivers_memory_iff hc hmem (endsBefore_of_streamEnds hparts hends)]
        simp [hends, lead]
      · obtain ⟨l₂, ls, c₂, parts, rfl, rfl, hc₂, hmem₂⟩ := exists_second hparts hends
        -- the loop goes back to the second buffer for ever
        refine iff_of_false ?_ (fun h => hends h.1)
        rintro ⟨cs, r', hd, -⟩
        refine Endless.not_delivers (fun i hi => ?_) hd
        obtain rfl | rfl : i = 0 ∨ i = 1 := by omega
        · exact ⟨c, hc, hmem.inFile⟩
        · exact ⟨c₂, hc₂, hmem₂.inFile⟩

/-- A stream that ends has nothing behind its first buffer. -/
theorem front_eq_lead (h : StreamEnds parts) : front parts = lead parts := by
  match parts, h with
  | [], _ => rfl
  | [.memory bytes], _ => rfl
  | .memory bytes :: .file bytes₂ :: parts, _ => rfl
  | .file bytes :: parts, _ => rfl

/-- The verdict on a body whose stream ends. -/
theorem verdict_iff_of_streamEnds (h : StreamEnds parts) : Verdict P parts ok used ↔
    LeadSized parts ∧ ((∃ n, P.stop (lead parts) = some n ∧ ok = false ∧
        used = (lead parts).take n) ∨
      P.stop (lead parts) = none ∧ ok = P.accept (lead parts) ∧ used = lead parts) := by
  constructor
  · rintro ⟨hsized, hends⟩
    rw [front_eq_lead h] at hends
    exact ⟨hsized, hends.imp id fun hend => ⟨hend.1, hend.2.2⟩⟩
  · rintro ⟨hsized, hends⟩
    refine ⟨hsized, ?_⟩
    rw [front_eq_lead h]
    exact hends.imp id fun hend => ⟨hend.1, h, hend.2⟩

/-- A parse of a body has this verdict. -/
theorem parse_body_iff (hbody : IsBody chain parts) (hne : parts ≠ []) (ok : Bool)
    (used : List UInt8) :
    (∃ r', Parse P (new chain) [] ok used r') ↔ Verdict P parts ok used := by
  cases hbody with
  | nil => contradiction
  | @cons l part ls parts hpart hparts =>
    obtain ⟨c, hc, hpart⟩ := hpart
    cases part with
    | file bytes =>
      have hends : StreamEnds (.file bytes :: parts) := trivial
      rw [parse_ended_iff (nextReturns_inFile rfl hc hpart), verdict_iff_of_streamEnds hends]
      simp [LeadSized, lead, P.stop_nil]
    | memory bytes =>
      obtain ⟨hmem, rfl⟩ := hpart
      obtain ⟨r₁, hchain, hfirst⟩ := exists_parse_first (P := P) (r := new (l :: ls)) rfl hc hmem
      rw [hfirst]
      by_cases hends : StreamEnds (.memory c.content :: parts)
      · have hend := endsBefore_of_streamEnds hparts hends
        rw [parse_ended_iff (nextReturns_used hchain rfl hmem.inFile rfl hend),
          verdict_iff_of_streamEnds hends]
        rfl
      · obtain ⟨l₂, ls, c₂, parts, rfl, rfl, hc₂, hmem₂⟩ := exists_second hparts hends
        have hsecond : P.stop c.given = none → ((∃ r', Parse P r₁ c.given ok used r') ↔ _) :=
          exists_parse_second hchain rfl hmem.inFile rfl hc₂ hmem₂
        constructor
        · rintro ⟨hsized, ⟨n, hstop, rfl, rfl⟩ | ⟨hgo, hrest⟩⟩
          · refine ⟨hsized, Or.inl ⟨n, P.stop_append _ _ n hstop, rfl, ?_⟩⟩
            exact (List.take_append_of_le_length (P.stop_le _ n hstop)).symm
          · exact ⟨hsized, Or.inl ((hsecond hgo).mp hrest)⟩
        · rintro ⟨hsized, hstop | ⟨-, hend, -⟩⟩
          · refine ⟨hsized, ?_⟩
            cases hlead : P.stop c.given with
            | some m =>
              obtain ⟨n, hstop, rfl, rfl⟩ := hstop
              have hmore := P.stop_append _ c₂.given m hlead
              obtain rfl := Option.some.inj (hmore.symm.trans hstop)
              refine Or.inl ⟨m, rfl, rfl, ?_⟩
              exact List.take_append_of_le_length (P.stop_le _ m hlead)
            | none => exact Or.inr ⟨rfl, (hsecond hlead).mpr hstop⟩
          · exact absurd hend hends

/-- The end of a request whose body was copied. -/
theorem ends_faithful_iff {task : RpcTask} (hbody : IsBody body parts)
    (hcopy : List.Forall₂ Link.CopyOf body task.reqBufs) (hne : parts ≠ [])
    (hsize : (bodyBytes parts).length < 2 ^ 63)
    (hlen : task.reqLength = (bodyBytes parts).length) :
    (∃ fate, Ends P pushed (some task) fate ∧ fate.Faithful (bodyBytes parts)) ↔
      pushed = false ∨ NotCut P parts := by
  have hverdict := parse_body_iff (P := P) (hbody.copy hcopy hsize) hne
  constructor
  · rintro ⟨fate, hends, hfate⟩
    cases hends with
    | notPushed hpush => exact Or.inl hpush
    | notParsed hpush hparse =>
      obtain ⟨hsized, ⟨n, hstop, -⟩ | ⟨-, hends, haccept, -⟩⟩ := (hverdict _ _).mp ⟨_, hparse⟩
      · exact Or.inr ⟨hsized, Or.inl (by simp [hstop])⟩
      · exact Or.inr ⟨hsized, Or.inr ⟨hends, Or.inr haccept.symm⟩⟩
    | invoked hpush hparse =>
      obtain ⟨hsized, ⟨n, -, hok, -⟩ | ⟨-, hends, -, hused⟩⟩ := (hverdict _ _).mp ⟨_, hparse⟩
      · cases hok
      · exact Or.inr ⟨hsized, Or.inr ⟨hends, Or.inl (hused.symm.trans hfate.2)⟩⟩
  · rintro (hpush | ⟨hsized, hkept⟩)
    · exact ⟨_, .notPushed hpush, by simp [Fate.Faithful]⟩
    · cases hpush : pushed with
      | false => exact ⟨_, .notPushed rfl, by simp [Fate.Faithful]⟩
      | true =>
        cases hstop : P.stop (front parts) with
        | some n =>
          obtain ⟨r', hparse⟩ := (hverdict _ _).mpr ⟨hsized, Or.inl ⟨n, hstop, rfl, rfl⟩⟩
          exact ⟨_, .notParsed rfl hparse, by simp [Fate.Faithful]⟩
        | none =>
          obtain ⟨hends, hbytes⟩ := hkept.resolve_left (not_not_intro hstop)
          obtain ⟨r', hparse⟩ := (hverdict _ _).mpr ⟨hsized, Or.inr ⟨hstop, hends, rfl, rfl⟩⟩
          cases haccept : P.accept (lead parts) with
          | false =>
            rw [haccept] at hparse
            exact ⟨_, .notParsed rfl hparse, by simp [Fate.Faithful]⟩
          | true =>
            have hwhole : lead parts = bodyBytes parts := hbytes.resolve_right (by simp [haccept])
            rw [haccept] at hparse
            refine ⟨_, .invoked rfl hparse, ?_, hwhole⟩
            rw [hwhole, hlen]

/-- A body that is never shortened is one that the reader gives out whole or whose beginning
the parser rejects. -/
theorem NeverShortened.notCut (h : NeverShortened P pushed body (bodyBytes parts))
    (hbody : IsBody body parts) (hne : parts ≠ []) (hsize : (bodyBytes parts).length < 2 ^ 63) :
    pushed = false ∨ NotCut P parts := by
  have hroom := Slab.unlimited_unlimited 0
  have hcopied : wpStop (fun _ => False) (receiveBody (Slab.unlimited 0) (fun _ => (none, [])) body
      (bodyBytes parts).length) (fun task _ => ∃ t, task = some t ∧
        List.Forall₂ Link.CopyOf body t.reqBufs ∧ t.reqLength = (bodyBytes parts).length)
      ⟨∅, []⟩ :=
    wp_receiveBody (Or.inl hroom) (mt hbody.eq_nil_iff.mp hne) hbody.isSome
      fun task _ hcopy hlen => ⟨task, rfl, hcopy, hlen⟩
  obtain ⟨task, -, ⟨t, rfl, hcopy, hlen⟩, hfate⟩ := exists_of_wp hcopied (h _ _ _)
  exact (ends_faithful_iff hbody hcopy hne hsize hlen).mp hfate

/-- The bodies that are never shortened: a `NULL` body, one that is not pushed, and one that the
parser is given whole and to its end, or rejects. -/
theorem neverShortened_iff (hbody : IsBody body parts) (hsize : (bodyBytes parts).length < 2 ^ 63) :
    NeverShortened P pushed body (bodyBytes parts) ↔
      parts = [] ∨ pushed = false ∨ NotCut P parts := by
  by_cases hnil : parts = []
  · have hbodyNil := hbody.eq_nil_iff.mpr hnil
    refine iff_of_true (fun S stale p => ?_) (Or.inl hnil)
    simp only [receiveBody, hbodyNil, if_true, wp_pure]
    exact ⟨_, .badRequest, by simp [Fate.Faithful]⟩
  · constructor
    · exact fun h => Or.inr (h.notCut hbody hnil hsize)
    · intro hkept S stale p
      have hroom : S.Unlimited ∨ Stop.nullDereference = .nullDereference ∧ ¬S.Unlimited := by
        by_cases hS : S.Unlimited
        · exact Or.inl hS
        · exact Or.inr ⟨rfl, hS⟩
      refine wp_receiveBody hroom (mt hbody.eq_nil_iff.mp hnil) hbody.isSome
        fun task _ hcopy hlen => ?_
      exact (ends_faithful_iff hbody hcopy hnil hsize hlen).mpr (hkept.resolve_left hnil)

end Copy

/-- A parser of messages with an optional string: what it says of an empty message, and of
one whose string is `x`. -/
def parseString (bytes : List UInt8) : Bool := bytes = [] || bytes = [10, 1, 120]

theorem neverShortened_iff_one_buffer :
    NeverShortened (.atEnd parseString) true [⟨0, some (bufferOf [10, 1, 120])⟩]
        (bodyBytes [.memory [10, 1, 120]]) ↔
      [BodyPart.memory [10, 1, 120]] = [] ∨ true = false ∨
        NotCut (.atEnd parseString) [.memory [10, 1, 120]] :=
  neverShortened_iff
    (.cons ⟨_, rfl, ⟨rfl, by decide, by decide, by decide⟩, by decide⟩ .nil) (by decide)

/-- The buffer of a body in the temporary file. -/
def fileBuf : NgxBuf := { bufferOf [] with inFile := true }

/-- The method is invoked with an empty message instead of the body in the file. -/
theorem not_neverShortened_file : IsBody [⟨0, some fileBuf⟩] [.file [10, 1, 120]] ∧
    ¬NeverShortened (.atEnd parseString) true [⟨0, some fileBuf⟩]
      (bodyBytes [.file [10, 1, 120]]) := by
  have hbody : IsBody [⟨0, some fileBuf⟩] [.file [10, 1, 120]] := .cons ⟨_, rfl, rfl⟩ .nil
  refine ⟨hbody, fun h => ?_⟩
  obtain hpush | ⟨-, hstop | ⟨-, hwhole | hparse⟩⟩ := h.notCut hbody (by decide) (by decide)
  · cases hpush
  · exact hstop rfl
  · revert hwhole
    decide
  · revert hparse
    decide

end NgxRpc
