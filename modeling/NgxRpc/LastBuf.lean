import NgxRpc.WriterAgreement

/-!
# Where the chain of an answer ends

`ngx_http_output_filter` takes `last_buf` for the end of a response. `Next` sets the flag of
every buffer it allocates, and clears the flags of the links it walks over. The walk ends at
the link that was the last one before the call, so a link that is appended in this call
leaves two buffers with the flag.

## Main definitions

- `LastMarked` — the flag is set at the end of the chain and nowhere before

## Main results

- `lastMarked_runs` — the chain is marked right as long as no `Next` appends a link
-/

namespace NgxRpc
open SlabPool Transition

/-- `last_buf` of the buffer of a link. -/
def Link.lastBuf (l : Link) : Bool := l.buf.elim false NgxBuf.lastBuf

def lastFlags (chain : List Link) : List Bool := chain.map Link.lastBuf

@[simp] theorem lastFlags_append (ls ls' : List Link) :
    lastFlags (ls ++ ls') = lastFlags ls ++ lastFlags ls' := List.map_append

/-- Exactly one buffer has `last_buf`, and it is the buffer of the last link. -/
structure LastMarked (chain : List Link) : Prop where
  once : (lastFlags chain).count true = 1
  last : (lastFlags chain).getLast? = some true

theorem lastFlags_unmark (chain : List Link) :
    lastFlags (chain.map Link.unmark) = List.replicate chain.length false := by
  induction chain with
  | nil => rfl
  | cons l ls ih =>
    have hl : l.unmark.lastBuf = false := by
      cases h : l.buf with
      | none => simp [Link.lastBuf, Link.unmark, h]
      | some b => simp [Link.lastBuf, Link.unmark, h]
    show l.unmark.lastBuf :: lastFlags (ls.map Link.unmark) = _
    rw [hl, ih, List.length_cons, List.replicate_succ]

namespace NgxShmChainBufferWriter

variable {S : Slab} {p : Pool} {s t : Session NgxShmChainBufferWriter} {fill : ℕ → UInt8}

/-- `Next` appends a link to a chain that ends with this one. -/
def Appends (l : Link) : Prop := ∃ b ∈ l.buf, b.last = b.end_

/-! ## The flags after a call -/

theorem wp_newBuf_lastBuf {ptr ex : ℤ} :
    wpStop (fun _ => True) (newBuf S ptr ex) (fun r _ => r.1.lastBuf = true) p := by
  simp only [newBuf, wp_bind]
  apply wp_alloc
  · intro _
    trivial
  · intro a _ _ _
    simp only [wp_bind, wp_deref_some]
    apply wp_alloc
    · intro _
      rfl
    · intro _ _ _ _
      rfl

/-- The last link: it keeps its flag, or gets it with its first buffer, or is followed by a
new link that has it. -/
theorem wp_nextFrom_last {ex : ℤ} {l : Link} (hl : l.buf.isSome → l.lastBuf = true) :
    wpStop (fun _ => True) (nextFrom S ex [l]) (fun r _ =>
      (Appends l ∧ lastFlags r.1 = [true, true]) ∨ (¬Appends l ∧ lastFlags r.1 = [true])) p := by
  simp only [nextFrom, wp_bind, wp_access]
  cases hbuf : l.buf with
  | none =>
    simp only [wp_bind]
    refine wp_mono (fun r _ hr => ?_) wp_newBuf_lastBuf
    refine Or.inr ⟨?_, congrArg (fun x => [x]) hr⟩
    rintro ⟨b, hb, -⟩
    rw [hbuf] at hb
    cases hb
  | some b =>
    have hmark : l.lastBuf = true := hl (by rw [hbuf, Option.isSome_some])
    simp only [wp_bind, wp_access]
    split
    · next hfull =>
      simp only [wp_bind]
      apply wp_alloc
      · intro _
        trivial
      · intro next _ _ _
        simp only [wp_bind, wp_deref_some, wp_access]
        refine wp_mono (fun r _ hr => ?_) wp_newBuf_lastBuf
        refine Or.inl ⟨⟨b, hbuf, hfull⟩, ?_⟩
        show [l.lastBuf, r.1.lastBuf] = _
        rw [hmark, hr]
    · next hrest =>
      rw [wp_pure]
      refine Or.inr ⟨?_, ?_⟩
      · rintro ⟨c, hc, hfull⟩
        obtain rfl : b = c := Option.some.inj (hbuf.symm.trans hc)
        exact hrest hfull
      · rw [Link.lastBuf, hbuf] at hmark
        exact congrArg (fun x => [x]) hmark

/-- The copy of the caller changes no flag. -/
theorem wp_storeLast_flags {data : ℤ} {bytes : List UInt8} {chain : List Link} :
    wpStop (fun _ => True) (storeLast data bytes chain)
      (fun chain' _ => lastFlags chain' = lastFlags chain) p := by
  induction chain generalizing p with
  | nil => trivial
  | cons l ls ih =>
    cases ls with
    | nil =>
      simp only [storeLast, wp_bind]
      cases hbuf : l.buf with
      | none => trivial
      | some b =>
        rw [wp_deref_some]
        split
        · rfl
        · split
          · trivial
          · simp only [wp_bind, wp_access, wp_pure]
            simp [lastFlags, Link.lastBuf, NgxBuf.store, hbuf]
    | cons k ks =>
      simp only [storeLast, wp_bind]
      refine wp_mono (fun chain' _ h => ?_) ih
      exact congrArg (l.lastBuf :: ·) h

/-- `Next` and the copy of its caller. -/
theorem sessionNext_flags {init : List Link} {l : Link} (hchain : s.writer.chain = init ++ [l])
    (hl : l.buf.isSome → l.lastBuf = true) (h : (stream S).sessionNext s fill = .ok t) :
    (Appends l ∧ lastFlags t.writer.chain = List.replicate init.length false ++ [true, true]) ∨
      ¬Appends l ∧ lastFlags t.writer.chain = List.replicate init.length false ++ [true] := by
  apply outcome_ok (E := fun _ _ => True)
    (Q := fun t => (Appends l ∧ _) ∨ (¬Appends l ∧ _)) h
  simp only [OutputStream.fillNext, stream, NgxShmChainBufferWriter.next, store, hchain, wp_bind]
  apply wp_nextFrom_walk (Or.inr trivial)
  intro p
  refine wp_mono (fun r _ hr => ?_) (wp_nextFrom_last hl)
  rw [wp_pure, wp_bind, wp_bind]
  refine wp_mono (fun chain' _ hstore => ?_) wp_storeLast_flags
  have hfront : lastFlags (init.map Link.unmark ++ r.1) =
      List.replicate init.length false ++ lastFlags r.1 := by
    rw [lastFlags_append, lastFlags_unmark]
  show (Appends l ∧ lastFlags chain' = _) ∨ (¬Appends l ∧ lastFlags chain' = _)
  rw [hstore.trans hfront]
  obtain ⟨happend, hflags⟩ | ⟨hkeep, hflags⟩ := hr
  · exact Or.inl ⟨happend, by rw [hflags]⟩
  · exact Or.inr ⟨hkeep, by rw [hflags]⟩

/-- `BackUp` changes no flag. -/
theorem sessionBackUp_flags {count : ℤ} (h : (stream S).sessionBackUp s count = .ok t) :
    lastFlags t.writer.chain = lastFlags s.writer.chain := by
  apply outcome_ok (E := fun _ _ => True)
    (Q := fun t => lastFlags t.writer.chain = lastFlags s.writer.chain) h
  simp only [stream, backUp]
  cases hchain : s.writer.chain with
  | nil => trivial
  | cons l ls =>
    simp only [wp_bind, wp_access]
    cases hbuf : l.buf with
    | none => trivial
    | some b =>
      simp only [wp_deref_some, wp_bind, wp_access, wp_assert, wp_pure]
      split
      · split
        · simp [lastFlags, Link.lastBuf, hbuf]
        · trivial
      · trivial

/-! ## Runs -/

/-- The chain ends with a marked buffer. -/
def EndMarked (s : Except Stop (Session NgxShmChainBufferWriter)) : Prop :=
  ∀ t, s = .ok t → (lastFlags t.writer.chain).getLast? = some true

theorem EndMarked.last (h : EndMarked (.ok s)) :
    ∃ init l, s.writer.chain = init ++ [l] ∧ l.lastBuf = true := by
  have hlast := h s rfl
  obtain ⟨l, hl, hmark⟩ : ∃ l, s.writer.chain.getLast? = some l ∧ l.lastBuf = true := by
    rw [lastFlags, List.getLast?_map] at hlast
    exact Option.map_eq_some_iff.mp hlast
  obtain ⟨init, hinit⟩ := List.getLast?_eq_some_iff.mp hl
  exact ⟨init, l, hinit, hmark⟩

/-- A call leaves the last link marked. -/
theorem EndMarked.step {s s' : Except Stop (Session NgxShmChainBufferWriter)} {c : StreamCall}
    (h : EndMarked s) (hstep : (stream S).step s c = some s') : EndMarked s' := by
  rintro t rfl
  obtain ⟨u, rfl, ⟨fill, -, hs⟩ | ⟨count, -, -, hs⟩⟩ := OutputStream.step_cases hstep
  · obtain ⟨init, l, hchain, hl⟩ := h.last
    obtain ⟨-, hflags⟩ | ⟨-, hflags⟩ := sessionNext_flags hchain (fun _ => hl) hs.symm
    · rw [hflags, List.getLast?_append]
      rfl
    · rw [hflags, List.getLast?_append]
      rfl
  · rw [sessionBackUp_flags hs.symm]
    exact h u rfl

/-- No `Next` is made when the last buffer of the chain is full. -/
def NextResumes (s : Except Stop (Session NgxShmChainBufferWriter)) (c : StreamCall) : Prop :=
  ∀ t fill, s = .ok t → c = .next fill → ∀ l ∈ t.writer.chain.getLast?, ¬Appends l

/-- After `Next` the chain is marked right exactly when it has not grown. -/
theorem EndMarked.lastMarked_iff (h : EndMarked (.ok s))
    (hstep : (stream S).step (.ok s) (.next fill) = some (.ok t)) :
    LastMarked t.writer.chain ↔ NextResumes (.ok s) (.next fill) := by
  obtain ⟨init, l, hchain, hl⟩ := h.last
  have hlast : s.writer.chain.getLast? = some l := by rw [hchain, List.getLast?_append]; rfl
  have hresumes : NextResumes (.ok s) (.next fill) ↔ ¬Appends l := by
    constructor
    · intro hok
      exact hok s fill rfl rfl l hlast
    · rintro hl' u fill' he - k hk
      cases he
      rw [hlast] at hk
      cases hk
      exact hl'
  rw [hresumes]
  obtain ⟨happend, hflags⟩ | ⟨hkeep, hflags⟩ :=
    sessionNext_flags hchain (fun _ => hl) (Option.some.inj hstep)
  · refine iff_of_false ?_ (not_not_intro happend)
    intro hmarked
    have honce := hmarked.once
    rw [hflags, List.count_append, List.count_replicate] at honce
    cases honce
  · refine iff_of_true ⟨?_, ?_⟩ hkeep
    · rw [hflags, List.count_append, List.count_replicate]
      rfl
    · rw [hflags, List.getLast?_append]
      rfl

/-- The first call of a session leaves a marked buffer. -/
theorem endMarked_start {ch ex : ℤ} {pool : Pool}
    {s : Except Stop (Session NgxShmChainBufferWriter)}
    (h : (stream S).step (OutputStream.start (new ch ex) pool) (.next fill) = some s) :
    EndMarked s ∧ ∀ t, s = .ok t → LastMarked t.writer.chain := by
  have hflags : ∀ t, s = .ok t → lastFlags t.writer.chain = [true] := by
    rintro t rfl
    have hchain : (new ch ex).chain = [] ++ [⟨ch, none⟩] := rfl
    obtain ⟨⟨b, hb, -⟩, -⟩ | ⟨-, hflags⟩ :=
      sessionNext_flags hchain (by simp) (Option.some.inj h)
    · cases hb
    · exact hflags
  refine ⟨fun t ht => ?_, fun t ht => ⟨?_, ?_⟩⟩
  · rw [hflags t ht]
    rfl
  · rw [hflags t ht]
    rfl
  · rw [hflags t ht]
    rfl

/-- After the first `Next` the chain stays marked right in every run in which no `Next`
appends a link, and a `Next` that appends one leaves it marked wrong. -/
theorem lastMarked_runs {ch ex : ℤ} {pool : Pool}
    {s₁ : Except Stop (Session NgxShmChainBufferWriter)}
    (h₁ : (stream S).step (OutputStream.start (new ch ex) pool) (.next fill) = some s₁) :
    (∀ s, RunsTo (stream S).step NextResumes s₁ (.ok s) → LastMarked s.writer.chain) ∧
      ∀ s fill t, Reachable (stream S).step s₁ s →
        (stream S).step s (.next fill) = some (.ok t) →
          (LastMarked t.writer.chain ↔ NextResumes s (.next fill)) := by
  obtain ⟨hend, hmarked⟩ := endMarked_start h₁
  constructor
  · intro s h
    have hinv : EndMarked (.ok s) ∧
        ∀ t, (.ok s : Except Stop (Session NgxShmChainBufferWriter)) = .ok t →
          LastMarked t.writer.chain := by
      refine h.invariant (fun s => EndMarked s ∧ ∀ t, s = .ok t → LastMarked t.writer.chain)
        ⟨hend, hmarked⟩ ?_
      rintro s c s' - ⟨hs, hmark⟩ hok hstep
      refine ⟨hs.step hstep, ?_⟩
      rintro t rfl
      obtain ⟨u, rfl, ⟨fill, rfl, -⟩ | ⟨count, -, -, hback⟩⟩ := OutputStream.step_cases hstep
      · exact (hs.lastMarked_iff hstep).mpr hok
      · obtain ⟨honce, hlast⟩ := hmark u rfl
        have hflags := sessionBackUp_flags hback.symm
        exact ⟨by rw [hflags, honce], by rw [hflags, hlast]⟩
    exact hinv.2 s rfl
  · intro s fill t h hstep
    have hs : EndMarked s := h.invariant EndMarked hend fun _ _ _ _ hs _ hstep => hs.step hstep
    obtain ⟨u, rfl, -⟩ := OutputStream.step_cases hstep
    exact hs.lastMarked_iff hstep

instance : DecidablePred Appends := fun l =>
  inferInstanceAs (Decidable (∃ b ∈ l.buf, b.last = b.end_))

/-- An executable form of `NextResumes`. -/
def nextResumes : Except Stop (Session NgxShmChainBufferWriter) → StreamCall → Bool
  | .ok s, .next _ => decide (∀ l ∈ s.writer.chain.getLast?, ¬Appends l)
  | _, _ => true

theorem nextResumes_sound (s : Except Stop (Session NgxShmChainBufferWriter)) (c : StreamCall)
    (h : nextResumes s c = true) : NextResumes s c := by
  rintro t fill rfl rfl
  exact of_decide_eq_true h

/-- The writer after its first `Next`, with an allocator that never fails. -/
def firstRegion : Except Stop (Session NgxShmChainBufferWriter) :=
  (stream (Slab.unlimited 0)).sessionNext ⟨new 1 1, ⟨∅, []⟩, none, []⟩ fun _ => 1

/-- Five bytes of the first region are given back and asked for again. -/
theorem lastMarked_runs_backUp :
    ∃ s, RunsTo (stream (Slab.unlimited 0)).step NextResumes firstRegion (.ok s) ∧
      LastMarked s.writer.chain := by
  obtain ⟨s | s, hs, he⟩ := Option.map_eq_some_iff.mp
    (show (run (stream (Slab.unlimited 0)).step nextResumes firstRegion
      [.backUp 5, .next fun _ => 2]).map Except.isOk = some true by
      decide +kernel)
  · cases he
  · have hrun := runsTo_of_run nextResumes_sound hs
    exact ⟨s, hrun, (lastMarked_runs rfl).1 s hrun⟩

/-- The flags of the chain. -/
def sessionFlags : Except Stop (Session NgxShmChainBufferWriter) → Option (List Bool)
  | .ok s => some (lastFlags s.writer.chain)
  | .error _ => none

/-- After two calls of `Next` both buffers have `last_buf`. -/
theorem not_lastMarked_second :
    ∃ s, Reachable (stream (Slab.unlimited 0)).step firstRegion (.ok s) ∧
      ¬LastMarked s.writer.chain := by
  obtain ⟨s | s, hs, he⟩ := Option.map_eq_some_iff.mp
    (show (exec (stream (Slab.unlimited 0)).step firstRegion [.next fun _ => 2]).map sessionFlags =
      some (some [true, true]) by
      decide +kernel)
  · cases he
  · refine ⟨s, reachable_of_exec hs, fun hmarked => ?_⟩
    have honce := hmarked.once
    rw [Option.some.inj he] at honce
    cases honce

end NgxShmChainBufferWriter

end NgxRpc
