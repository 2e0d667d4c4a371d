import NgxRpc.WriterAgreement

/-!
# The counters of the writers

`totaly` counts the bytes of all regions handed out, the whole last one included, and the
region that is allocated with `extends` at `k` has `default_size * k` bytes. Both are kept in
32 bits. The regions grow, so `totaly` leaves the range of `int` while what the caller keeps
is still within it: with 1023 regions full, the next one makes it negative.

## Main definitions

- `Counters` — what the calls of a stream do to its counters
- `Counters.Exact` — `totaly` is the number of bytes kept, and the size of the region in hand
  is the product it was computed from
- `Counters.Fits` — the next region can be counted

## Main results

- `Counters.Counted.exact_next_iff` — `Next` keeps the counters exact if and only if the region fits
- `Counters.exact_of_regions` — the first 1023 regions of a writer that starts with `extends`
  at 1 fit
- `writers_exact` — the counters of both writers are exact in every run whose regions fit
-/

namespace NgxRpc
open SlabPool Transition
open NgxShmChainBufferWriter (defaultSize regionSize)

/-- What the calls of a stream do to its counters, when they do not stop. -/
structure Counters {W : Type} (O : OutputStream W) where
  /-- `extends` -/
  extends_ : W → ℤ
  /-- the last buffer, if there is one, is full -/
  Full : W → Prop
  /-- `Next` counts the region; it allocates one when the last buffer is full -/
  next : ∀ w fill p, wpStop (fun _ => True) (O.fillNext w fill) (fun r _ =>
    O.byteCount r.1 = CInt.int (O.byteCount w + r.2.size) ∧
      (Full w → r.2.size = regionSize (extends_ w) ∧
        extends_ r.1 = CInt.unsigned (extends_ w + 1))) p
  backUp : ∀ w count p, wpStop (fun _ => True) (O.backUp w count) (fun w' _ =>
    O.byteCount w' = CInt.int (O.byteCount w - count) ∧ extends_ w' = extends_ w) p

namespace Counters

variable {W : Type} {O : OutputStream W} {C : Counters O} {s s' : Session W}

/-- `totaly` is the number of bytes handed out less those backed up, and the region in hand
has the size `default_size * extends` that `Next` computed, a positive number. -/
structure Exact (C : Counters O) (s : Session W) : Prop where
  totaly : O.byteCount s.writer = s.kept.length
  size : ∀ size ∈ s.inHand, 0 < size ∧ size = defaultSize * (C.extends_ s.writer - 1)

/-- The bytes kept and a whole region more can be counted. -/
structure Fits (C : Counters O) (s : Session W) : Prop where
  pos : 0 < C.extends_ s.writer
  total : s.kept.length + defaultSize * C.extends_ s.writer < 2 ^ 31

/-- A region is asked for only when the last one is full, and `P` holds there. -/
def Asks (C : Counters O) (P : Session W → Prop) : Except Stop (Session W) → StreamCall → Prop
  | .ok s, .next _ => C.Full s.writer ∧ P s
  | _, _ => True

instance (s : Session W) : Decidable (C.Fits s) :=
  decidable_of_iff (0 < C.extends_ s.writer ∧
      s.kept.length + defaultSize * C.extends_ s.writer < 2 ^ 31)
    ⟨fun h => ⟨h.1, h.2⟩, fun h => ⟨h.pos, h.total⟩⟩

instance {P : Session W → Prop} [DecidablePred C.Full] [DecidablePred P] :
    ∀ s c, Decidable (C.Asks P s c)
  | .ok s, .next _ => inferInstanceAs (Decidable (C.Full s.writer ∧ P s))
  | .ok _, .backUp _ => isTrue trivial
  | .error _, _ => isTrue trivial

/-- The state between two calls, with what the next one relies on. -/
structure Counted (C : Counters O) (s : Session W) : Prop extends Exact C s where
  small : s.kept.length < 2 ^ 31
  extends_nonneg : 0 ≤ C.extends_ s.writer
  extends_lt : C.extends_ s.writer < 2 ^ 32
  inHand_le : ∀ size ∈ s.inHand, size ≤ s.kept.length

/-! ## One call -/

/-- The size of a region is the product when that is in the range of `int`. -/
theorem regionSize_of_lt {ex : ℤ} (h0 : 0 ≤ ex) (hlt : defaultSize * ex < 2 ^ 31) :
    regionSize ex = defaultSize * ex := by
  simp only [defaultSize] at hlt
  have hunsigned : CInt.unsigned (defaultSize * ex) = defaultSize * ex := by
    apply CInt.unsigned_of_range
    · simp only [defaultSize]
      omega
    · simp only [defaultSize]
      omega
  rw [regionSize, hunsigned]
  apply CInt.int_of_range
  · simp only [defaultSize]
    omega
  · exact hlt

/-- What `Next` leaves behind when the last buffer was full. -/
theorem sessionNext_full {fill : ℕ → UInt8} (hfull : C.Full s.writer)
    (h : O.sessionNext s fill = .ok s') :
    O.byteCount s'.writer = CInt.int (O.byteCount s.writer + regionSize (C.extends_ s.writer)) ∧
      C.extends_ s'.writer = CInt.unsigned (C.extends_ s.writer + 1) ∧
      s'.inHand = some (regionSize (C.extends_ s.writer)) ∧
      s'.kept = s.kept ++ filled (regionSize (C.extends_ s.writer)) fill := by
  apply outcome_ok (E := fun _ _ => True) (Q := fun s' =>
    O.byteCount s'.writer = CInt.int (O.byteCount s.writer + regionSize (C.extends_ s.writer)) ∧
      C.extends_ s'.writer = CInt.unsigned (C.extends_ s.writer + 1) ∧
      s'.inHand = some (regionSize (C.extends_ s.writer)) ∧
      s'.kept = s.kept ++ filled (regionSize (C.extends_ s.writer)) fill) h
  refine wp_mono ?_ (C.next s.writer fill s.pool)
  rintro ⟨w, data, size⟩ p' ⟨hcount, halloc⟩
  obtain ⟨hsize, hextends⟩ := halloc hfull
  obtain rfl : size = regionSize (C.extends_ s.writer) := hsize
  exact ⟨hcount, hextends, rfl, rfl⟩

/-- What `BackUp` leaves behind. -/
theorem sessionBackUp_ok {count : ℤ} (h : O.sessionBackUp s count = .ok s') :
    O.byteCount s'.writer = CInt.int (O.byteCount s.writer - count) ∧
      C.extends_ s'.writer = C.extends_ s.writer ∧ s'.inHand = none ∧
      s'.kept = s.kept.take (s.kept.length - count.toNat) := by
  apply outcome_ok (E := fun _ _ => True) (Q := fun s' =>
    O.byteCount s'.writer = CInt.int (O.byteCount s.writer - count) ∧
      C.extends_ s'.writer = C.extends_ s.writer ∧ s'.inHand = none ∧
      s'.kept = s.kept.take (s.kept.length - count.toNat)) h
  refine wp_mono ?_ (C.backUp s.writer count s.pool)
  rintro w p' ⟨hcount, hextends⟩
  exact ⟨hcount, hextends, rfl, rfl⟩

/-- A region that fits is counted. -/
theorem Counted.next (h : C.Counted s) (hfull : C.Full s.writer) (hfits : C.Fits s)
    {fill : ℕ → UInt8} (hs : O.sessionNext s fill = .ok s') :
    C.Counted s' ∧ C.extends_ s'.writer = C.extends_ s.writer + 1 ∧
      (s'.kept.length : ℤ) = s.kept.length + defaultSize * C.extends_ s.writer := by
  obtain ⟨hcount, hextends, hinHand, hkept⟩ := sessionNext_full hfull hs
  have hpos := hfits.pos
  have htotal := hfits.total
  simp only [defaultSize] at htotal ⊢
  have hsize : regionSize (C.extends_ s.writer) = 4096 * C.extends_ s.writer := by
    apply regionSize_of_lt hpos.le
    simp only [defaultSize]
    omega
  have hnext : CInt.unsigned (C.extends_ s.writer + 1) = C.extends_ s.writer + 1 :=
    CInt.unsigned_of_range (by omega) (by omega)
  have hlen : (s'.kept.length : ℤ) = s.kept.length + 4096 * C.extends_ s.writer := by
    rw [hkept, List.length_append, length_filled, hsize]
    omega
  have hcount' : O.byteCount s'.writer = s.kept.length + 4096 * C.extends_ s.writer := by
    rw [hcount, h.totaly, hsize]
    exact CInt.int_of_range (by omega) htotal
  refine ⟨⟨⟨by omega, ?_⟩, by omega, by omega, by omega, ?_⟩, by omega, hlen⟩
  · intro size hmem
    rw [hinHand] at hmem
    obtain rfl : regionSize (C.extends_ s.writer) = size := Option.some.inj hmem
    simp only [defaultSize]
    omega
  · intro size hmem
    rw [hinHand] at hmem
    obtain rfl : regionSize (C.extends_ s.writer) = size := Option.some.inj hmem
    omega

/-- From exact counters, `Next` on a full last buffer leaves exact counters if and only if the
region fits. -/
theorem Counted.exact_next_iff (h : C.Counted s) (hfull : C.Full s.writer) {fill : ℕ → UInt8}
    (hs : O.sessionNext s fill = .ok s') : C.Exact s' ↔ C.Fits s := by
  refine ⟨fun hexact => ?_, fun hfits => (h.next hfull hfits hs).1.toExact⟩
  obtain ⟨hcount, hextends, hinHand, hkept⟩ := sessionNext_full hfull hs
  obtain ⟨hpos, hsize⟩ := hexact.size _ hinHand
  have hlen : s'.kept.length = s.kept.length + (regionSize (C.extends_ s.writer)).toNat := by
    rw [hkept, List.length_append, length_filled]
  have hlt : O.byteCount s'.writer < 2 ^ 31 := by
    rw [hcount]
    exact CInt.int_lt _
  rw [hexact.totaly, hlen] at hlt
  rw [hextends] at hsize
  have h0 := h.extends_nonneg
  have hmax := h.extends_lt
  -- with `extends` at its maximum the next value is 0, and the size would be negative
  have hnext : CInt.unsigned (C.extends_ s.writer + 1) = C.extends_ s.writer + 1 := by
    apply CInt.unsigned_of_range
    · omega
    · by_contra hwrap
      have hzero : C.extends_ s.writer + 1 = 2 ^ 32 := by omega
      rw [hzero, show CInt.unsigned (2 ^ 32) = 0 from rfl] at hsize
      simp only [defaultSize] at hsize
      omega
  rw [hnext] at hsize
  simp only [defaultSize] at hsize
  refine ⟨by omega, ?_⟩
  simp only [defaultSize]
  omega

/-- An allowed `BackUp` is counted. -/
theorem Counted.backUp (h : C.Counted s) {count : ℤ} (hmay : OutputStream.MayBackUp s count)
    (hs : O.sessionBackUp s count = .ok s') : C.Counted s' := by
  obtain ⟨h0, size, hsize, hle⟩ := hmay
  obtain ⟨hcount, hextends, hinHand, hkept⟩ := sessionBackUp_ok (C := C) hs
  have hkeep := h.inHand_le size hsize
  have hsmall := h.small
  have hlen : (s'.kept.length : ℤ) = s.kept.length - count := by
    rw [hkept, List.length_take]
    omega
  have hcount' : O.byteCount s'.writer = s.kept.length - count := by
    rw [hcount, h.totaly]
    exact CInt.int_of_range (by omega) (by omega)
  refine ⟨⟨by omega, by simp [hinHand]⟩, by omega, ?_, ?_, by simp [hinHand]⟩
  · rw [hextends]
    exact h.extends_nonneg
  · rw [hextends]
    exact h.extends_lt

/-! ## Runs -/

/-- The state of a new writer. -/
theorem counted_start {w : W} {pool : Pool} (htotaly : O.byteCount w = 0)
    (h0 : 0 ≤ C.extends_ w) (hlt : C.extends_ w < 2 ^ 32) : C.Counted ⟨w, pool, none, []⟩ := by
  refine ⟨⟨by simpa using htotaly, ?_⟩, by simp, h0, hlt, ?_⟩
  · intro size hsize
    cases hsize
  · intro size hsize
    cases hsize

/-- Every run whose regions fit is counted, as long as it does not stop. -/
theorem counted_of_runsTo {w : W} {pool : Pool} (h0 : C.Counted ⟨w, pool, none, []⟩)
    {r : Except Stop (Session W)}
    (h : RunsTo O.step (C.Asks C.Fits) (OutputStream.start w pool) r) :
    ∀ s, r = .ok s → C.Counted s := by
  apply h.invariant (fun r => ∀ s, r = .ok s → C.Counted s)
  · intro s hs
    cases hs
    exact h0
  · rintro r c r' - hinv hok hstep s rfl
    obtain ⟨t, rfl, hcase⟩ := OutputStream.step_cases hstep
    obtain ⟨fill, rfl, hs⟩ | ⟨count, rfl, hmay, hs⟩ := hcase
    · obtain ⟨hfull, hfits⟩ := hok
      exact ((hinv t rfl).next hfull hfits hs.symm).1
    · exact (hinv t rfl).backUp hmay hs.symm

/-- From `extends` at 1, regions number 1 to 1023 always fit: the ones before region number `k`
have at most `default_size * (1 + … + (k - 1))` bytes. -/
theorem exact_of_regions {w : W} {pool : Pool} (h0 : C.Counted ⟨w, pool, none, []⟩)
    (hone : C.extends_ w = 1) {r : Except Stop (Session W)}
    (h : RunsTo O.step (C.Asks fun s => C.extends_ s.writer ≤ 1023) (OutputStream.start w pool) r) :
    ∀ s, r = .ok s → C.Exact s := by
  have hinv : ∀ s, r = .ok s → C.Counted s ∧ ∃ k : ℕ, C.extends_ s.writer = k + 1 ∧
      s.kept.length ≤ 2048 * (k * (k + 1)) := by
    apply h.invariant (fun r => ∀ s, r = .ok s → C.Counted s ∧ ∃ k : ℕ,
      C.extends_ s.writer = k + 1 ∧ s.kept.length ≤ 2048 * (k * (k + 1)))
    · intro s hs
      cases hs
      exact ⟨h0, 0, by simpa using hone, by simp⟩
    · rintro r c r' - hinv hok hstep s rfl
      obtain ⟨t, rfl, hcase⟩ := OutputStream.step_cases hstep
      obtain ⟨hcount, k, hextends, hlen⟩ := hinv t rfl
      obtain ⟨fill, rfl, hs⟩ | ⟨count, rfl, hmay, hs⟩ := hcase
      · obtain ⟨hfull, hk⟩ := hok
        have hle : k * (k + 1) ≤ 1022 * 1023 := Nat.mul_le_mul (by omega) (by omega)
        have hfits : C.Fits t := by
          refine ⟨by omega, ?_⟩
          simp only [defaultSize]
          omega
        obtain ⟨hcount', hextends', hlen'⟩ := hcount.next hfull hfits hs.symm
        have hsum : 2048 * ((k + 1) * (k + 1 + 1)) = 2048 * (k * (k + 1)) + 4096 * (k + 1) := by
          ring
        simp only [defaultSize] at hlen'
        exact ⟨hcount', k + 1, by omega, by omega⟩
      · obtain ⟨-, hextends', -, hkept⟩ := sessionBackUp_ok (C := C) hs.symm
        refine ⟨hcount.backUp hmay hs.symm, k, by omega, ?_⟩
        rw [hkept, List.length_take]
        omega
  intro s hs
  exact (hinv s hs).1.toExact

/-- The calls executed, if their regions fit. -/
def runFitting (C : Counters O) [DecidablePred C.Full] (w : W) (pool : Pool)
    (calls : List StreamCall) : Option (Session W) :=
  (run O.step (fun s c => decide (C.Asks C.Fits s c)) (OutputStream.start w pool) calls).bind
    Except.toOption

theorem runsTo_of_runFitting [DecidablePred C.Full] {w : W} {pool : Pool}
    {calls : List StreamCall} (h : C.runFitting w pool calls = some s) :
    RunsTo O.step (C.Asks C.Fits) (OutputStream.start w pool) (.ok s) := by
  obtain ⟨r, hr, hs⟩ := Option.bind_eq_some_iff.mp h
  cases r with
  | error e => cases hs
  | ok t =>
    cases hs
    exact runsTo_of_run (fun _ _ => of_decide_eq_true) hr

/-! ## Filling regions up to the limit -/

/-- The states `L` have a full last buffer, and `Next` leads from one to another. -/
structure Grows (C : Counters O) (L : W → Prop) : Prop where
  full : ∀ w, L w → C.Full w
  next : ∀ (s : Session W) fill, L s.writer →
    ∃ s', O.sessionNext s fill = .ok s' ∧ L s'.writer

/-- With `k` regions filled there are `default_size * (1 + … + k)` bytes. -/
theorem Grows.filled {L : W → Prop} (hL : C.Grows L) {w : W} {pool : Pool} (hw : L w)
    (hcounted : C.Counted ⟨w, pool, none, []⟩) (hone : C.extends_ w = 1) {k : ℕ} (hk : k ≤ 1023) :
    ∃ s, RunsTo O.step (C.Asks fun s => s.kept.length < 2 ^ 31) (OutputStream.start w pool)
      (.ok s) ∧ L s.writer ∧ C.Counted s ∧ C.extends_ s.writer = k + 1 ∧
        s.kept.length = 2048 * (k * (k + 1)) := by
  induction k with
  | zero => exact ⟨_, .start, hw, hcounted, by simpa using hone, rfl⟩
  | succ k ih =>
    obtain ⟨s, hrun, hs, hcount, hextends, hlen⟩ := ih (by omega)
    have hle : k * (k + 1) ≤ 1022 * 1023 := Nat.mul_le_mul (by omega) (by omega)
    have hfits : C.Fits s := by
      refine ⟨by omega, ?_⟩
      simp only [defaultSize]
      omega
    obtain ⟨s', hs', hL'⟩ := hL.next s (fun _ => 0) hs
    obtain ⟨hcount', hextends', hlen'⟩ := hcount.next (hL.full _ hs) hfits hs'
    refine ⟨s', .next (a := .next fun _ => 0) hrun ⟨hL.full _ hs, hcount.small⟩
      (congrArg some hs'), hL', hcount', ?_, ?_⟩
    · rw [hextends', hextends]
      push_cast
      ring
    · have hsum : 2048 * ((k + 1) * (k + 1 + 1)) = 2048 * (k * (k + 1)) + 4096 * (k + 1) := by
        ring
      simp only [defaultSize] at hlen'
      omega

/-- The region number 1024 makes `totaly` negative. -/
theorem Grows.overflows {L : W → Prop} (hL : C.Grows L) {w : W} {pool : Pool} (hw : L w)
    (hcounted : C.Counted ⟨w, pool, none, []⟩) (hone : C.extends_ w = 1) :
    ∃ s, RunsTo O.step (C.Asks fun s => s.kept.length < 2 ^ 31) (OutputStream.start w pool)
      (.ok s) ∧ s.inHand = some (4096 * 1024) ∧ O.byteCount s.writer = 2149580800 - 2 ^ 32 := by
  obtain ⟨s, hrun, hs, hcount, hextends, hlen⟩ := hL.filled hw hcounted hone le_rfl
  obtain ⟨s', hs', -⟩ := hL.next s (fun _ => 0) hs
  refine ⟨s', .next (a := .next fun _ => 0) hrun ⟨hL.full _ hs, hcount.small⟩
    (congrArg some hs'), ?_⟩
  obtain ⟨htotaly, -, hinHand, -⟩ := sessionNext_full (hL.full _ hs) hs'
  have hsize : regionSize (C.extends_ s.writer) = 4096 * 1024 := by
    rw [hextends]
    rfl
  rw [hsize] at htotaly hinHand
  refine ⟨hinHand, ?_⟩
  rw [htotaly, hcount.totaly, hlen]
  rfl

theorem not_exact_of_neg (h : O.byteCount s.writer < 0) : ¬C.Exact s := by
  intro hexact
  have htotaly := hexact.totaly
  omega

end Counters

/-! ## The two writers -/

/-- A buffer that is full in the view is full. -/
theorem Link.HasView.full {l : Link} {tail : Option TailView} (h : l.HasView tail)
    (hfull : ∀ t ∈ tail, t.last = t.end_) : ∀ b ∈ l.buf, b.last = b.end_ := by
  intro b hb
  cases tail with
  | none =>
    rw [show l.buf = none from h] at hb
    cases hb
  | some t =>
    obtain ⟨c, hc, hct⟩ := h
    obtain rfl : b = c := Option.some.inj (Eq.symm hb |>.trans hc)
    rw [hct.last, hct.end_, hfull t rfl]

/-- A region is given to the caller as a whole, and is full until it gives some back. -/
theorem View.next_full (v : View) (fill : ℕ → UInt8) (h : ∀ t ∈ v.tail, t.last = t.end_) :
    ∀ t ∈ (v.next fill).1.tail, t.last = t.end_ := by
  have halloc : v.next fill = v.alloc fill := by
    rw [View.next]
    split
    · rfl
    · next t hv => exact if_pos (h t hv)
  intro t ht
  rw [halloc] at ht
  obtain rfl : TailView.fresh _ fill = t := Option.some.inj ht
  rfl

namespace NgxChainBufferWriter

variable {S : Slab} {w : NgxChainBufferWriter} {p : Pool}

theorem wp_newBuf_counters {l : Link} {ex : ℤ} :
    wpStop (fun _ => True) (newBuf S l ex) (fun r _ =>
      r.2.1.size = regionSize ex ∧ r.2.2 = CInt.unsigned (ex + 1)) p := by
  simp only [newBuf, wp_bind]
  apply wp_alloc
  · intro _
    trivial
  · intro a _ _ _
    simp only [wp_bind, wp_deref_some]
    apply wp_alloc
    · intro _
      exact ⟨rfl, rfl⟩
    · intro _ _ _ _
      exact ⟨rfl, rfl⟩

/-- `Next` keeps `totaly` and `extends` as declared. -/
theorem wp_next_counters (w : NgxChainBufferWriter) (p : Pool) :
    wpStop (fun _ => True) (next S w) (fun r _ =>
      r.1.totaly = CInt.int (w.totaly + r.2.size) ∧
        (Full w → r.2.size = regionSize w.extends_ ∧
          r.1.extends_ = CInt.unsigned (w.extends_ + 1))) p := by
  simp only [next, wp_bind]
  cases hbuf : w.chain.buf with
  | none =>
    simp only [nextLink, hbuf, wp_pure, region, wp_bind]
    exact wp_mono (fun r _ hr => ⟨rfl, fun _ => hr⟩) wp_newBuf_counters
  | some b =>
    by_cases hfull : b.last = b.end_
    · simp only [nextLink, hbuf, hfull, if_true, wp_bind]
      apply wp_alloc
      · intro _
        trivial
      · intro a _ _ _
        simp only [wp_bind, wp_deref_some, wp_pure, region]
        exact wp_mono (fun r _ hr => ⟨rfl, fun _ => hr⟩) wp_newBuf_counters
    · simp only [nextLink, hbuf, hfull, if_false, wp_pure, region, wp_bind]
      exact ⟨trivial, fun h => absurd (h b hbuf) hfull⟩

/-- The copy of the caller leaves the counters. -/
theorem wp_store_counters {data : ℤ} {bytes : List UInt8} :
    wpStop (fun _ => True) (w.store data bytes) (fun w' _ =>
      w'.totaly = w.totaly ∧ w'.extends_ = w.extends_) p := by
  simp only [store, wp_bind]
  apply wp_any
  · intro _ _
    trivial
  · intro ls p'
    cases ls.head? with
    | none => trivial
    | some l => exact ⟨rfl, rfl⟩

theorem wp_fillNext_counters (w : NgxChainBufferWriter) (fill : ℕ → UInt8) (p : Pool) :
    wpStop (fun _ => True) ((stream S).fillNext w fill) (fun r _ =>
      (stream S).byteCount r.1 = CInt.int ((stream S).byteCount w + r.2.size) ∧
        (Full w → r.2.size = regionSize w.extends_ ∧
          r.1.extends_ = CInt.unsigned (w.extends_ + 1))) p := by
  simp only [OutputStream.fillNext, stream, byteCount, wp_bind]
  refine wp_mono (fun r p' hr => ?_) (wp_next_counters w p)
  rw [wp_bind]
  refine wp_mono ?_ wp_store_counters
  rintro w' _ ⟨htotaly, hextends⟩
  rw [wp_pure]
  exact ⟨htotaly.trans hr.1, fun hfull => ⟨(hr.2 hfull).1, hextends.trans (hr.2 hfull).2⟩⟩

theorem wp_backUp_counters (w : NgxChainBufferWriter) (count : ℤ) (p : Pool) :
    wpStop (fun _ => True) ((stream S).backUp w count) (fun w' _ =>
      (stream S).byteCount w' = CInt.int ((stream S).byteCount w - count) ∧
        w'.extends_ = w.extends_) p := by
  simp only [stream, backUp, byteCount, wp_bind]
  cases w.chain.buf with
  | none => trivial
  | some b =>
    simp only [wp_deref_some, wp_bind, wp_assert, wp_pure]
    split
    · split
      · exact ⟨trivial, trivial⟩
      · trivial
    · trivial

/-- The counters of the pool writer. -/
def counters (S : Slab) : Counters (stream S) :=
  ⟨extends_, Full, wp_fillNext_counters, wp_backUp_counters⟩

instance : DecidablePred (counters S).Full := fun w =>
  inferInstanceAs (Decidable (∀ b ∈ w.chain.buf, b.last = b.end_))

theorem new_counted (ch : ℤ) {ex : ℤ} (h0 : 0 ≤ ex) (hlt : ex < 2 ^ 32) (pool : Pool) :
    (counters S).Counted ⟨new ch ex, pool, none, []⟩ :=
  Counters.counted_start rfl h0 hlt

/-- Without a limit on the memory one full buffer follows another. -/
theorem grows (hroom : S.Unlimited) : (counters S).Grows fun w =>
    ∃ v, w.HasView v ∧ ∀ t ∈ v.tail, t.last = t.end_ := by
  constructor
  · rintro w ⟨v, hv, htail⟩
    exact hv.tail.full htail
  · rintro s fill ⟨v, hv, htail⟩
    obtain ⟨s', hs', hv', -⟩ := (hv.next hroom fill).ok
    exact ⟨s', hs', _, hv', v.next_full fill htail⟩

end NgxChainBufferWriter

namespace NgxShmChainBufferWriter

variable {S : Slab} {w : NgxShmChainBufferWriter} {p : Pool}

/-- The buffer of the last link, if there is one, is full. -/
def Full (w : NgxShmChainBufferWriter) : Prop :=
  ∀ l ∈ w.chain.getLast?, ∀ b ∈ l.buf, b.last = b.end_

theorem wp_newBuf_counters {ptr ex : ℤ} :
    wpStop (fun _ => True) (newBuf S ptr ex) (fun r _ =>
      r.2.1.size = regionSize ex ∧ r.2.2 = CInt.unsigned (ex + 1)) p := by
  simp only [newBuf, wp_bind]
  apply wp_alloc
  · intro _
    trivial
  · intro a _ _ _
    simp only [wp_bind, wp_deref_some]
    apply wp_alloc
    · intro _
      exact ⟨rfl, rfl⟩
    · intro _ _ _ _
      exact ⟨rfl, rfl⟩

/-- On a last link that is full or new, `Next` allocates a region. -/
theorem wp_nextFrom_counters {ex : ℤ} {l : Link} (hfull : ∀ b ∈ l.buf, b.last = b.end_) :
    wpStop (fun _ => True) (nextFrom S ex [l]) (fun r _ =>
      r.2.1.size = regionSize ex ∧ r.2.2 = CInt.unsigned (ex + 1)) p := by
  simp only [nextFrom, wp_bind, wp_access]
  cases hbuf : l.buf with
  | none =>
    rw [wp_bind]
    exact wp_newBuf_counters
  | some b =>
    simp only [wp_bind, wp_access, hfull b hbuf, if_true]
    apply wp_alloc
    · intro _
      trivial
    · intro next _ _ _
      simp only [wp_bind, wp_deref_some, wp_access]
      exact wp_newBuf_counters

/-- `Next` keeps `totaly` and `extends` as declared. -/
theorem wp_next_counters (w : NgxShmChainBufferWriter) (p : Pool) :
    wpStop (fun _ => True) (next S w) (fun r _ =>
      r.1.totaly = CInt.int (w.totaly + r.2.size) ∧
        (Full w → r.2.size = regionSize w.extends_ ∧
          r.1.extends_ = CInt.unsigned (w.extends_ + 1))) p := by
  simp only [next, wp_bind]
  by_cases hfull : Full w
  · cases hchain : w.chain using List.reverseRec with
    | nil => trivial
    | append_singleton init l =>
      refine wp_nextFrom_walk (Or.inr trivial) fun p' => ?_
      have hl : ∀ b ∈ l.buf, b.last = b.end_ := hfull l (by simp [hchain])
      exact wp_mono (fun r _ hr => ⟨rfl, fun _ => hr⟩) (wp_nextFrom_counters hl)
  · apply wp_any
    · intro _ _
      trivial
    · intro r _
      exact ⟨rfl, fun h => absurd h hfull⟩

theorem wp_fillNext_counters (w : NgxShmChainBufferWriter) (fill : ℕ → UInt8) (p : Pool) :
    wpStop (fun _ => True) ((stream S).fillNext w fill) (fun r _ =>
      (stream S).byteCount r.1 = CInt.int ((stream S).byteCount w + r.2.size) ∧
        (Full w → r.2.size = regionSize w.extends_ ∧
          r.1.extends_ = CInt.unsigned (w.extends_ + 1))) p := by
  simp only [OutputStream.fillNext, stream, byteCount, store, wp_bind]
  refine wp_mono (fun r p' hr => ?_) (wp_next_counters w p)
  simp only [wp_bind]
  apply wp_any
  · intro _ _
    trivial
  · intro chain p₂
    rw [wp_pure]
    exact hr

theorem wp_backUp_counters (w : NgxShmChainBufferWriter) (count : ℤ) (p : Pool) :
    wpStop (fun _ => True) ((stream S).backUp w count) (fun w' _ =>
      (stream S).byteCount w' = CInt.int ((stream S).byteCount w - count) ∧
        w'.extends_ = w.extends_) p := by
  simp only [stream, backUp, byteCount]
  cases w.chain with
  | nil => trivial
  | cons l ls =>
    simp only [wp_bind, wp_access]
    cases l.buf with
    | none => trivial
    | some b =>
      simp only [wp_deref_some, wp_bind, wp_access, wp_assert, wp_pure]
      split
      · split
        · exact ⟨trivial, trivial⟩
        · trivial
      · trivial

/-- The counters of the slab writer. -/
def counters (S : Slab) : Counters (stream S) :=
  ⟨extends_, Full, wp_fillNext_counters, wp_backUp_counters⟩

instance : DecidablePred (counters S).Full := fun w =>
  inferInstanceAs (Decidable (∀ l ∈ w.chain.getLast?, ∀ b ∈ l.buf, b.last = b.end_))

theorem new_counted (ch : ℤ) {ex : ℤ} (h0 : 0 ≤ ex) (hlt : ex < 2 ^ 32) (pool : Pool) :
    (counters S).Counted ⟨new ch ex, pool, none, []⟩ :=
  Counters.counted_start rfl h0 hlt

/-- Without a limit on the memory one full buffer follows another. -/
theorem grows (hroom : S.Unlimited) : (counters S).Grows fun w =>
    ∃ v, w.HasView v ∧ ∀ t ∈ v.tail, t.last = t.end_ := by
  constructor
  · rintro w ⟨v, hv, htail⟩ k hk
    obtain ⟨init, l, hchain, -, -, -, hl⟩ := hv.chain
    obtain rfl : k = l := by simpa [hchain, eq_comm] using hk
    exact hl.full htail
  · rintro s fill ⟨v, hv, htail⟩
    obtain ⟨s', hs', hv', -⟩ := (hv.next hroom fill).ok
    exact ⟨s', hs', _, hv', v.next_full fill htail⟩

end NgxShmChainBufferWriter

section Both

variable {S S' : Slab}

/-- In every run in which a region is asked for only when the last one is full, and fits, the
counters of both writers are exact; and from there a further region leaves them exact if and
only if it fits too. -/
theorem writers_exact {ex : ℤ} (h0 : 0 ≤ ex) (hlt : ex < 2 ^ 32) (ch : ℤ) (pool : Pool) :
    (∀ s, RunsTo (NgxChainBufferWriter.stream S).step
        ((NgxChainBufferWriter.counters S).Asks (NgxChainBufferWriter.counters S).Fits)
        (OutputStream.start (.new ch ex) pool) (.ok s) →
      (NgxChainBufferWriter.counters S).Exact s ∧
        ∀ fill s', (NgxChainBufferWriter.counters S).Full s.writer →
          (NgxChainBufferWriter.stream S).sessionNext s fill = .ok s' →
          ((NgxChainBufferWriter.counters S).Exact s' ↔
            (NgxChainBufferWriter.counters S).Fits s)) ∧
    ∀ s, RunsTo (NgxShmChainBufferWriter.stream S').step
        ((NgxShmChainBufferWriter.counters S').Asks (NgxShmChainBufferWriter.counters S').Fits)
        (OutputStream.start (.new ch ex) pool) (.ok s) →
      (NgxShmChainBufferWriter.counters S').Exact s ∧
        ∀ fill s', (NgxShmChainBufferWriter.counters S').Full s.writer →
          (NgxShmChainBufferWriter.stream S').sessionNext s fill = .ok s' →
          ((NgxShmChainBufferWriter.counters S').Exact s' ↔
            (NgxShmChainBufferWriter.counters S').Fits s) := by
  constructor
  · intro s h
    have hcounted := Counters.counted_of_runsTo (NgxChainBufferWriter.new_counted ch h0 hlt pool)
      h s rfl
    exact ⟨hcounted.toExact, fun fill s' hfull hs => hcounted.exact_next_iff hfull hs⟩
  · intro s h
    have hcounted := Counters.counted_of_runsTo
      (NgxShmChainBufferWriter.new_counted ch h0 hlt pool) h s rfl
    exact ⟨hcounted.toExact, fun fill s' hfull hs => hcounted.exact_next_iff hfull hs⟩

/-- Two regions, and one byte given back. -/
theorem writers_exact_backUp :
    (∃ s, (NgxChainBufferWriter.counters (Slab.unlimited 0)).runFitting (.new 0 1) ⟨∅, []⟩
        [.next fun _ => 1, .next fun _ => 2, .backUp 1] = some s ∧
      (NgxChainBufferWriter.counters (Slab.unlimited 0)).Exact s) ∧
    ∃ s, (NgxShmChainBufferWriter.counters (Slab.unlimited 0)).runFitting (.new 0 1) ⟨∅, []⟩
        [.next fun _ => 1, .next fun _ => 2, .backUp 1] = some s ∧
      (NgxShmChainBufferWriter.counters (Slab.unlimited 0)).Exact s := by
  have hexact := @writers_exact (Slab.unlimited 0) (Slab.unlimited 0) 1 (by decide) (by decide) 0
    ⟨∅, []⟩
  constructor
  · obtain ⟨s, hs⟩ := Option.isSome_iff_exists.mp
      (show ((NgxChainBufferWriter.counters (Slab.unlimited 0)).runFitting (.new 0 1) ⟨∅, []⟩
        [.next fun _ => 1, .next fun _ => 2, .backUp 1]).isSome = true by decide +kernel)
    exact ⟨s, hs, (hexact.1 s (Counters.runsTo_of_runFitting hs)).1⟩
  · obtain ⟨s, hs⟩ := Option.isSome_iff_exists.mp
      (show ((NgxShmChainBufferWriter.counters (Slab.unlimited 0)).runFitting (.new 0 1) ⟨∅, []⟩
        [.next fun _ => 1, .next fun _ => 2, .backUp 1]).isSome = true by decide +kernel)
    exact ⟨s, hs, (hexact.2 s (Counters.runsTo_of_runFitting hs)).1⟩

/-- With 1023 regions full, 2145386496 bytes are kept. The next region makes `totaly`
negative, in both writers. -/
theorem writers_not_exact :
    (∃ s, RunsTo (NgxChainBufferWriter.stream (Slab.unlimited 0)).step
        ((NgxChainBufferWriter.counters (Slab.unlimited 0)).Asks fun s => s.kept.length < 2 ^ 31)
        (OutputStream.start (.new 0 1) ⟨∅, []⟩) (.ok s) ∧
      s.inHand = some (4096 * 1024) ∧ s.writer.totaly = 2149580800 - 2 ^ 32 ∧
        ¬(NgxChainBufferWriter.counters (Slab.unlimited 0)).Exact s) ∧
    ∃ s, RunsTo (NgxShmChainBufferWriter.stream (Slab.unlimited 0)).step
        ((NgxShmChainBufferWriter.counters (Slab.unlimited 0)).Asks
          fun s => s.kept.length < 2 ^ 31)
        (OutputStream.start (.new 0 1) ⟨∅, []⟩) (.ok s) ∧
      s.inHand = some (4096 * 1024) ∧ s.writer.totaly = 2149580800 - 2 ^ 32 ∧
        ¬(NgxShmChainBufferWriter.counters (Slab.unlimited 0)).Exact s := by
  have hroom := Slab.unlimited_unlimited 0
  constructor
  · obtain ⟨s, hrun, hinHand, htotaly⟩ := (NgxChainBufferWriter.grows hroom).overflows
      ⟨_, NgxChainBufferWriter.new_hasView 0 1, by simp [View.new]⟩
      (NgxChainBufferWriter.new_counted 0 (by decide) (by decide) ⟨∅, []⟩) rfl
    exact ⟨s, hrun, hinHand, htotaly, Counters.not_exact_of_neg (by rw [htotaly]; decide)⟩
  · obtain ⟨s, hrun, hinHand, htotaly⟩ := (NgxShmChainBufferWriter.grows hroom).overflows
      ⟨_, NgxShmChainBufferWriter.new_hasView 0 1, by simp [View.new]⟩
      (NgxShmChainBufferWriter.new_counted 0 (by decide) (by decide) ⟨∅, []⟩) rfl
    exact ⟨s, hrun, hinHand, htotaly, Counters.not_exact_of_neg (by rw [htotaly]; decide)⟩

end Both

end NgxRpc
