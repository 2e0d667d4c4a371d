import NgxRpc.Foundation.SlabPool

/-!
# Construction of a queue

`ngx_rpc_queue_create` allocates the queue, its array of notify objects and the objects, and
gives every one of them a lock; each of these may fail. It undoes its work when its own lock
fails. It does not look at the array, nor at what `ngx_rpc_notify_create` returns, which
itself does not look at its block.

## Main definitions

- `queueCreate`, `queueDestory` — the code
- `AllOrNothing` — what creation and destruction of a queue promise

## Main results

- `allOrNothing_iff` — the failures under which they keep it
-/

namespace NgxRpc
open SlabPool

def sizeofQueue : ℕ := 128
def sizeofNotify : ℕ := 168

/-- The fields of `ngx_rpc_queue_t` that hold blocks: the array `notify_slot`, `none` when it
is `NULL`, and the `notify_num` entries of it. -/
structure RpcQueue where
  addr : ℤ
  notifySlot : Option ℤ
  slots : List (Option ℤ)
deriving DecidableEq

/-- `ngx_rpc_notify_create`; `lock` says whether `ngx_shmtx_create` succeeds. -/
def notifyCreate (S : Slab) (lock : Bool) : SlabM (Option ℤ) := do
  let (notify, _) ← deref (← alloc S sizeofNotify)
  access notify
  if lock then pure (some notify)
  else
    free notify
    pure none

/-- The loop of `ngx_rpc_queue_create` from index `c` on, with `k` objects to go. The locks
are numbered by the calls of `ngx_shmtx_create`. -/
def createSlots (S : Slab) (locks : ℕ → Bool) (notifySlot : Option ℤ) :
    (c k : ℕ) → SlabM (List (Option ℤ))
  | _, 0 => pure []
  | c, k + 1 => do
    let notify ← notifyCreate S (locks (c + 1))
    access (← deref notifySlot)
    let rest ← createSlots S locks notifySlot (c + 1) k
    pure (notify :: rest)

/-- `ngx_rpc_queue_create`. -/
def queueCreate (S : Slab) (locks : ℕ → Bool) (notifyNum : ℤ) : SlabM (Option RpcQueue) := do
  match ← alloc S sizeofQueue with
  | none => pure none
  | some (q, _) => do
    access q
    if locks 0 then
      let notifySlot ← alloc S (8 * notifyNum % 2 ^ 64).toNat
      access q
      let slots ← createSlots S locks (notifySlot.map Prod.fst) 0 notifyNum.toNat
      pure (some ⟨q, notifySlot.map Prod.fst, slots⟩)
    else
      free q
      pure none

/-- `ngx_rpc_notify_free`. -/
def notifyFree (notify : Option ℤ) : SlabM Unit := do
  let notify ← deref notify
  access notify
  free notify

/-- The loop of `ngx_rpc_queue_destory`. -/
def freeSlots (notifySlot : Option ℤ) : List (Option ℤ) → SlabM Unit
  | [] => pure ()
  | notify :: rest => do
    access (← deref notifySlot)
    notifyFree notify
    freeSlots notifySlot rest

/-- `ngx_rpc_queue_destory`. -/
def queueDestory (queue : RpcQueue) : SlabM Unit := do
  access queue.addr
  freeSlots queue.notifySlot queue.slots
  access queue.addr
  free (queue.notifySlot.getD 0)
  access queue.addr
  free queue.addr

/-- Whenever it is destroyed, exactly the blocks `xs` are freed, each once. -/
def RpcQueue.Frees (queue : RpcQueue) (xs : List ℤ) : Prop :=
  ∀ p, ∃ p' ys, queueDestory queue p = (.ok (), p') ∧ p'.frees = ys ++ p.frees ∧ ys.Perm xs

/-- The result of creation: `NULL` when every block was freed again, or a queue with all its
notify objects that owns the blocks. -/
def Built (notifyNum : ℤ) (p p' : Pool) : Option RpcQueue → Prop
  | none => ∃ xs ys, p'.allocs = xs ++ p.allocs ∧ p'.frees = ys ++ p.frees ∧ ys.Perm xs
  | some queue => queue.slots.length = notifyNum.toNat ∧ (∀ notify ∈ queue.slots, notify.isSome) ∧
      ∃ xs, p'.allocs = xs ++ p.allocs ∧ queue.Frees xs

/-- Creation uses no `NULL`, and builds a queue or nothing. -/
def AllOrNothing (S : Slab) (locks : ℕ → Bool) (notifyNum : ℤ) (p : Pool) : Prop :=
  ∃ queue p', queueCreate S locks notifyNum p = (.ok queue, p') ∧ Built notifyNum p p' queue

/-! ## Destruction -/

theorem wp_freeSlots {E : Stop → Pool → Prop} {slot : ℤ} {xs : List ℤ} {p : Pool} :
    wp E (freeSlots (some slot) (xs.map some))
      (fun _ p' => p'.frees = xs.reverse ++ p.frees) p := by
  induction xs generalizing p with
  | nil => rfl
  | cons x xs ih =>
    simp only [List.map_cons, freeSlots, notifyFree, wp_bind, wp_deref_some, wp_access, wp_free]
    refine wp_mono (fun _ p' hp' => ?_) ih
    rw [hp', List.reverse_cons, List.append_assoc]
    rfl

/-- A queue all of whose parts are there frees them. -/
theorem frees_of_slots {q slot : ℤ} {xs : List ℤ} :
    RpcQueue.Frees ⟨q, some slot, xs.map some⟩ (xs.reverse ++ [slot, q]) := by
  intro p
  have hwp : wp (fun _ _ => False) (queueDestory ⟨q, some slot, xs.map some⟩)
      (fun _ p' => p'.frees = (q :: slot :: xs.reverse) ++ p.frees) p := by
    simp only [queueDestory, wp_bind, wp_access]
    refine wp_mono (fun _ p' hp' => ?_) wp_freeSlots
    simp only [wp_bind, wp_access, wp_free]
    show q :: slot :: p'.frees = _
    rw [hp']
    rfl
  obtain ⟨u, p', hrun, hfrees⟩ := ends_iff.mpr hwp
  refine ⟨p', _, hrun, hfrees, ?_⟩
  rw [List.perm_iff_count]
  intro a
  simp only [List.count_append, List.count_cons, List.count_nil]
  omega

/-- A queue without an array frees a block too many. -/
theorem not_frees_singleton {q : ℤ} : ¬RpcQueue.Frees ⟨q, none, []⟩ [q] := by
  intro h
  obtain ⟨p', ys, hrun, hfrees, hperm⟩ := h ⟨∅, []⟩
  obtain ⟨-, rfl⟩ := Prod.mk.inj hrun
  have hlen := hperm.length_eq
  have htwo := congrArg List.length hfrees
  rw [List.length_append, hlen] at htwo
  cases htwo

/-! ## Creation -/

section Create

variable {S : Slab} {locks : ℕ → Bool} {notifyNum : ℤ} {p : Pool}

/-- With all locks, the loop ends with an object in every entry unless an allocation is
refused. -/
theorem wp_createSlots {r : ℕ} (hr : r ≤ p.refusals) {slot : ℤ} {c k : ℕ}
    (hlocks : ∀ i ∈ List.range' c k, locks (i + 1) = true) :
    wp (fun _ p' => r < p'.refusals) (createSlots S locks (some slot) c k)
      (fun slots p' => ∃ xs : List ℤ, slots = xs.map some ∧ xs.length = k ∧
        p'.allocs = xs.reverse ++ p.allocs) p := by
  induction k generalizing c p with
  | zero => exact ⟨[], rfl, rfl, rfl⟩
  | succ k ih =>
    rw [List.range'_succ, List.forall_mem_cons] at hlocks
    obtain ⟨hlock, hrest⟩ := hlocks
    simp only [createSlots, notifyCreate, wp_bind]
    apply wp_alloc
    · intro _
      simp only [wp_bind, wp_deref_none, Pool.refusals_refused]
      omega
    · intro a _ _ _
      simp only [wp_bind, wp_deref_some, wp_access, hlock, if_true, wp_pure]
      have hr' : r ≤ (((p.allocated a).accessed a).accessed slot).refusals := by simpa using hr
      refine wp_mono (fun slots p' hslots => ?_) (ih hr' hrest)
      obtain ⟨xs, rfl, hlen, hallocs⟩ := hslots
      rw [wp_pure]
      refine ⟨a :: xs, rfl, by rw [List.length_cons, hlen], ?_⟩
      rw [hallocs, List.reverse_cons, List.append_assoc]
      rfl

theorem wp_notifyCreate {lock : Bool} : wp AnyStop (notifyCreate S lock)
    (fun notify p' => notify.isSome = lock ∧ p'.refusals = p.refusals) p := by
  simp only [notifyCreate, wp_bind]
  apply wp_alloc
  · exact fun _ => trivial
  · intro a _ _ _
    simp only [wp_bind, wp_deref_some, wp_access]
    cases lock with
    | false => exact ⟨rfl, by simp⟩
    | true => exact ⟨rfl, by simp⟩

/-- When the loop ends nothing was refused, and the entries without a lock are `NULL`. -/
theorem wp_createSlots_any {slot : Option ℤ} {c k : ℕ} :
    wp AnyStop (createSlots S locks slot c k) (fun slots p' =>
      slots.map Option.isSome = (List.range' c k).map (fun i => locks (i + 1)) ∧
        p'.refusals = p.refusals ∧ (slot = none → slots = [] ∧ p' = p)) p := by
  induction k generalizing c p with
  | zero => exact ⟨rfl, rfl, fun _ => ⟨rfl, rfl⟩⟩
  | succ k ih =>
    simp only [createSlots, wp_bind]
    refine wp_mono (fun notify p₁ hnotify => ?_) wp_notifyCreate
    obtain ⟨hsome, hsame⟩ := hnotify
    cases slot with
    | none => trivial
    | some slot =>
      simp only [wp_bind, wp_deref_some, wp_access]
      refine wp_mono (fun slots p' hrest => ?_) ih
      obtain ⟨hslots, hsame', -⟩ := hrest
      rw [wp_pure]
      refine ⟨?_, ?_, fun hnone => by cases hnone⟩
      · rw [List.map_cons, hslots, hsome, List.range'_succ, List.map_cons]
      · rw [hsame', Pool.refusals_accessed, hsame]

theorem kept_createSlots {I : Pool → Prop} (hI : Permanent I)
    {slot : Option ℤ} {c k : ℕ} (h : I p) :
    wp (fun _ => I) (createSlots S locks slot c k) (fun _ => I) p := by
  induction k generalizing c p with
  | zero => exact h
  | succ k ih =>
    have hnotify : wp (fun _ => I) (notifyCreate S (locks (c + 1))) (fun _ => I) p := by
      simp only [notifyCreate, wp_bind]
      apply wp_alloc
      · exact fun _ => hI.refused _ h
      · intro a _ _ _
        simp only [wp_bind, wp_deref_some, wp_access]
        have hacc := hI.access a (hI.alloc a h)
        split
        · exact hacc
        · exact hI.free a hacc
    simp only [createSlots, wp_bind]
    refine wp_mono (fun _ p₁ hp₁ => ?_) hnotify
    cases slot with
    | none => exact hp₁
    | some slot =>
      simp only [wp_bind, wp_deref_some, wp_access]
      exact wp_mono (fun _ _ hp => hp) (ih (hI.access slot hp₁))

/-- Without a failure a queue is built. -/
theorem allOrNothing_of_locks (hqueue : locks 0 = true)
    (hlocks : ∀ c < notifyNum.toNat, locks (c + 1) = true)
    (hnone : (queueCreate S locks notifyNum p).2.refusals ≤ p.refusals) :
    AllOrNothing S locks notifyNum p := by
  have hwp : wp (fun _ p' => p.refusals < p'.refusals) (queueCreate S locks notifyNum)
      (fun queue p' => p.refusals < p'.refusals ∨ Built notifyNum p p' queue) p := by
    simp only [queueCreate, wp_bind]
    apply wp_alloc
    · intro _
      left
      simp
    · intro q _ _ _
      simp only [wp_bind, wp_access, hqueue, if_true]
      apply wp_alloc
      · intro _
        simp only [wp_bind, wp_access]
        exact wp_mono (fun _ _ hp => Or.inl hp)
          (kept_createSlots (Pool.permanent_refusals _) (by simp))
      · intro slot _ _ _
        simp only [wp_bind, wp_access, Option.map_some]
        refine wp_mono (fun slots p' hslots => ?_)
          (wp_createSlots (by simp) (by simpa using hlocks))
        obtain ⟨xs, rfl, hlen, hallocs⟩ := hslots
        right
        refine ⟨by rw [List.length_map, hlen], by simp, _, ?_, frees_of_slots⟩
        rw [hallocs, List.append_assoc]
        rfl
  obtain ⟨hok, herr⟩ := wp_iff.mp hwp
  rcases hrun : queueCreate S locks notifyNum p with ⟨e | queue, p'⟩
  · rw [hrun] at hnone
    exact absurd (herr e p' hrun) (Nat.not_lt.mpr hnone)
  · rw [hrun] at hnone
    exact ⟨queue, p', hrun, (hok queue p' hrun).resolve_left (Nat.not_lt.mpr hnone)⟩

/-- A queue that is built all the same did not see a failure. -/
theorem AllOrNothing.noFailure (h : AllOrNothing S locks notifyNum p)
    (hroom : S.pick p sizeofQueue ≠ none) (hqueue : locks 0 = true) :
    (queueCreate S locks notifyNum p).2.refusals = p.refusals ∧
      ∀ c < notifyNum.toNat, locks (c + 1) = true := by
  have hwp : wp AnyStop (queueCreate S locks notifyNum) (fun queue p' =>
      Built notifyNum p p' queue → p'.refusals = p.refusals ∧
        ∀ c < notifyNum.toNat, locks (c + 1) = true) p := by
    simp only [queueCreate, wp_bind]
    apply wp_alloc
    · intro hnone
      exact absurd hnone hroom
    · intro q _ _ _
      simp only [wp_bind, wp_access, hqueue, if_true]
      apply wp_alloc
      · intro _
        simp only [wp_bind, wp_access, Option.map_none]
        refine wp_mono (fun slots p' hloop hbuilt => ?_) wp_createSlots_any
        obtain ⟨rfl, rfl⟩ := hloop.2.2 rfl
        obtain ⟨-, -, xs, hallocs, hfrees⟩ := hbuilt
        obtain rfl : [q] = xs := List.append_cancel_right hallocs
        exact absurd hfrees not_frees_singleton
      · intro slot _ _ _
        simp only [wp_bind, wp_access, Option.map_some]
        refine wp_mono (fun slots p' hloop hbuilt => ?_) wp_createSlots_any
        obtain ⟨hslots, hsame, -⟩ := hloop
        obtain ⟨-, hsome, -⟩ := hbuilt
        refine ⟨by simpa using hsame, fun c hc => ?_⟩
        have hmem : locks (c + 1) ∈ slots.map Option.isSome := by
          rw [hslots]
          exact List.mem_map.mpr ⟨c, by simpa using hc, rfl⟩
        obtain ⟨notify, hnotify, hlock⟩ := List.mem_map.mp hmem
        rw [← hlock]
        exact hsome notify hnotify
  obtain ⟨queue, p', hrun, hbuilt⟩ := h
  have hgood := (wp_iff.mp hwp).1 queue p' hrun hbuilt
  rwa [hrun]

/-- When the queue itself or its lock fails, nothing is left. -/
theorem allOrNothing_of_queue (h : S.pick p sizeofQueue = none ∨ locks 0 = false) :
    AllOrNothing S locks notifyNum p := by
  refine ends_iff.mpr ?_
  simp only [queueCreate, wp_bind]
  apply wp_alloc
  · exact fun _ => ⟨[], [], rfl, rfl, .refl _⟩
  · intro q hpick _ _
    have hqueue : locks 0 = false := h.resolve_left (by simp [hpick])
    simp only [wp_bind, wp_access, hqueue, Bool.false_eq_true, if_false, wp_free, wp_pure]
    exact ⟨[q], [q], rfl, rfl, .refl _⟩

/-- Creation is all or nothing exactly when the queue itself or its lock fails, or nothing
fails. -/
theorem allOrNothing_iff : AllOrNothing S locks notifyNum p ↔
    S.pick p sizeofQueue = none ∨ locks 0 = false ∨
      (∀ c < notifyNum.toNat, locks (c + 1) = true) ∧
        (queueCreate S locks notifyNum p).2.refusals ≤ p.refusals := by
  constructor
  · intro h
    by_contra hnot
    obtain ⟨hroom, hnot⟩ := not_or.mp hnot
    obtain ⟨hqueue, hnot⟩ := not_or.mp hnot
    obtain ⟨hsame, hlocks⟩ := h.noFailure hroom (Bool.of_not_eq_false hqueue)
    exact hnot ⟨hlocks, hsame.le⟩
  · intro hcases
    by_cases hqueue : S.pick p sizeofQueue = none ∨ locks 0 = false
    · exact allOrNothing_of_queue hqueue
    · obtain ⟨hroom, hlock⟩ := not_or.mp hqueue
      obtain ⟨hlocks, hnone⟩ := (hcases.resolve_left hroom).resolve_left hlock
      exact allOrNothing_of_locks (Bool.of_not_eq_false hlock) hlocks hnone

end Create

/-- An allocator that is full whenever a notify object is to be created. -/
def noNotify : Slab := (Slab.unlimited 0).failing fun _ n => n = sizeofNotify

/-- A notify object that is refused is written to, and one without a lock is missing from the
queue. -/
theorem not_allOrNothing : ¬AllOrNothing noNotify (fun _ => true) 1 ⟨∅, []⟩ ∧
    (queueCreate noNotify (fun _ => true) 1 ⟨∅, []⟩).1 = .error .nullDereference ∧
    ¬AllOrNothing (Slab.unlimited 0) (fun c => c = 0) 1 ⟨∅, []⟩ := by
  have hrun : (queueCreate noNotify (fun _ => true) 1 ⟨∅, []⟩).1 = .error .nullDereference := by
    decide +kernel
  refine ⟨?_, hrun, fun h => ?_⟩
  · rintro ⟨queue, p', hok, -⟩
    rw [hok] at hrun
    cases hrun
  · obtain ⟨-, hlocks⟩ := h.noFailure (by decide) (by decide)
    have hlock := hlocks 0 (by decide)
    revert hlock
    decide

end NgxRpc
