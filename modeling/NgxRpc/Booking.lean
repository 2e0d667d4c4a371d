import NgxRpc.IdleRuns

/-!
# Booked processors

`ngx_rpc_queue_push_and_notify` takes a processor off the idle list in one
section and appends the task to its pending list in another. A processor that
ends an extra cycle in between links itself again and is handed out a second
time. It is booked at most once when every insertion has been earned by a task.
-/

namespace NgxRpc
open CircularList Transition

variable {W P T : Type} [DecidableEq W] [DecidableEq P] [DecidableEq T]

/-- The action is no insertion of a processor that has linked itself before and
has since then run no task it was taken for. -/
def InsertsEarned (s : State W P T) (a : Action W P T) : Prop :=
  ∀ p, a = .insert p → s.earned p = true

/-- The executable form of `InsertsEarned`. -/
def insertsEarned (s : State W P T) : Action W P T → Bool
  | .insert p => s.earned p
  | _ => true

omit [DecidableEq W] [DecidableEq P] [DecidableEq T] in
theorem insertsEarned_sound (s : State W P T) (a : Action W P T)
    (h : insertsEarned s a = true) : InsertsEarned s a := by
  rintro p rfl
  exact h

/-- No processor is booked twice: it was taken for at most one task that it has
not run yet, and while it owes one it is not offered as idle. -/
def SinglyBooked (s : State W P T) : Prop :=
  ∀ p, (s.owing p).length ≤ 1 ∧
    (s.owing p ≠ [] → ∀ k, s.idles.links.next^[k] .queue ≠ .notify p)

/-- The stations of a processor between two insertions. -/
inductive Station (s : State W P T) (p : P) : Prop where
  /-- it may link itself -/
  | earned (he : s.earned p = true) (hi : s.idles.idle p = false) (ho : s.owing p = [])
  /-- it is linked -/
  | idle (he : s.earned p = false) (hi : s.idles.idle p = true) (ho : s.owing p = [])
  /-- it was taken for one task -/
  | booked (t : T) (he : s.earned p = false) (hi : s.idles.idle p = false)
      (ho : s.owing p = [t])

/-- The invariant of runs with earned insertions. -/
structure Booked (s : State W P T) : Prop where
  wellFormed : s.idles.WellFormed
  station : ∀ p, Station s p

omit [DecidableEq W] [DecidableEq P] [DecidableEq T] in
/-- Stations only depend on three history fields. -/
theorem Station.congr {s s' : State W P T} {p : P} (h : Station s p)
    (he : s'.earned p = s.earned p) (hi : s'.idles.idle p = s.idles.idle p)
    (ho : s'.owing p = s.owing p) : Station s' p := by
  cases h with
  | earned he' hi' ho' => exact .earned (he.trans he') (hi.trans hi') (ho.trans ho')
  | idle he' hi' ho' => exact .idle (he.trans he') (hi.trans hi') (ho.trans ho')
  | booked t he' hi' ho' => exact .booked t (he.trans he') (hi.trans hi') (ho.trans ho')

omit [DecidableEq W] [DecidableEq P] [DecidableEq T] in
theorem init_booked : Booked (State.init : State W P T) :=
  ⟨IdleList.init_wellFormed, fun _ => .earned rfl rfl rfl⟩

omit [DecidableEq W] [DecidableEq T] in
/-- Taking an idle processor books it. -/
theorem Booked.take {s s' : State W P T} {p : P} {t : T} {I : IdleList P} (h : Booked s)
    (htake : s.idles.take = (I, some (.notify p))) (hI : s'.idles = I)
    (he : s'.earned = s.earned) (ho : s'.owing = Function.update s.owing p (s.owing p ++ [t])) :
    Booked s' := by
  obtain ⟨hnone, -⟩ | ⟨I', q, hsome, hwf, hq, hidle⟩ := h.wellFormed.take_cases
  · simp [hnone] at htake
  · obtain ⟨rfl, rfl⟩ : I' = I ∧ q = p := by
      simpa using hsome.symm.trans htake
    refine ⟨hI ▸ hwf, ?_⟩
    intro r
    by_cases hr : r = q
    · subst hr
      cases h.station r with
      | earned _ hi _ => simp [hq] at hi
      | idle he' _ ho' =>
        exact .booked t (by rw [he, he']) (by simp [hI, hidle]) (by simp [ho, ho'])
      | booked _ _ hi _ => simp [hq] at hi
    · exact (h.station r).congr (by rw [he]) (by simp [hI, hidle, hr]) (by simp [ho, hr])

/-- Returning from a closure settles what the processor owed for the task. -/
theorem Booked.closureReturn {s : State W P T} (h : Booked s) (p : P) (t : T) (m : Mode) :
    Booked (s.closureReturn p t m) := by
  refine ⟨h.wellFormed, ?_⟩
  intro r
  have hst := h.station r
  by_cases hr : r = p
  · subst hr
    by_cases ht : t ∈ s.owing r
    · cases hst with
      | earned _ _ ho => simp [ho] at ht
      | idle _ _ ho => simp [ho] at ht
      | booked u _ hi ho =>
        obtain rfl : t = u := by simpa [ho] using ht
        exact .earned (by simp [ho]) hi (by simp [ho])
    · exact hst.congr (by simp [ht]) rfl (by simp [List.erase_of_not_mem ht])
  · exact hst.congr (by by_cases ht : t ∈ s.owing p <;> simp [ht, hr]) rfl (by simp [hr])

omit [DecidableEq W] [DecidableEq T] in
/-- An earned insertion links the processor. -/
theorem Booked.insert {s s' : State W P T} {p : P} (h : Booked s) (hp : s.earned p = true)
    (hI : s'.idles = s.idles.insert p) (he : s'.earned = Function.update s.earned p false)
    (ho : s'.owing = s.owing) : Booked s' := by
  have hidle : s.idles.idle p = false := by
    cases h.station p with
    | earned _ hi _ => exact hi
    | idle he' _ _ => simp [hp] at he'
    | booked _ he' _ _ => simp [hp] at he'
  -- an earned insertion is made by a processor that is not linked
  refine ⟨hI ▸ h.wellFormed.insert hidle, ?_⟩
  intro r
  by_cases hr : r = p
  · subst hr
    cases h.station r with
    | earned _ _ ho' => exact .idle (by simp [he]) (by simp [hI]) (by rw [ho, ho'])
    | idle he' _ _ => simp [hp] at he'
    | booked _ he' _ _ => simp [hp] at he'
  · exact (h.station r).congr (by simp [he, hr]) (by simp [hI, hr]) (by rw [ho])

/-- One step with an earned insertion keeps the invariant. -/
theorem step_booked {s s' : State W P T} {a : Action W P T} (h : Booked s)
    (hok : InsertsEarned s a) (hstep : Step s a s') : Booked s' := by
  have hwf : s'.idles = s.idles → s'.earned = s.earned → s'.owing = s.owing → Booked s' := by
    intro hI he ho
    refine ⟨hI ▸ h.wellFormed, fun p => (h.station p).congr ?_ ?_ ?_⟩
    · rw [he]
    · rw [hI]
    · rw [ho]
  cases hstep with
  | @takeNone t c I hpc hc htake =>
    have hI : I = s.idles := by
      obtain ⟨hnone, -⟩ | ⟨I', q, hsome, -⟩ := h.wellFormed.take_cases
      · exact congrArg Prod.fst (htake.symm.trans hnone)
      · simp [hsome] at htake
    exact hwf hI rfl rfl
  | takeSome hpc hc htake => exact h.take htake rfl rfl rfl
  | takeWild hpc hc htake =>
    obtain ⟨hnone, -⟩ | ⟨I', q, hsome, -⟩ := h.wellFormed.take_cases
    · simp [hnone] at htake
    · simp [hsome] at htake
  | finishDropped hpc hc hr hd => exact h.closureReturn _ _ _
  | forwardDropped hpc hc hr hd =>
    exact (⟨h.wellFormed, fun p => (h.station p).congr rfl rfl rfl⟩ :
      Booked (s.setTask _ _)).closureReturn _ _ _
  | signal hpc =>
    exact (⟨h.wellFormed, fun p => (h.station p).congr rfl rfl rfl⟩ :
      Booked (s.writeEventFd _)).closureReturn _ _ _
  | insert hpc => exact h.insert (hok _ rfl) rfl rfl rfl
  | _ => exact hwf rfl rfl rfl

omit [DecidableEq W] [DecidableEq P] [DecidableEq T] in
theorem Booked.single {s : State W P T} (h : Booked s) : SinglyBooked s := by
  intro p
  cases h.station p with
  | earned _ _ ho => simp [ho]
  | idle _ _ ho => simp [ho]
  | booked t _ hi ho =>
    refine ⟨by simp [ho], fun _ k hk => ?_⟩
    -- a traversal from `queue->idles` meets linked processors only
    have hidle : s.idles.idle p = true := h.wellFormed.linked_iff.mp ⟨k, hk⟩
    simp [hi] at hidle

/-- In every run whose insertions are earned, no processor is booked twice. -/
theorem singlyBooked {s : State W P T} (h : RunsTo State.step InsertsEarned .init s) :
    SinglyBooked s := by
  have hb : Booked s := h.invariant Booked init_booked
    fun _ _ _ _ hb hok hstep => step_booked hb hok (step_cases hstep)
  exact hb.single

theorem singlyBooked_takenBetween :
    ∃ s, run State.step insertsEarned .init takenBetween = some s ∧ SinglyBooked s := by
  obtain ⟨s, hs⟩ := Option.isSome_iff_exists.mp
    (show (run State.step insertsEarned .init takenBetween).isSome = true by decide)
  exact ⟨s, hs, singlyBooked (runsTo_of_run insertsEarned_sound hs)⟩

/-- One processor serves request `0`. After its first round it is idle and still
inside the read handler when worker `false` takes it for request `1`; it runs the
second round before the task is appended, and worker `true` takes it again. -/
def takenTwice : List (Action Bool Unit ℕ) :=
  startUp () ++ request false 0 ++ .readEvent (.processor ()) :: round () ++
    [.post false 1, .take 1,
      .read (.processor ()), .pop (.processor ()), .insert (),
      .post true 2, .take 2]

theorem not_singlyBooked :
    ∃ s : State Bool Unit ℕ, Reachable State.step .init s ∧ ¬SinglyBooked s := by
  obtain ⟨s, hs, he⟩ := Option.map_eq_some_iff.mp
    (show (exec State.step (State.init : State Bool Unit ℕ) takenTwice).map
      (fun s => s.owing ()) = some [1, 2] by decide)
  refine ⟨s, reachable_of_exec hs, fun h => ?_⟩
  have hlen := (h ()).1
  simp [he] at hlen

end NgxRpc
