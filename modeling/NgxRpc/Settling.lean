import NgxRpc.Affinity
import NgxRpc.Wakeup
import NgxRpc.Foundation.Potential

/-!
# The dispatch settles

Every request that comes in, every forward that a service asks for and every event without a cause
sets off a bounded number of steps. When no more of them come, the processes go on until all of
them rest, and then every request that was posted is answered, once.

## Main definitions

- `debt` — the steps that a task or a process will still take
- `cost` — the steps that an action sets off
- `onItsOwn` — the actions that nobody outside asks for
- `Settled` — every process rests and every request is answered

## Main results

- `length_le_spent` — the steps of a run, by its actions
- `runs_settle` — what goes on on its own comes to an end, and then all requests are answered
-/

namespace NgxRpc
open CircularList Transition

variable {W P T : Type}

/-! ## What is owed -/

/-- The steps from the end of a drain until the process rests. One that is woken meanwhile is called
again. -/
def Mode.debt (awake : Bool) : Mode → ℕ
  | .read true => if awake then 6 else 3
  | _ => if awake then 7 else 0

/-- The steps of a process until it rests, when its list is empty. -/
def Pc.debt (awake : Bool) : Pc W P T → ℕ
  | .rest => if awake then 7 else 0
  | .reading => if awake then 6 else 3
  | .inserting m => m.debt awake + 1
  | .draining m | .running _ m | .handing _ m => m.debt awake + 2
  -- the `eventfd_write` may wake another process
  | .signalling _ _ m => m.debt awake + 10
  | .wild => 0

/-- The steps of a handler of a request, and those of the task that it pushes. -/
def RequestPc.debt : RequestPc P → ℕ
  | .rest => 0
  | .posted => 23
  | .taken => 22
  | .refused => 1
  -- the push is owed by the task
  | .subrequestDone => 0
  | .signalling _ => 8
  | .wild => 0

/-- The sub-request that the finish handler starts, and what follows it. -/
def TaskControl.debt (c : TaskControl W P) : ℕ :=
  if c.finish.handler = .requestFoward then 23 else 0

/-- The process is about to push the task that it holds. -/
def Pc.hands : Pc W P T → Bool
  | .handing _ _ => true
  | _ => false

/-- The sub-request of the request is done. -/
def RequestPc.done : RequestPc P → Bool
  | .subrequestDone => true
  | _ => false

/-- The steps of a task from its place on, if no more forward is asked for. -/
def placeDebt (s : State W P T) (t : T) : Option (Place W P) → ℕ
  | none => 0
  | some (.list (.processor _)) => 13
  | some (.held (.processor p)) =>
    if (s.pc (.processor p)).hands then 11 + (s.task t).elim 0 TaskControl.debt else 12
  | some (.list (.worker _)) => 2 + (s.task t).elim 0 TaskControl.debt
  | some (.held (.worker _)) => 1 + (s.task t).elim 0 TaskControl.debt
  | some .subrequest => if (s.http t).done then 22 else 23

/-- A `read` of an eventfd with counter `c` would return a positive number. -/
def eventfdReadable (c : ℕ) : Bool := (eventfdRead c).1

/-- The steps that a request or a process will still take. -/
def debt (s : State W P T) (loc : T → Option (Place W P)) : T ⊕ Process W P → ℕ
  | .inl t => (s.http t).debt + placeDebt s t (loc t)
  | .inr n => (s.pc n).debt (eventfdReadable (s.eventFd n))

/-- The steps that an action sets off, with its own. What is not in the list was paid for. -/
def cost (s : State W P T) : Action W P T → ℕ
  | .post _ _ => 24
  | .forwardRequest _ => 23
  -- epoll reports an event that nobody wrote
  | .readEvent n => if eventfdReadable (s.eventFd n) then 0 else 4
  | .writeEvent _ => 3
  | .subrequestDone _ again => if again then 1 else 0
  | _ => 0

/-- All the steps that state `s` owes. -/
def Owes (s : State W P T) (k : ℕ) : Prop :=
  ∃ pend loc, Located s pend loc ∧ Owed (debt s loc) k

theorem eventfdReadable_iff (c : ℕ) : eventfdReadable c = true ↔ 0 < c := decide_eq_true_iff

theorem eventfdReadable_zero : eventfdReadable 0 = false := rfl

theorem eventfdReadable_write (c : ℕ) : eventfdReadable (eventfdWrite c) = true :=
  (eventfdReadable_iff _).mpr (eventfdWrite_pos c)

section Simp

variable (awake : Bool) (m : Mode) (t : T) (n : Process W P)

@[simp] theorem Pc.debt_rest : (rest : Pc W P T).debt awake = if awake then 7 else 0 := rfl

@[simp] theorem Pc.debt_reading : (reading : Pc W P T).debt awake = if awake then 6 else 3 := rfl

@[simp] theorem Pc.debt_inserting : (inserting m : Pc W P T).debt awake = m.debt awake + 1 := rfl

@[simp] theorem Pc.debt_draining : (draining m : Pc W P T).debt awake = m.debt awake + 2 := rfl

@[simp] theorem Pc.debt_running : (running t m : Pc W P T).debt awake = m.debt awake + 2 := rfl

@[simp] theorem Pc.debt_handing : (handing t m : Pc W P T).debt awake = m.debt awake + 2 := rfl

@[simp] theorem Pc.debt_signalling : (signalling t n m).debt awake = m.debt awake + 10 := rfl

end Simp

theorem Mode.debt_next (m : Mode) (awake : Bool) :
    (m.next : Pc W P T).debt awake = m.debt awake := by
  obtain _ | _ | _ := m
  · rfl
  · rfl
  · rfl

/-- A wake-up sets off another round at most. -/
theorem Pc.debt_awake (c : Pc W P T) (awake : Bool) : c.debt true ≤ c.debt awake + 7 := by
  have hmode (m : Mode) : m.debt true ≤ m.debt awake + 7 := by
    obtain _ | _ | _ := m <;> cases awake <;> decide
  cases c with
  | rest => cases awake <;> simp [Pc.debt]
  | reading => cases awake <;> simp [Pc.debt]
  | wild => exact Nat.zero_le _
  | inserting m | draining m | running _ m | handing _ m | signalling _ _ m =>
    have h := hmode m
    simp only [Pc.debt]
    omega

theorem init_owes : Owes (State.init : State W P T) 0 := by
  refine ⟨_, _, init_located, ?_⟩
  have hzero : debt (State.init : State W P T) (fun _ => none) = fun _ => 0 := by
    funext x
    cases x with
    | inl t => rfl
    | inr n => rfl
  rw [hzero]
  exact owed_zero

/-! ## One step takes one unit -/

section Change

variable {s s' : State W P T} {pend : Pending (Process W P) T} {loc loc' : T → Option (Place W P)}
  {t : T} {n : Process W P} {k price : ℕ}

theorem placeDebt_congr {o : Option (Place W P)} (hhttp : (s'.http t).done = (s.http t).done)
    (htask : s'.task t = s.task t) (hpc : ∀ m, o = some (.held m) → s'.pc m = s.pc m) :
    placeDebt s' t o = placeDebt s t o := by
  obtain _ | _ | m | _ := o
  · rfl
  · next m => cases m <;> simp [placeDebt, htask]
  · cases m <;> simp [placeDebt, htask, hpc]
  · simp only [placeDebt, hhttp]

/-- A process that goes on leaves the tasks alone that it does not hold. -/
theorem placeDebt_frame {u : T} (h : Located s pend loc) (hhttp : s'.http u = s.http u)
    (htask : s'.task u = s.task u) (hpc : ∀ m, m ≠ n → s'.pc m = s.pc m)
    (hn : (s.pc n).holds = some u → s'.pc n = s.pc n) :
    placeDebt s' u (loc u) = placeDebt s u (loc u) := by
  refine placeDebt_congr (congrArg _ hhttp) htask fun m hm => ?_
  by_cases hmn : m = n
  · subst hmn
    exact hn ((h.held u m).mpr hm)
  · exact hpc m hmn

/-- The handler of a request goes on. -/
theorem change_task [DecidableEq T] (ho : Owed (debt s loc) k) (hpc : s'.pc = s.pc)
    (hfd : s'.eventFd = s.eventFd) {c : RequestPc P}
    (hupdate : s'.http = Function.update s.http t c)
    (htask : ∀ u, u ≠ t → s'.task u = s.task u) (hloc : ∀ u, u ≠ t → loc' u = loc u)
    (hle : debt s' loc' (.inl t) + 1 ≤ debt s loc (.inl t) + price) :
    ∃ k', Owed (debt s' loc') k' ∧ k' + 1 ≤ k + price := by
  have hhttp (u : T) (hu : u ≠ t) : s'.http u = s.http u := by
    rw [hupdate, Function.update_of_ne hu]
  refine ho.change (.inl t) ?_ hle
  rintro (u | m) hne
  · have hut : u ≠ t := fun hut => hne (hut ▸ rfl)
    simp only [debt, hhttp u hut, hloc u hut]
    rw [placeDebt_congr (congrArg _ (hhttp u hut)) (htask u hut) fun m _ => congrFun hpc m]
  · simp only [debt, hpc, hfd]

section Aside

variable [DecidableEq W] [DecidableEq P]

/-- No request owes more or less. -/
theorem Aside.debt_task (hn : Aside s n s') (h : Located s pend loc) (u : T) :
    debt s' loc (.inl u) = debt s loc (.inl u) := by
  obtain ⟨c, -, hpc⟩ := hn.after
  have hplace := placeDebt_frame (n := n) h (congrFun hn.http u) (congrFun hn.task u)
    (fun m hm => by rw [hpc, Function.update_of_ne hm]) (by simp [hn.before])
  simp only [debt, hn.http, hplace]

theorem Aside.debt_process (hn : Aside s n s') {m : Process W P} (hm : m ≠ n)
    (hfd : s'.eventFd m = s.eventFd m) : debt s' loc (.inr m) = debt s loc (.inr m) := by
  obtain ⟨c, -, hpc⟩ := hn.after
  simp only [debt, hpc, Function.update_of_ne hm, hfd]

/-- A process that holds no task goes on. -/
theorem change_aside (hn : Aside s n s') (h : Located s pend loc) (ho : Owed (debt s loc) k)
    (hfd : ∀ m, m ≠ n → s'.eventFd m = s.eventFd m)
    (hle : debt s' loc (.inr n) + 1 ≤ debt s loc (.inr n) + price) :
    ∃ k', Owed (debt s' loc) k' ∧ k' + 1 ≤ k + price := by
  refine ho.change (.inr n) ?_ hle
  rintro (u | m) hne
  · exact hn.debt_task h u
  · have hmn : m ≠ n := fun hmn => hne (hmn ▸ rfl)
    exact hn.debt_process hmn (hfd m hmn)

end Aside

/-- A process and a task go on. -/
theorem change_both (h : Located s pend loc) (ho : Owed (debt s loc) k)
    (hhttp : ∀ u, u ≠ t → s'.http u = s.http u) (htask : ∀ u, u ≠ t → s'.task u = s.task u)
    (hloc : ∀ u, u ≠ t → loc' u = loc u) (hpc : ∀ m, m ≠ n → s'.pc m = s.pc m)
    (hfd : ∀ m, m ≠ n → s'.eventFd m = s.eventFd m)
    (hholds : ∀ u, u ≠ t → (s.pc n).holds = some u → s'.pc n = s.pc n)
    (hle : debt s' loc' (.inl t) + debt s' loc' (.inr n) + 1 ≤
      debt s loc (.inl t) + debt s loc (.inr n) + price) :
    ∃ k', Owed (debt s' loc') k' ∧ k' + 1 ≤ k + price := by
  refine ho.change_two (Sum.inl_ne_inr (a := t) (b := n)) ?_ hle
  rintro (u | m) hnt hnn
  · have hut : u ≠ t := fun hut => hnt (hut ▸ rfl)
    simp only [debt, hhttp u hut, hloc u hut]
    rw [placeDebt_frame h (hhttp u hut) (htask u hut) hpc (hholds u hut)]
  · have hmn : m ≠ n := fun hmn => hnn (hmn ▸ rfl)
    simp only [debt, hpc m hmn, hfd m hmn]

/-- A process takes up, puts down or goes on with the task `t`. -/
theorem change_holder [DecidableEq W] [DecidableEq P] (h : Located s pend loc)
    (ho : Owed (debt s loc) k) (hholds : (s.pc n).holds = none ∨ (s.pc n).holds = some t)
    (hhttp : s'.http = s.http) (htask : ∀ u, u ≠ t → s'.task u = s.task u)
    (hloc : ∀ u, u ≠ t → loc' u = loc u) {c : Pc W P T} (hpc : s'.pc = Function.update s.pc n c)
    (hfd : s'.eventFd = s.eventFd)
    (hle : debt s' loc' (.inl t) + debt s' loc' (.inr n) + 1 ≤
      debt s loc (.inl t) + debt s loc (.inr n) + price) :
    ∃ k', Owed (debt s' loc') k' ∧ k' + 1 ≤ k + price := by
  refine change_both h ho (fun u _ => congrFun hhttp u) htask hloc ?_ (fun m _ => congrFun hfd m)
    ?_ hle
  · intro m hm
    rw [hpc, Function.update_of_ne hm]
  · intro u hut hu
    obtain hnone | hsome := hholds
    · rw [hnone] at hu
      cases hu
    · exact absurd (Option.some.inj (hsome.symm.trans hu)).symm hut

end Change

variable [DecidableEq W] [DecidableEq P] [DecidableEq T] {s s' : State W P T} {a : Action W P T}

omit [DecidableEq W] [DecidableEq P] [DecidableEq T] in
/-- A task that no step moves keeps its place. -/
theorem Located.loc_eq {pend pend' : Pending (Process W P) T} {loc loc' : T → Option (Place W P)}
    (h : Located s pend loc) (h' : Located s' pend' loc') (hqueue : s'.queue = s.queue)
    (hholds : ∀ n, (s'.pc n).holds = (s.pc n).holds) (hsub : s'.subrequests = s.subrequests) :
    loc' = loc := by
  have hpend : pend' = pend := h'.represents.pending_eq (hqueue ▸ h.represents)
  have hat (t : T) (q : Place W P) : loc' t = some q ↔ loc t = some q := by
    rw [← h'.at_iff, ← h.at_iff]
    cases q with
    | list n => simp only [At, hpend]
    | held n => simp only [At, hholds]
    | subrequest => simp only [At, hsub]
  funext t
  exact Option.ext (hat t)

/-- A process that goes on without a task takes the step from what it owes itself. -/
theorem step_owes_aside {pend : Pending (Process W P) T} {loc : T → Option (Place W P)} {k : ℕ}
    {n : Process W P} (h : Located s pend loc) (ho : Owed (debt s loc) k) (hstep : Step s a s')
    (ha : s.aside a = some n) : ∃ k', Owed (debt s' loc) k' ∧ k' + 1 ≤ k + cost s a := by
  have hn := hstep.aside ha
  cases hstep with
  | readEvent hpc =>
    cases ha
    refine change_aside hn h ho (fun _ _ => rfl) ?_
    cases hawake : eventfdReadable (s.eventFd n) <;> simp [debt, hpc, cost, hawake]
  | writeEvent hpc =>
    cases ha
    refine change_aside hn h ho (fun _ _ => rfl) ?_
    cases hawake : eventfdReadable (s.eventFd n) <;> simp [debt, hpc, Mode.debt, cost, hawake]
  | read hpc =>
    cases ha
    refine change_aside hn h ho (fun _ hm => Function.update_of_ne hm _ _) ?_
    have hread : decide (0 < s.eventFd n) = eventfdReadable (s.eventFd n) := rfl
    cases hawake : eventfdReadable (s.eventFd n) <;>
      simp [debt, hpc, Mode.debt, cost, hread, hawake, eventfdReadable_zero]
  | @popWorker w m Q hpc hpop =>
    obtain rfl : .worker w = n := by simpa [State.aside, hpop] using ha
    refine change_aside hn h ho (fun _ _ => rfl) ?_
    simp [debt, hpc, Mode.debt_next]
    omega
  | @popProcessor p m Q hpc hpop =>
    obtain rfl : .processor p = n := by simpa [State.aside, hpop] using ha
    refine change_aside hn h ho (fun _ _ => rfl) ?_
    simp [debt, hpc, cost]
  | popTask hpc hpop | popWild hpc hpop => simp [State.aside, hpop] at ha
  | @signal p t i m hpc =>
    cases ha
    by_cases hi : i = .processor p
    · subst hi
      refine change_aside hn h ho (fun _ hm => Function.update_of_ne hm _ _) ?_
      have hwake := (Pc.draining m : Pc W P T).debt_awake
        (eventfdReadable (s.eventFd (.processor p)))
      simp only [Pc.debt_draining] at hwake
      simp [debt, hpc, eventfdReadable_write, cost]
      omega
    -- the processor pays for the wake-up of the process that it signals
    · have hwake := (s.pc i).debt_awake (eventfdReadable (s.eventFd i))
      refine ho.change_two (i := .inr i) (j := .inr (.processor p)) (by simpa using hi) ?_ ?_
      · rintro (u | l) hl hl'
        · exact hn.debt_task h u
        · have hli : l ≠ i := fun hli => hl (hli ▸ rfl)
          have hlp : l ≠ .processor p := fun hlp => hl' (hlp ▸ rfl)
          exact hn.debt_process hlp (Function.update_of_ne hli _ _)
      · simp [debt, hi, Ne.symm hi, hpc, eventfdReadable_write, cost]
        omega
  | @insert p m hpc =>
    cases ha
    refine change_aside hn h ho (fun _ _ => rfl) ?_
    simp [debt, hpc, Mode.debt_next]
  | _ => cases ha

omit [DecidableEq T] in
theorem holds_update {pc : Process W P → Pc W P T} {n : Process W P} {c : Pc W P T}
    (hc : c.holds = (pc n).holds) (m : Process W P) :
    (Function.update pc n c m).holds = (pc m).holds := by
  by_cases hm : m = n
  · subst hm
    rw [Function.update_self, hc]
  · rw [Function.update_of_ne hm]

/-- One step of the dispatch takes one unit of what is owed, or its action pays for it. -/
theorem step_owes {pend : Pending (Process W P) T} {loc : T → Option (Place W P)} {k : ℕ}
    (h : Located s pend loc) (ho : Owed (debt s loc) k) (hstep : Step s a s') :
    ∃ k', Owes s' k' ∧ k' + 1 ≤ k + cost s a := by
  have hstay : s'.queue = s.queue → (∀ n, (s'.pc n).holds = (s.pc n).holds) →
      s'.subrequests = s.subrequests →
      (∃ k', Owed (debt s' loc) k' ∧ k' + 1 ≤ k + cost s a) →
      ∃ k', Owes s' k' ∧ k' + 1 ≤ k + cost s a := by
    rintro hqueue hholds hsub ⟨k', ho', hle⟩
    obtain ⟨pend', loc', h', -⟩ := step_located h hstep
    obtain rfl := h.loc_eq h' hqueue hholds hsub
    exact ⟨k', ⟨pend', loc', h', ho'⟩, hle⟩
  have hmove : ∀ {pend' loc'}, Located s' pend' loc' →
      (∃ k', Owed (debt s' loc') k' ∧ k' + 1 ≤ k + cost s a) →
      ∃ k', Owes s' k' ∧ k' + 1 ≤ k + cost s a := by
    rintro pend' loc' h' ⟨k', ho', hle⟩
    exact ⟨k', ⟨pend', loc', h', ho'⟩, hle⟩
  rcases ha : s.aside a with _ | n
  swap
  · have hn := hstep.aside ha
    exact hmove (h.stay_aside hn) (step_owes_aside h ho hstep ha)
  cases hstep with
  | post hnew =>
    have hloc := h.loc_of_young (Or.inl hnew)
    refine hstay rfl (fun _ => rfl) rfl
      (change_task ho rfl rfl rfl (fun _ hu => Function.update_of_ne hu _ _) (fun _ _ => rfl) ?_)
    simp [debt, placeDebt, hloc, RequestPc.debt, cost]
  | takeNone hpc hc htake =>
    have hloc := h.loc_of_young (Or.inr (Or.inl hpc))
    refine hstay rfl (fun _ => rfl) rfl
      (change_task ho rfl rfl rfl (fun _ _ => rfl) (fun _ _ => rfl) ?_)
    simp [debt, placeDebt, hloc, RequestPc.debt, cost, hpc]
  | takeSome hpc hc htake =>
    have hloc := h.loc_of_young (Or.inr (Or.inl hpc))
    refine hstay rfl (fun _ => rfl) rfl
      (change_task ho rfl rfl rfl (fun _ hu => Function.update_of_ne hu _ _) (fun _ _ => rfl) ?_)
    simp [debt, placeDebt, hloc, RequestPc.debt, cost, hpc]
  | takeWild hpc hc htake =>
    have hloc := h.loc_of_young (Or.inr (Or.inl hpc))
    refine hstay rfl (fun _ => rfl) rfl
      (change_task ho rfl rfl rfl (fun _ _ => rfl) (fun _ _ => rfl) ?_)
    simp [debt, placeDebt, hloc, RequestPc.debt, cost, hpc]
  | refuse hpc hc =>
    have hloc := h.loc_of_young (Or.inr (Or.inr (Or.inr hpc)))
    refine hstay rfl (fun _ => rfl) rfl
      (change_task ho rfl rfl rfl (fun _ _ => rfl) (fun _ _ => rfl) ?_)
    simp [debt, placeDebt, hloc, RequestPc.debt, cost, hpc]
  | pushTaken hpc hc hp =>
    have hloc := h.loc_of_young (Or.inr (Or.inr (Or.inl hpc)))
    refine hmove (h.pushTaken hpc hc)
      (change_task ho rfl rfl rfl (fun _ _ => rfl) (fun _ hu => Function.update_of_ne hu _ _) ?_)
    simp [debt, placeDebt, hloc, RequestPc.debt, cost, hpc]
  | pushDone hpc hc hp =>
    have hloc := h.done _ hpc
    refine hmove (h.pushDone hpc hc)
      (change_task ho rfl rfl rfl (fun _ _ => rfl) (fun _ hu => Function.update_of_ne hu _ _) ?_)
    simp [debt, placeDebt, hloc, RequestPc.debt, RequestPc.done, cost, hpc]
  | @write t p hpc =>
    have hwake := (s.pc (.processor p)).debt_awake (eventfdReadable (s.eventFd (.processor p)))
    have hplace : placeDebt ((s.writeEventFd (.processor p)).setHttp t .rest) t (loc t) =
        placeDebt s t (loc t) :=
      placeDebt_congr (by simp [hpc, RequestPc.done]) rfl fun _ _ => rfl
    refine hstay rfl (fun _ => rfl) rfl (change_both h ho (fun _ hu => Function.update_of_ne hu _ _)
      (fun _ _ => rfl) (fun _ _ => rfl) (fun _ _ => rfl) (fun _ hu => Function.update_of_ne hu _ _)
      (fun _ _ _ => rfl) ?_)
    simp only [debt, hplace, cost]
    simp [RequestPc.debt, hpc, eventfdReadable_write]
    omega
  | subrequestAgain hpc hsub =>
    exact ⟨k, ⟨pend, loc, h, ho⟩, by simp [cost]⟩
  | subrequestDone hpc hsub =>
    have hloc := h.loc_of_subrequests hsub
    refine hstay rfl (fun _ => rfl) rfl
      (change_task ho rfl rfl rfl (fun _ _ => rfl) (fun _ _ => rfl) ?_)
    simp [debt, placeDebt, hloc, RequestPc.debt, RequestPc.done, cost, hpc]
  | readEvent | writeEvent | read | signal | insert => cases ha
  | popWorker _ hpop | popProcessor _ hpop => simp [State.aside, hpop] at ha
  | @popTask n t m Q hpc hpop =>
    have hloc : loc t = some (.list n) := by
      obtain ⟨ts, hn, -⟩ := h.represents.pop_node hpop
      exact (h.listed t n).mp (by simp [hn])
    obtain ⟨ts, h'⟩ := h.popTask hpc hpop
    refine hmove h' (change_holder h ho (Or.inl (by rw [hpc]; rfl)) rfl (fun _ _ => rfl)
      (fun _ hu => Function.update_of_ne hu _ _) rfl rfl ?_)
    cases n with
    | worker w =>
      simp only [debt, placeDebt, State.setPc, Function.update_self, hloc, hpc, Pc.debt_draining,
        Pc.debt_running]
      omega
    | processor p =>
      simp only [debt, placeDebt, State.setPc, Function.update_self, hloc, hpc, Pc.debt_draining,
        Pc.debt_running, Pc.hands, Bool.false_eq_true, if_false]
      omega
  | popWild hpc hpop => exact absurd hpop h.represents.pop_ne_queueHead
  | @finishRequest p t m c r hpc hc hr hd =>
    have hheld : (s.pc (.processor p)).holds = some t := by rw [hpc]; rfl
    have hloc : loc t = some (.held (.processor p)) := (h.held _ _).mp hheld
    refine hstay rfl (holds_update (n := .processor p) hheld.symm) rfl (change_holder h ho
      (Or.inr hheld) rfl (fun _ hu => Function.update_of_ne hu _ _) (fun _ _ => rfl) rfl rfl ?_)
    simp only [debt, placeDebt, State.setPc, State.setTask, Function.update_self, hloc, hpc,
      Pc.debt_handing, Pc.debt_running, Pc.hands, Bool.false_eq_true, if_true, if_false,
      Option.elim_some, TaskControl.debt, TaskControl.finishRequest, reduceCtorEq]
    omega
  | finishDropped hpc hc hr hd =>
    obtain ⟨w, hw⟩ := h.doneNotify _ _ hc
    simp [hd] at hw
  | @forwardRequest p t m c r hpc hc hr hd =>
    have hheld : (s.pc (.processor p)).holds = some t := by rw [hpc]; rfl
    have hloc : loc t = some (.held (.processor p)) := (h.held _ _).mp hheld
    refine hstay rfl (holds_update (n := .processor p) hheld.symm) rfl (change_holder h ho
      (Or.inr hheld) rfl (fun _ hu => Function.update_of_ne hu _ _) (fun _ _ => rfl) rfl rfl ?_)
    simp [debt, placeDebt, hloc, hpc, Pc.hands, cost, TaskControl.debt,
      TaskControl.forwardRequest]
    omega
  | forwardDropped hpc hc hr hd =>
    obtain ⟨w, hw⟩ := h.doneNotify _ _ hc
    simp [hd] at hw
  | @hand p t m c n hpc hc hn =>
    have hheld : (s.pc (.processor p)).holds = some t := by rw [hpc]; rfl
    have hloc : loc t = some (.held (.processor p)) := (h.held _ _).mp hheld
    obtain ⟨w, hw⟩ := h.doneNotify t c hc
    obtain rfl : n = .worker w := Option.some.inj (hn.symm.trans hw)
    refine hmove (h.hand hpc) (change_holder h ho (Or.inr hheld) rfl (fun _ _ => rfl)
      (fun _ hu => Function.update_of_ne hu _ _) rfl rfl ?_)
    simp [debt, placeDebt, hloc, hpc, Pc.hands, cost]
    omega
  | @requestFinish w t m c hpc hc hf =>
    have hheld : (s.pc (.worker w)).holds = some t := by rw [hpc]; rfl
    have hloc : loc t = some (.held (.worker w)) := (h.held _ _).mp hheld
    refine hmove (h.answer hpc) (change_holder h ho (Or.inr hheld) rfl (fun _ _ => rfl)
      (fun _ hu => Function.update_of_ne hu _ _) rfl rfl ?_)
    simp only [debt, placeDebt, State.setPc, Function.update_self, hloc, hpc, Pc.debt_draining,
      Pc.debt_running]
    omega
  | @requestFoward w t m c hpc hc hf =>
    have hheld : (s.pc (.worker w)).holds = some t := by rw [hpc]; rfl
    have hloc : loc t = some (.held (.worker w)) := (h.held _ _).mp hheld
    refine hmove (h.suspend hpc) (change_holder h ho (Or.inr hheld) rfl (fun _ _ => rfl)
      (fun _ hu => Function.update_of_ne hu _ _) rfl rfl ?_)
    cases hdone : (s.http t).done <;>
      simp only [debt, placeDebt, State.setPc, Function.update_self, hloc, hpc, Pc.debt_draining,
        Pc.debt_running, hc, hf, hdone, Option.elim_some, TaskControl.debt, if_true, if_false,
        Bool.false_eq_true] <;> omega
  | @requestFowardError w t m c hpc hc hf =>
    have hheld : (s.pc (.worker w)).holds = some t := by rw [hpc]; rfl
    have hloc : loc t = some (.held (.worker w)) := (h.held _ _).mp hheld
    refine hmove (h.lose hpc) (change_holder h ho (Or.inr hheld) rfl (fun _ _ => rfl)
      (fun _ hu => Function.update_of_ne hu _ _) rfl rfl ?_)
    simp only [debt, placeDebt, State.setPc, Function.update_self, hloc, hpc, Pc.debt_draining,
      Pc.debt_running]
    omega

theorem pays : Pays State.step cost (Owes : State W P T → ℕ → Prop) := by
  rintro s a s' k ⟨pend, loc, h, ho⟩ hstep
  exact step_owes h ho (step_cases hstep)

/-- In every run there are at most 24 steps for each request, 23 for each forward that a service
asks for, and 4 for each event that nobody caused. -/
theorem length_le_spent {as : List (Action W P T)}
    (h : exec State.step (.init : State W P T) as = some s) :
    as.length ≤ spent State.step cost (.init : State W P T) as := by
  obtain ⟨k', -, hle⟩ := pays.length_le init_owes h
  omega

theorem length_le_spent_forward :
    (forwardOnce true).length ≤ spent State.step cost (State.init : State Unit Unit Unit)
      (forwardOnce true) := by
  obtain ⟨s, hs⟩ := Option.isSome_iff_exists.mp
    (show (exec State.step (State.init : State Unit Unit Unit)
      (forwardOnce true)).isSome = true by decide)
  exact length_le_spent hs

/-! ## What goes on -/

/-- The actions of the processes, of nginx and of epoll that nobody outside asks for. nginx creates
every sub-request. -/
def onItsOwn (s : State W P T) : Action W P T → Bool
  | .post _ _ | .forwardRequest _ | .writeEvent _ => false
  | .readEvent n => eventfdReadable (s.eventFd n)
  | .subrequestDone _ again => !again
  | .requestFoward _ created => created
  | _ => true

/-- Some of these actions can be taken. -/
def GoesOn (s : State W P T) : Prop := ∃ a, onItsOwn s a = true ∧ (s.step a).isSome = true

/-- The control points of a process: a worker links itself nowhere and runs no closure. -/
def Pc.fits : Process W P → Pc W P T → Bool
  | .worker _, .handing _ _ | .worker _, .signalling _ _ _ | .worker _, .inserting _ => false
  | _, .wild => false
  | _, _ => true

/-- What lets the dispatch go on: every process and handler stands where it can, every list is
noticed, and every task that is on its way has a processor. -/
structure Live (s : State W P T) : Prop where
  fits : ∀ n, (s.pc n).fits n = true
  notWild : ∀ t, s.http t ≠ .wild
  created : ∀ t, s.task t = none → s.http t = .rest
  noticed : ∀ n, s.queue.prev (.queueHead n) ≠ .queueHead n → Noticed s n
  assigned : ∀ t c, s.task t = some c → s.http t = .taken ∨ s.accepted t = true →
    c.procNotify ≠ none
  known : ∀ t, Young s t ∨ s.accepted t = true ∨ s.finished t = 1

omit [DecidableEq W] [DecidableEq P] [DecidableEq T] in
theorem init_live : Live (State.init : State W P T) where
  fits n := by cases n <;> rfl
  notWild _ := by simp [State.init]
  created _ _ := rfl
  noticed n hn := absurd rfl hn
  assigned t c hc := by simp [State.init] at hc
  known t := Or.inl (Or.inl rfl)

omit [DecidableEq W] [DecidableEq P] [DecidableEq T] in
theorem Mode.fits_next (m : Mode) (n : Process W P) : (m.next : Pc W P T).fits n = true := by
  obtain _ | _ | _ := m <;> cases n <;> rfl

theorem step_fits (h : ∀ n, (s.pc n).fits n = true) {pend : Pending (Process W P) T}
    (hrep : Represents s.queue pend) (hstep : Step s a s') : ∀ n, (s'.pc n).fits n = true := by
  have hset {m : Process W P} {c : Pc W P T} (hpc : s'.pc = Function.update s.pc m c)
      (hc : c.fits m = true) : ∀ n, (s'.pc n).fits n = true := by
    intro n
    rw [hpc]
    by_cases hn : n = m
    · subst hn
      rwa [Function.update_self]
    · rw [Function.update_of_ne hn]
      exact h n
  cases hstep with
  | @readEvent n => exact hset rfl (by cases n <;> rfl)
  | @writeEvent n => exact hset rfl (by cases n <;> rfl)
  | @read n => exact hset rfl (by cases n <;> rfl)
  | popWorker => exact hset rfl (Mode.fits_next _ _)
  | popProcessor => exact hset rfl rfl
  | @popTask n => exact hset rfl (by cases n <;> rfl)
  | popWild _ hpop => exact absurd hpop hrep.pop_ne_queueHead
  | finishRequest | finishDropped | forwardRequest | forwardDropped | hand | signal =>
    exact hset rfl rfl
  | insert => exact hset rfl (Mode.fits_next _ _)
  | requestFinish | requestFoward | requestFowardError => exact hset rfl rfl
  | _ => exact h

theorem step_notWild (h : ∀ t, s.http t ≠ .wild) (htake : s.idles.take.2 ≠ some .queue)
    (hstep : Step s a s') : ∀ t, s'.http t ≠ .wild := by
  have hset {t : T} {c : RequestPc P} (hhttp : s'.http = Function.update s.http t c)
      (hc : c ≠ .wild) : ∀ t, s'.http t ≠ .wild := by
    intro u
    rw [hhttp]
    by_cases hut : u = t
    · subst hut
      rwa [Function.update_self]
    · rw [Function.update_of_ne hut]
      exact h u
  cases hstep with
  | post | takeNone | takeSome | refuse | pushTaken | pushDone | write | subrequestDone =>
    exact hset rfl (by simp)
  | takeWild _ _ hwild =>
    rw [hwild] at htake
    exact absurd rfl htake
  | _ => exact h

/-- A task is pushed to a processor only when it has one. -/
theorem step_procNotify {pend : Pending (Process W P) T} {loc : T → Option (Place W P)}
    (hl : Located s pend loc) (h : ∀ t c, s.task t = some c →
      s.http t = .taken ∨ s.accepted t = true → c.procNotify ≠ none)
    (hstep : Step s a s') (t : T) (c : TaskControl W P) (hc : s'.task t = some c)
    (ht : s'.http t = .taken ∨ s'.accepted t = true) : c.procNotify ≠ none := by
  -- a handler that goes on to a control point other than `taken`
  have hhandler {u : T} {j : RequestPc P} (hhttp : s'.http = Function.update s.http u j)
      (hj : j ≠ .taken) (htask : s'.task = s.task)
      (hacc : ∀ v, s'.accepted v = true → v = u ∧ (∀ d, s.task u = some d → d.procNotify ≠ none) ∨
        s.accepted v = true) : c.procNotify ≠ none := by
    rw [htask] at hc
    obtain ht | ht := ht
    · by_cases hut : t = u
      · rw [hhttp, hut, Function.update_self] at ht
        exact absurd ht hj
      · rw [hhttp, Function.update_of_ne hut] at ht
        exact h t c hc (Or.inl ht)
    · obtain ⟨rfl, hbooked⟩ | ht := hacc t ht
      · exact hbooked c hc
      · exact h t c hc (Or.inr ht)
  -- a closure that overwrites the fields of its task
  have hclosure {u : T} {d d' : TaskControl W P} (hd : s.task u = some d)
      (htask : s'.task = Function.update s.task u (some d')) (hproc : d'.procNotify = d.procNotify)
      (hhttp : s'.http = s.http) (hacc : s'.accepted = s.accepted) : c.procNotify ≠ none := by
    rw [hhttp, hacc] at ht
    by_cases hut : t = u
    · subst hut
      obtain rfl : d' = c := by simpa [htask] using hc
      rw [hproc]
      exact h t d hd ht
    · rw [htask, Function.update_of_ne hut] at hc
      exact h t c hc ht
  cases hstep with
  | @post w u hnew =>
    by_cases hut : t = u
    · subst hut
      have hacc := (hl.young t (Or.inl hnew)).1
      simp [hacc] at ht
    · have hold : s.task t = some c := by simpa [hut] using hc
      exact h t c hold (by simpa [hut] using ht)
  | takeNone => exact hhandler rfl (by simp) rfl fun _ => Or.inr
  | @takeSome u d I p hpc hd htake =>
    by_cases hut : t = u
    · subst hut
      obtain rfl : { d with procNotify := some p } = c := by simpa using hc
      simp
    · have hold : s.task t = some c := by simpa [hut] using hc
      exact h t c hold (by simpa [hut] using ht)
  | takeWild => exact hhandler rfl (by simp) rfl fun _ => Or.inr
  | refuse => exact hhandler rfl (by simp) rfl fun _ => Or.inr
  | @pushTaken u d p hpc hd hp =>
    refine hhandler rfl (by simp) rfl fun v hv => ?_
    by_cases hvu : v = u
    · exact Or.inl ⟨hvu, fun e he => h u e he (Or.inl hpc)⟩
    · exact Or.inr (by simpa [hvu] using hv)
  | pushDone => exact hhandler rfl (by simp) rfl fun _ => Or.inr
  | write => exact hhandler rfl (by simp) rfl fun _ => Or.inr
  | subrequestDone => exact hhandler rfl (by simp) rfl fun _ => Or.inr
  | finishRequest _ hd => exact hclosure hd rfl rfl rfl rfl
  | forwardRequest _ hd => exact hclosure hd rfl rfl rfl rfl
  | forwardDropped _ hd => exact hclosure hd rfl rfl rfl rfl
  | _ => exact h t c hc ht

/-- A request that is no longer young was accepted or answered. -/
theorem step_known {pend : Pending (Process W P) T} {loc : T → Option (Place W P)}
    (hl : Located s pend loc) (htake : s.idles.take.2 ≠ some .queue)
    (h : ∀ t, Young s t ∨ s.accepted t = true ∨ s.finished t = 1) (hstep : Step s a s') (t : T) :
    Young s' t ∨ s'.accepted t = true ∨ s'.finished t = 1 := by
  have hset {u : T} {j : RequestPc P} (hhttp : s'.http = Function.update s.http u j)
      (htask : ∀ v, v ≠ u → s'.task v = s.task v)
      (hacc : ∀ v, v ≠ u → s'.accepted v = s.accepted v)
      (hfin : ∀ v, v ≠ u → s'.finished v = s.finished v)
      (hu : Young s' u ∨ s'.accepted u = true ∨ s'.finished u = 1) :
      Young s' t ∨ s'.accepted t = true ∨ s'.finished t = 1 := by
    by_cases htu : t = u
    · exact htu ▸ hu
    · rw [Young, hhttp, Function.update_of_ne htu, htask t htu, hacc t htu, hfin t htu]
      exact h t
  have hother {β : Type} {f : T → β} {u : T} {b : β} (v : T) (hv : v ≠ u) :
      Function.update f u b v = f v := Function.update_of_ne hv b f
  have hstay (hhttp : s'.http = s.http) (htask : ∀ u, s'.task u = none ↔ s.task u = none)
      (hacc : s'.accepted = s.accepted) (hfin : s'.finished = s.finished) :
      Young s' t ∨ s'.accepted t = true ∨ s'.finished t = 1 := by
    rw [Young, hhttp, htask, hacc, hfin]
    exact h t
  have hclosure {u : T} {c d : TaskControl W P} (hc : s.task u = some c) (v : T) :
      Function.update s.task u (some d) v = none ↔ s.task v = none := by
    by_cases hvu : v = u
    · subst hvu
      simp [hc]
    · rw [Function.update_of_ne hvu]
  cases hstep with
  | post hnew =>
    exact hset rfl hother (fun _ _ => rfl) (fun _ _ => rfl) (Or.inl (Or.inr (Or.inl (by simp))))
  | takeNone =>
    exact hset rfl (fun _ _ => rfl) (fun _ _ => rfl) (fun _ _ => rfl)
      (Or.inl (Or.inr (Or.inr (Or.inr (by simp)))))
  | takeSome =>
    exact hset rfl hother (fun _ _ => rfl) (fun _ _ => rfl)
      (Or.inl (Or.inr (Or.inr (Or.inl (by simp)))))
  | takeWild _ _ hwild =>
    rw [hwild] at htake
    exact absurd rfl htake
  | @refuse u c hpc hc =>
    have hfin := (hl.young u (Or.inr (Or.inr (Or.inr hpc)))).2
    exact hset rfl (fun _ _ => rfl) (fun _ _ => rfl) hother (Or.inr (Or.inr (by simp [hfin])))
  | pushTaken =>
    exact hset rfl (fun _ _ => rfl) hother (fun _ _ => rfl) (Or.inr (Or.inl (by simp)))
  | @pushDone u c p hpc hc hp =>
    have hacc := hl.accepted (t := u) (by simp [hl.done u hpc])
    exact hset rfl (fun _ _ => rfl) (fun _ _ => rfl) (fun _ _ => rfl) (Or.inr (Or.inl hacc))
  | @write u p hpc =>
    refine hset rfl (fun _ _ => rfl) (fun _ _ => rfl) (fun _ _ => rfl) ?_
    obtain (hnone | hyoung) | hgrown := h u
    · exact Or.inl (Or.inl hnone)
    · simp [hpc] at hyoung
    · exact Or.inr hgrown
  | @subrequestDone u hpc hsub =>
    have hacc := hl.accepted (t := u) (by simp [hl.loc_of_subrequests hsub])
    exact hset rfl (fun _ _ => rfl) (fun _ _ => rfl) (fun _ _ => rfl) (Or.inr (Or.inl hacc))
  | finishRequest _ hc => exact hstay rfl (hclosure hc) rfl rfl
  | forwardRequest _ hc => exact hstay rfl (hclosure hc) rfl rfl
  | forwardDropped _ hc => exact hstay rfl (hclosure hc) rfl rfl
  | @requestFinish w u m c hpc =>
    by_cases htu : t = u
    · subst htu
      have hloc : loc t = some (.held (.worker w)) := (hl.held _ _).mp (by rw [hpc]; rfl)
      exact Or.inr (Or.inl (hl.accepted (by simp [hloc])))
    · simpa [Young, htu] using h t
  | _ => exact hstay rfl (fun _ => Iff.rfl) rfl rfl

theorem runs_live (h : Reachable State.step (.init : State W P T) s) : Live s := by
  refine h.invariant Live init_live ?_
  rintro s a s' hr hlive - hstep
  obtain ⟨pend, loc, hl⟩ := runs_located hr
  have htake := take_ne_queue hr
  exact {
    fits := step_fits hlive.fits hl.represents (step_cases hstep)
    notWild := step_notWild hlive.notWild htake (step_cases hstep)
    created := step_created hl hlive.created (step_cases hstep)
    noticed := fun n =>
      step_noticed hl.represents hlive.created (step_cases hstep) (hlive.noticed n)
    assigned := step_procNotify hl hlive.assigned (step_cases hstep)
    known := step_known hl htake hlive.known (step_cases hstep) }

/-! ## When nothing goes on -/

/-- A process that does not rest goes on. -/
theorem Live.goesOn_process {pend : Pending (Process W P) T} (hlive : Live s) (h : Routed s pend)
    {n : Process W P} (hn : s.pc n ≠ .rest) : GoesOn s := by
  have hfits := hlive.fits n
  cases hpc : s.pc n with
  | rest => exact absurd hpc hn
  | reading => exact ⟨.read n, rfl, by simp [State.step, State.read, hpc]⟩
  | draining m =>
    refine ⟨.pop n, rfl, ?_⟩
    simp only [State.step, State.pop, hpc]
    split <;> rfl
  | running t m =>
    obtain ⟨c, hc, hnotify, haff⟩ := h.running n t m hpc
    obtain ⟨w, hdone, -⟩ := h.task t c hc
    cases n with
    | processor p =>
      refine ⟨.finishRequest p, rfl, ?_⟩
      have hchannel : ∃ r, c.channelRequest = some r := by
        simp only [TaskControl.closureAt] at haff
        generalize hclosure : c.closure = d at haff
        cases haff with
        | method _ r => exact ⟨r, by rw [TaskControl.channelRequest, hclosure]⟩
        | fowardDone _ r => exact ⟨r, by rw [TaskControl.channelRequest, hclosure]⟩
      obtain ⟨r, hr⟩ := hchannel
      simp [State.step, State.finishRequest, hpc, hc, hr]
    | worker v =>
      simp only [TaskControl.closureAt] at haff
      generalize hfinish : c.finish = d at haff
      cases haff with
      | requestFoward =>
        exact ⟨.requestFoward v true, rfl, by
          simp [State.step, State.requestFoward, hpc, hc, hfinish]⟩
      | requestFinish =>
        exact ⟨.requestFinish v, rfl, by
          simp [State.step, State.requestFinish, hpc, hc, hfinish]⟩
  | handing t m =>
    obtain ⟨c, w, hc, hdone, -⟩ := h.handing n t m hpc
    cases n with
    | worker v => simp [hpc, Pc.fits] at hfits
    | processor p => exact ⟨.hand p, rfl, by simp [State.step, State.hand, hpc, hc, hdone]⟩
  | signalling t l m =>
    cases n with
    | worker v => simp [hpc, Pc.fits] at hfits
    | processor p => exact ⟨.signal p, rfl, by simp [State.step, State.signal, hpc]⟩
  | inserting m =>
    cases n with
    | worker v => simp [hpc, Pc.fits] at hfits
    | processor p => exact ⟨.insert p, rfl, by simp [State.step, State.insert, hpc]⟩
  | wild => cases n <;> simp [hpc, Pc.fits] at hfits

/-- A handler of a request that does not rest goes on. -/
theorem Live.goesOn_request {pend : Pending (Process W P) T} {loc : T → Option (Place W P)}
    (hlive : Live s) (h : Located s pend loc) {t : T} (ht : s.http t ≠ .rest) : GoesOn s := by
  obtain ⟨c, hc⟩ := Option.ne_none_iff_exists'.mp fun hnone => ht (hlive.created t hnone)
  have hpush (hproc : c.procNotify ≠ none) (hpc : s.http t = .taken ∨ s.http t = .subrequestDone) :
      GoesOn s := by
    obtain ⟨p, hp⟩ := Option.ne_none_iff_exists'.mp hproc
    obtain hpc | hpc := hpc
    · exact ⟨.push t, rfl, by simp [State.step, State.push, hpc, hc, hp]⟩
    · exact ⟨.push t, rfl, by simp [State.step, State.push, hpc, hc, hp]⟩
  cases hpc : s.http t with
  | rest => exact absurd hpc ht
  | posted =>
    refine ⟨.take t, rfl, ?_⟩
    simp only [State.step, State.take, hpc, hc]
    split <;> rfl
  | taken => exact hpush (hlive.assigned t c hc (Or.inl hpc)) (Or.inl hpc)
  | refused => exact ⟨.refuse t, rfl, by simp [State.step, State.refuse, hpc, hc]⟩
  | subrequestDone =>
    have hacc := h.accepted (t := t) (by simp [h.done t hpc])
    exact hpush (hlive.assigned t c hc (Or.inr hacc)) (Or.inr hpc)
  | signalling p => exact ⟨.write t, rfl, by simp [State.step, State.write, hpc]⟩
  | wild => exact absurd hpc (hlive.notWild t)

/-- Every process and handler rests, nothing is pending, and every request that was posted is
answered, once. -/
structure Settled (s : State W P T) : Prop where
  process : ∀ n, s.pc n = .rest
  request : ∀ t, s.http t = .rest
  eventFd : ∀ n, s.eventFd n = 0
  queue : ∀ n, s.queue.prev (.queueHead n) = .queueHead n
  subrequests : ∀ t, s.subrequests t = 0
  answered : ∀ t, s.task t ≠ none → s.finished t = 1

theorem runs_kept (h : RunsTo State.step SubrequestsCreated (.init : State W P T) s) :
    Reachable State.step .init s ∧ ∃ pend loc, Located s pend loc ∧ Kept s loc := by
  refine h.invariant (fun s => Reachable State.step .init s ∧ ∃ pend loc, Located s pend loc ∧
    Kept s loc) ⟨.start, _, _, init_located, by simp [Kept, State.init]⟩ ?_
  rintro s a s' - ⟨hr, pend, loc, hl, hk⟩ hok hstep
  obtain ⟨pend', loc', hl', hk'⟩ := step_located hl (step_cases hstep)
  exact ⟨hr.next trivial hstep, pend', loc', hl', hk' hok hk⟩

/-- The dispatch does not get stuck: where nothing goes on, everything is done. -/
theorem settled_of_not_goesOn (h : RunsTo State.step SubrequestsCreated (.init : State W P T) s)
    (hstuck : ¬GoesOn s) : Settled s := by
  obtain ⟨hr, pend, loc, hl, hk⟩ := runs_kept h
  have hlive := runs_live hr
  obtain ⟨pend', hrouted⟩ := runs_routed hr
  have hprocess (n : Process W P) : s.pc n = .rest := by
    by_contra hn
    exact hstuck (hlive.goesOn_process hrouted hn)
  have hrequest (t : T) : s.http t = .rest := by
    by_contra ht
    exact hstuck (hlive.goesOn_request hl ht)
  have heventFd (n : Process W P) : s.eventFd n = 0 := by
    by_contra hn
    exact hstuck ⟨.readEvent n, (eventfdReadable_iff _).mpr (Nat.pos_of_ne_zero hn), by
      simp [State.step, State.readEvent, hprocess n]⟩
  have hsubrequests (t : T) : s.subrequests t = 0 := by
    by_contra ht
    exact hstuck ⟨.subrequestDone t false, rfl, by
      simp [State.step, State.subrequestDone, hrequest t, Nat.pos_of_ne_zero ht]⟩
  -- a list that is not empty would be noticed by a process that does not rest
  have hqueue (n : Process W P) : s.queue.prev (.queueHead n) = .queueHead n := by
    by_contra hn
    obtain hfd | (⟨t, p, -, ht⟩ | ⟨p, t, m, hp⟩) | hpop := hlive.noticed n hn
    · rw [heventFd n] at hfd
      exact Nat.lt_irrefl 0 hfd
    · rw [hrequest t] at ht
      cases ht
    · rw [hprocess] at hp
      cases hp
    · rw [hprocess n] at hpop
      cases hpop
  refine ⟨hprocess, hrequest, heventFd, hqueue, hsubrequests, fun t ht => ?_⟩
  obtain (hnone | hyoung) | hacc | hfin := hlive.known t
  · exact absurd hnone ht
  · simp [hrequest t] at hyoung
  · obtain hfin | ⟨hfin, -⟩ := hl.finished t
    · exfalso
      obtain ⟨q, hq⟩ := Option.ne_none_iff_exists'.mp (hk t hacc hfin)
      cases q with
      | list n =>
        have hmem : t ∈ pend n := (hl.listed t n).mpr hq
        rw [(hl.represents.empty_iff n).mp (hqueue n)] at hmem
        cases hmem
      | held n =>
        have hheld := (hl.held t n).mpr hq
        rw [hprocess n] at hheld
        cases hheld
      | subrequest =>
        have hsub := (hl.at_iff t .subrequest).mpr hq
        simp only [At, hsubrequests t] at hsub
        exact Nat.lt_irrefl 0 hsub
    · exact hfin
  · exact hfin

omit [DecidableEq W] [DecidableEq P] [DecidableEq T] in
theorem onItsOwn_free (s : State W P T) (a : Action W P T) (h : onItsOwn s a = true) :
    cost s a = 0 ∧ SubrequestsCreated s a := by
  refine ⟨?_, ?_⟩
  · cases a <;> simp_all [onItsOwn, cost]
  · rintro w rfl
    cases h

/-- From every state that is reached, what goes on on its own comes to an end, whatever order the
processes take; and as long as some request is not answered, something goes on. -/
theorem runs_settle (h : RunsTo State.step SubrequestsCreated (.init : State W P T) s) :
    ∃ bound, ∀ as s', run State.step onItsOwn s as = some s' →
      as.length ≤ bound ∧ (GoesOn s' ∨ Settled s') := by
  obtain ⟨hr, -⟩ := runs_kept h
  have howes : ∃ k, Owes s k := by
    refine hr.invariant (fun s => ∃ k, Owes s k) ⟨0, init_owes⟩ ?_
    rintro s a s' - ⟨k, hk⟩ - hstep
    obtain ⟨k', hk', -⟩ := pays s a s' k hk hstep
    exact ⟨k', hk'⟩
  obtain ⟨k, hk⟩ := howes
  refine ⟨k, fun as s' hrun => ⟨pays.free_length_le (fun s a ha => (onItsOwn_free s a ha).1) hk
    hrun, ?_⟩⟩
  have hs' := h.trans (runsTo_of_run (fun s a ha => (onItsOwn_free s a ha).2) hrun)
  by_cases hgo : GoesOn s'
  · exact Or.inl hgo
  · exact Or.inr (settled_of_not_goesOn hs' hgo)

theorem runs_settle_request :
    ∃ s : State Unit Unit Unit,
      run State.step subrequestsCreated .init (startUp () ++ request () ()) = some s ∧
        ∃ bound, ∀ as s', run State.step onItsOwn s as = some s' →
          as.length ≤ bound ∧ (GoesOn s' ∨ Settled s') := by
  obtain ⟨s, hs⟩ := Option.isSome_iff_exists.mp
    (show (run State.step subrequestsCreated (State.init : State Unit Unit Unit)
      (startUp () ++ request () ())).isSome = true by decide)
  exact ⟨s, hs, runs_settle (runsTo_of_run subrequestsCreated_sound hs)⟩

end NgxRpc
