import NgxRpc.Custody

/-!
# The processes a task's pointers are used in

A task is shared by all processes, but `closure.p1` and `finish.p1` point into the memory
of one of them. Every hop installs a handler with the argument it expects and then pushes
the task to the process this argument belongs to, so a pointer is used at home only.

## Main definitions

- `Affine` — a handler with its own kind of argument, in the process it belongs to
- `Routed` — wherever a task is linked or run, its closure there is affine

## Main results

- `pointers_affine` — every handler a process runs is affine, in every run
-/

namespace NgxRpc
open CircularList Transition

variable {W P T : Type}

/-- The closure process `n` runs when it has popped the task: workers run `finish`,
processors run `closure`. -/
def TaskControl.closureAt (c : TaskControl W P) : Process W P → TaskClosure W P
  | .worker _ => c.finish
  | .processor _ => c.closure

/-- The handler is the one installed for its argument, and the argument is valid in the
process: an rpc context is shared memory, a channel belongs to the processor that created
it, and a request to the worker that accepted it. -/
inductive Affine : Process W P → TaskClosure W P → Prop where
  | method (p : P) (r : W) : Affine (.processor p) ⟨.method, .rpcCtx r⟩
  | fowardDone (p : P) (r : W) : Affine (.processor p) ⟨.fowardDone, .channel p r⟩
  | requestFoward (r : W) : Affine (.worker r) ⟨.requestFoward, .request r⟩
  | requestFinish (r : W) : Affine (.worker r) ⟨.requestFinish, .request r⟩

/-- The notify object the task is pushed to on its way to process `n`. -/
def TaskControl.notifyAt (c : TaskControl W P) : Process W P → Option (Process W P)
  | .worker _ => c.doneNotify
  | .processor _ => c.procNotify.map .processor

/-- Process `n` may run task `t`. -/
def Ready (s : State W P T) (n : Process W P) (t : T) : Prop :=
  ∃ c, s.task t = some c ∧ c.notifyAt n = some n ∧ Affine n (c.closureAt n)

/-- Task `t` may be pushed to its `done_notify`. -/
def Handed (s : State W P T) (t : T) : Prop :=
  ∃ c w, s.task t = some c ∧ c.doneNotify = some (.worker w) ∧ Affine (.worker w) c.finish

/-- The fields of a task after it was created in worker `w`: its closure is that of the
method, or `foward_done` with a channel of the processor in `proc_notify`. -/
inductive Kindred (w : W) (c : TaskControl W P) : Prop where
  | method (hclosure : c.closure = ⟨.method, .rpcCtx w⟩)
  | fowardDone {p : P} (hclosure : c.closure = ⟨.fowardDone, .channel p w⟩)
      (hproc : c.procNotify = some p)

/-- Every task that is linked or run can be run where it is. -/
structure Routed (s : State W P T) (pend : Pending (Process W P) T) : Prop where
  represents : Represents s.queue pend
  task : ∀ t c, s.task t = some c → ∃ w, c.doneNotify = some (.worker w) ∧ Kindred w c
  posted : ∀ t c, s.http t = .posted → s.task t = some c → ∃ w, c = .posted w
  listed : ∀ n t, t ∈ pend n → Ready s n t
  running : ∀ n t m, s.pc n = .running t m → Ready s n t
  handing : ∀ n t m, s.pc n = .handing t m → Handed s t

theorem init_routed : Routed (State.init : State W P T) fun _ => [] :=
  ⟨represents_isolated, by simp [State.init], by simp [State.init], by simp, by simp [State.init],
    by simp [State.init]⟩

/-- A task whose `proc_notify` is set can be run by that processor. -/
theorem Kindred.affine {w : W} {c : TaskControl W P} {p : P} (h : Kindred w c)
    (hp : c.procNotify = some p) : Affine (.processor p) c.closure := by
  cases h with
  | method hclosure =>
    rw [hclosure]
    exact .method p w
  | @fowardDone q hclosure hproc =>
    obtain rfl : q = p := Option.some.inj (hproc.symm.trans hp)
    rw [hclosure]
    exact .fowardDone q w

/-- The request pointer of the channel in hand is that of the worker. -/
theorem Kindred.channelRequest {w r : W} {c : TaskControl W P} (h : Kindred w c)
    (hr : c.channelRequest = some r) : r = w := by
  cases h with
  | method hclosure => simpa [TaskControl.channelRequest, hclosure] using hr.symm
  | fowardDone hclosure hproc => simpa [TaskControl.channelRequest, hclosure] using hr.symm

/-- A task that was just posted can be run nowhere yet. -/
theorem not_ready_posted {s : State W P T} {n : Process W P} {t : T} {w : W}
    (ht : s.task t = some (.posted w)) : ¬Ready s n t := by
  rintro ⟨c, hc, hn, haff⟩
  obtain rfl : TaskControl.posted w = c := Option.some.inj (ht.symm.trans hc)
  cases n with
  | worker v => cases haff
  | processor p => cases hn

theorem Ready.congr {s s' : State W P T} {n : Process W P} {t : T} (h : Ready s n t)
    (ht : s'.task t = s.task t) : Ready s' n t := by
  obtain ⟨c, hc, hrest⟩ := h
  exact ⟨c, ht.trans hc, hrest⟩

theorem Handed.congr {s s' : State W P T} {t : T} (h : Handed s t)
    (ht : s'.task t = s.task t) : Handed s' t := by
  obtain ⟨c, w, hc, hrest⟩ := h
  exact ⟨c, w, ht.trans hc, hrest⟩

namespace Routed

variable {s s' : State W P T} {pend : Pending (Process W P) T} {n : Process W P} {t : T}

/-- A step that changes no list and no task, and leaves every process where it may be. -/
theorem stay (h : Routed s pend) (hqueue : s'.queue = s.queue) (htask : s'.task = s.task)
    (hposted : ∀ t, s'.http t = .posted → s.http t = .posted)
    (hrun : ∀ n t m, s'.pc n = .running t m → Ready s n t)
    (hhand : ∀ n t m, s'.pc n = .handing t m → Handed s t) : Routed s' pend where
  represents := hqueue ▸ h.represents
  task := htask ▸ h.task
  posted u c hu hc := h.posted u c (hposted u hu) (htask ▸ hc)
  listed m u hu := (h.listed m u hu).congr (congrFun htask u)
  running m u k hu := (hrun m u k hu).congr (congrFun htask u)
  handing m u k hu := (hhand m u k hu).congr (congrFun htask u)

variable [DecidableEq T]

/-- The fields of one task are overwritten: what could be run still can. -/
theorem setTask (h : Routed s pend) {c' : TaskControl W P}
    (hqueue : s'.queue = s.queue) (htask : s'.task = Function.update s.task t (some c'))
    (hc' : ∃ w, c'.doneNotify = some (.worker w) ∧ Kindred w c')
    (hposted : ∀ u, s'.http u = .posted → u ≠ t ∧ s.http u = .posted ∨
      u = t ∧ ∃ w, c' = .posted w)
    (hready : ∀ n, Ready s n t → Ready s' n t)
    (hrun : ∀ n u m, s'.pc n = .running u m → s.pc n = .running u m)
    (hhand : ∀ n u m, s'.pc n = .handing u m → u ≠ t ∧ s.pc n = .handing u m ∨ Handed s' u) :
    Routed s' pend := by
  have hother : ∀ u, u ≠ t → s'.task u = s.task u := by
    intro u hu
    rw [htask, Function.update_of_ne hu]
  have hkeep : ∀ n u, Ready s n u → Ready s' n u := by
    intro n u hu
    by_cases hut : u = t
    · subst hut
      exact hready n hu
    · exact hu.congr (hother u hut)
  refine ⟨hqueue ▸ h.represents, ?_, ?_, ?_, ?_, ?_⟩
  · intro u c hc
    by_cases hut : u = t
    · subst hut
      obtain rfl : c' = c := by simpa [htask] using hc
      exact hc'
    · exact h.task u c (by rwa [← hother u hut])
  · intro u c hu hc
    obtain ⟨hut, hu⟩ | ⟨rfl, w, hw⟩ := hposted u hu
    · exact h.posted u c hu (by rwa [← hother u hut])
    · exact ⟨w, by rw [← hw]; simpa [htask] using hc.symm⟩
  · exact fun m u hu => hkeep m u (h.listed m u hu)
  · exact fun m u k hu => hkeep m u (h.running m u k (hrun m u k hu))
  · intro m u k hu
    obtain ⟨hut, hu⟩ | hu := hhand m u k hu
    · exact (h.handing m u k hu).congr (hother u hut)
    · exact hu

variable [DecidableEq W] [DecidableEq P]

omit [DecidableEq T] in
/-- One process goes on to a control point where it is not inside a handler. -/
theorem stay_process (h : Routed s pend) {c : Pc W P T} (hqueue : s'.queue = s.queue)
    (htask : s'.task = s.task) (hhttp : s'.http = s.http)
    (hpc : s'.pc = Function.update s.pc n c) (hc : c.holds = none) : Routed s' pend := by
  have hother : ∀ m, (s'.pc m).holds ≠ none → s'.pc m = s.pc m := by
    intro m hm
    by_cases hmn : m = n
    · subst hmn
      simp [hpc, hc] at hm
    · rw [hpc, Function.update_of_ne hmn]
  apply h.stay hqueue htask (fun u hu => hhttp ▸ hu)
  · intro m u k hu
    exact h.running m u k (by rw [← hother m (by simp [hu, Pc.holds]), hu])
  · intro m u k hu
    exact h.handing m u k (by rw [← hother m (by simp [hu, Pc.holds]), hu])

omit [DecidableEq W] [DecidableEq P] in
/-- A handler that goes on to `c` posts no task. -/
theorem posted_of_update {c : RequestPc P} (hhttp : s'.http = Function.update s.http t c)
    (hc : c ≠ .posted) : ∀ u, s'.http u = .posted → s.http u = .posted := by
  intro u hu
  by_cases hut : u = t
  · subst hut
    exact absurd (by simpa [hhttp] using hu) hc
  · simpa [hhttp, hut] using hu

omit [DecidableEq W] [DecidableEq P] in
/-- One handler of a worker goes on. -/
theorem stay_handler (h : Routed s pend) {c : RequestPc P} (hqueue : s'.queue = s.queue)
    (htask : s'.task = s.task) (hhttp : s'.http = Function.update s.http t c) (hc : c ≠ .posted)
    (hpc : s'.pc = s.pc) : Routed s' pend := by
  exact h.stay hqueue htask (posted_of_update hhttp hc) (hpc ▸ h.running) (hpc ▸ h.handing)

/-- A task that process `n` may run is appended to its list. -/
theorem push (h : Routed s pend) (hout : ∀ m, t ∉ pend m) (ht : Ready s n t)
    (hqueue : s'.queue = notifyPushTask s.queue n (.node t)) (htask : s'.task = s.task)
    (hposted : ∀ u, s'.http u = .posted → s.http u = .posted)
    (hinside : ∀ m, (s'.pc m).holds ≠ none → s'.pc m = s.pc m) :
    Routed s' (Function.update pend n (pend n ++ [t])) := by
  refine ⟨hqueue ▸ h.represents.push n hout, htask ▸ h.task, ?_, ?_, ?_, ?_⟩
  · exact fun u c hu hc => h.posted u c (hposted u hu) (htask ▸ hc)
  · intro m u hu
    by_cases hm : m = n
    · subst hm
      simp only [Function.update_self, List.mem_append, List.mem_singleton] at hu
      obtain hu | rfl := hu
      · exact (h.listed m u hu).congr (congrFun htask u)
      · exact ht.congr (congrFun htask u)
    · rw [Function.update_of_ne hm] at hu
      exact (h.listed m u hu).congr (congrFun htask u)
  · intro m u k hu
    have hsame := hinside m (by simp [hu, Pc.holds])
    exact (h.running m u k (hsame ▸ hu)).congr (congrFun htask u)
  · intro m u k hu
    have hsame := hinside m (by simp [hu, Pc.holds])
    exact (h.handing m u k (hsame ▸ hu)).congr (congrFun htask u)

/-- Process `n` takes the front task of its list. -/
theorem pop (h : Routed s pend) {m : Mode}
    (hpop : notifyPopTask s.queue n = (s'.queue, some (.node t)))
    (htask : s'.task = s.task) (hhttp : s'.http = s.http)
    (hpc : s'.pc = Function.update s.pc n (.running t m)) :
    ∃ ts, Routed s' (Function.update pend n ts) := by
  obtain ⟨ts, hn, hrep⟩ := h.represents.pop_node hpop
  refine ⟨ts, hrep, htask ▸ h.task, ?_, ?_, ?_, ?_⟩
  · exact fun u c hu hc => h.posted u c (hhttp ▸ hu) (htask ▸ hc)
  · intro k u hu
    have hold : u ∈ pend k := by
      by_cases hk : k = n
      · subst hk
        rw [Function.update_self] at hu
        simp [hn, hu]
      · rwa [Function.update_of_ne hk] at hu
    exact (h.listed k u hold).congr (congrFun htask u)
  · intro k u j hu
    by_cases hk : k = n
    · subst hk
      obtain ⟨rfl, -⟩ : t = u ∧ m = j := by simpa [hpc] using hu
      exact (h.listed k t (by simp [hn])).congr (congrFun htask t)
    · exact (h.running k u j (by simpa [hpc, hk] using hu)).congr (congrFun htask u)
  · intro k u j hu
    by_cases hk : k = n
    · subst hk
      simp [hpc] at hu
    · exact (h.handing k u j (by simpa [hpc, hk] using hu)).congr (congrFun htask u)

/-- A closure of `t` installs a finish handler that its worker may run, and in the closure
nothing or a channel of its own. -/
theorem reroute (h : Routed s pend) {p : P} {m : Mode} {c c' : TaskControl W P} {w : W}
    (hpc : s.pc (.processor p) = .running t m) (hc : s.task t = some c)
    (hproc : c'.procNotify = c.procNotify) (hdone : c'.doneNotify = some (.worker w))
    (hsame : c.doneNotify = some (.worker w)) (hkin : Kindred w c')
    (hfinish : Affine (.worker w) c'.finish) :
    Routed ((s.setTask t c').setPc (.processor p) (.handing t m)) pend := by
  refine h.setTask rfl rfl ⟨w, hdone, hkin⟩ ?_ ?_ ?_ ?_
  · intro u hu
    by_cases hut : u = t
    -- a posted task has no `proc_notify`, so no processor runs it
    · subst hut
      obtain ⟨v, rfl⟩ := h.posted u c hu hc
      exact absurd (h.running _ _ _ hpc) (not_ready_posted hc)
    · exact Or.inl ⟨hut, hu⟩
  · rintro n ⟨d, hd, hn, -⟩
    obtain rfl : c = d := Option.some.inj (hc.symm.trans hd)
    refine ⟨c', by simp, ?_⟩
    cases n with
    | worker v =>
      obtain rfl : w = v := by simpa [TaskControl.notifyAt, hsame] using hn
      exact ⟨hdone, hfinish⟩
    | processor q =>
      simp only [TaskControl.notifyAt, Option.map_eq_some_iff, Process.processor.injEq,
        exists_eq_right] at hn ⊢
      exact ⟨hproc.trans hn, hkin.affine (hproc.trans hn)⟩
  · intro n u k hu
    by_cases hnp : n = .processor p
    · subst hnp
      simp at hu
    · simpa [hnp] using hu
  · intro n u k hu
    by_cases hut : u = t
    · subst hut
      exact Or.inr ⟨c', w, by simp, hdone, hfinish⟩
    · by_cases hnp : n = .processor p
      · subst hnp
        exact absurd (by simpa using hu : t = u ∧ m = k).1.symm hut
      · exact Or.inl ⟨hut, by simpa [hnp] using hu⟩

end Routed

variable [DecidableEq W] [DecidableEq P] [DecidableEq T] {s s' : State W P T} {a : Action W P T}

omit [DecidableEq W] [DecidableEq P] [DecidableEq T] in
/-- A task that is pushed to its `proc_notify` can be run there. -/
theorem Routed.ready_processor {pend : Pending (Process W P) T} {t : T} {c : TaskControl W P}
    {p : P} (h : Routed s pend) (hc : s.task t = some c) (hp : c.procNotify = some p) :
    Ready s (.processor p) t := by
  obtain ⟨w, -, hkin⟩ := h.task t c hc
  exact ⟨c, hc, by simp [TaskControl.notifyAt, hp], hkin.affine hp⟩

/-- The handler of a task pushes it to its `proc_notify`. -/
theorem Routed.push_handler {pend : Pending (Process W P) T} {t : T} {c : TaskControl W P} {p : P}
    {j : RequestPc P} (h : Routed s pend) (hc : s.task t = some c) (hp : c.procNotify = some p)
    (hout : ∀ m, t ∉ pend m)
    (hqueue : s'.queue = notifyPushTask s.queue (.processor p) (.node t)) (htask : s'.task = s.task)
    (hhttp : s'.http = Function.update s.http t j) (hj : j ≠ .posted) (hpc : s'.pc = s.pc) :
    Routed s' (Function.update pend (.processor p) (pend (.processor p) ++ [t])) := by
  exact h.push hout (h.ready_processor hc hp) hqueue htask (posted_of_update hhttp hj)
    fun m _ => congrFun hpc m

/-- One step keeps every task where it can be run. -/
theorem step_routed {pend : Pending (Process W P) T} {loc : T → Option (Place W P)}
    (hl : Located s pend loc) (h : Routed s pend) (hstep : Step s a s') :
    ∃ pend', Routed s' pend' := by
  rcases ha : s.aside a with _ | n
  swap
  · have hn := hstep.aside ha
    obtain ⟨c, hc, hpc⟩ := hn.after
    exact ⟨pend, h.stay_process hn.queue hn.task hn.http hpc hc⟩
  cases hstep with
  | @post w t hnew =>
    refine ⟨pend, h.setTask rfl rfl ⟨w, rfl, .method rfl⟩ ?_ ?_ (fun _ _ _ hu => hu) ?_⟩
    · intro u hu
      by_cases hut : u = t
      · exact Or.inr ⟨hut, w, rfl⟩
      · exact Or.inl ⟨hut, by simpa [hut] using hu⟩
    · rintro n ⟨c, hc, -⟩
      rw [hnew] at hc
      cases hc
    · intro n u m hu
      refine Or.inl ⟨?_, hu⟩
      rintro rfl
      obtain ⟨c, v, hc, -⟩ := h.handing n u m hu
      rw [hnew] at hc
      cases hc
  | takeNone hpc hc htake => exact ⟨pend, h.stay_handler rfl rfl rfl (by simp) rfl⟩
  | @takeSome t c I p hpc hc htake =>
    obtain ⟨w, rfl⟩ := h.posted t c hpc hc
    refine ⟨pend, h.setTask rfl rfl ⟨w, rfl, .method rfl⟩ ?_ ?_ (fun _ _ _ hu => hu) ?_⟩
    · intro u hu
      by_cases hut : u = t
      · subst hut
        simp at hu
      · exact Or.inl ⟨hut, by simpa [hut] using hu⟩
    · exact fun n hn => absurd hn (not_ready_posted hc)
    · intro n u m hu
      refine Or.inl ⟨?_, hu⟩
      rintro rfl
      obtain ⟨d, v, hd, -, haff⟩ := h.handing n u m hu
      obtain rfl := Option.some.inj (hc.symm.trans hd)
      cases haff
  | takeWild hpc hc htake => exact ⟨pend, h.stay_handler rfl rfl rfl (by simp) rfl⟩
  | refuse hpc hc => exact ⟨pend, h.stay_handler rfl rfl rfl (by simp) rfl⟩
  | @pushTaken t c p hpc hc hp =>
    have hloc : loc t = none := hl.loc_of_young (Or.inr (Or.inr (Or.inl hpc)))
    exact ⟨_, h.push_handler hc hp (hl.not_mem (by simp [hloc])) rfl rfl rfl (by simp) rfl⟩
  | @pushDone t c p hpc hc hp =>
    have hloc : loc t = some .subrequest := hl.done t hpc
    exact ⟨_, h.push_handler hc hp (hl.not_mem (by simp [hloc])) rfl rfl rfl (by simp) rfl⟩
  | write hpc => exact ⟨pend, h.stay_handler rfl rfl rfl (by simp) rfl⟩
  | subrequestAgain hpc hsub => exact ⟨pend, h⟩
  | subrequestDone hpc hsub => exact ⟨pend, h.stay_handler rfl rfl rfl (by simp) rfl⟩
  | readEvent | writeEvent | read | signal | insert => cases ha
  | popWorker _ hpop | popProcessor _ hpop => simp [State.aside, hpop] at ha
  | @popTask n t m Q hpc hpop =>
    have hr : ∃ ts, Routed (State.setPc { s with
        queue := Q
        ran := Function.update s.ran t (s.ran t + 1) } n (.running t m))
        (Function.update pend n ts) := h.pop hpop rfl rfl rfl
    obtain ⟨ts, hr⟩ := hr
    exact ⟨_, hr⟩
  | popWild hpc hpop => exact absurd hpop h.represents.pop_ne_queueHead
  | @finishRequest p t m c r hpc hc hr hd =>
    obtain ⟨w, hdone, hkin⟩ := h.task t c hc
    obtain rfl := hkin.channelRequest hr
    refine ⟨pend, h.reroute hpc hc rfl hdone hdone ?_ (.requestFinish r)⟩
    -- the closure stays as it is
    cases hkin with
    | method hclosure => exact .method hclosure
    | fowardDone hclosure hproc => exact .fowardDone hclosure hproc
  | finishDropped hpc hc hr hd =>
    obtain ⟨w, hdone, -⟩ := h.task _ _ hc
    simp [hd] at hdone
  | @forwardRequest p t m c r hpc hc hr hd =>
    obtain ⟨w, hdone, hkin⟩ := h.task t c hc
    obtain rfl := hkin.channelRequest hr
    obtain ⟨d, hd', hn, -⟩ := h.running _ _ _ hpc
    obtain rfl := Option.some.inj (hc.symm.trans hd')
    have hproc : c.procNotify = some p := by simpa [TaskControl.notifyAt] using hn
    exact ⟨pend, h.reroute hpc hc rfl hdone hdone (.fowardDone rfl hproc) (.requestFoward r)⟩
  | forwardDropped hpc hc hr hd =>
    obtain ⟨w, hdone, -⟩ := h.task _ _ hc
    simp [hd] at hdone
  | @hand p t m c n hpc hc hn =>
    have hloc : loc t = some (.held (.processor p)) := (hl.held _ _).mp (by rw [hpc]; rfl)
    obtain ⟨d, w, hd, hdone, haff⟩ := h.handing _ _ _ hpc
    obtain rfl := Option.some.inj (hc.symm.trans hd)
    obtain rfl : n = .worker w := Option.some.inj (hn.symm.trans hdone)
    have hready : Ready s (.worker w) t := ⟨c, hc, hdone, haff⟩
    refine ⟨_, h.push (hl.not_mem (by simp [hloc])) hready rfl rfl (fun _ hu => hu) ?_⟩
    intro k hk
    by_cases hkp : k = .processor p
    · subst hkp
      simp [Pc.holds] at hk
    · simp [hkp]
  | requestFinish hpc hc hf => exact ⟨pend, h.stay_process rfl rfl rfl rfl rfl⟩
  | requestFoward hpc hc hf => exact ⟨pend, h.stay_process rfl rfl rfl rfl rfl⟩
  | requestFowardError hpc hc hf => exact ⟨pend, h.stay_process rfl rfl rfl rfl rfl⟩

theorem runs_routed (h : Reachable State.step .init s) : ∃ pend, Routed s pend := by
  refine h.invariant (fun s => ∃ pend, Routed s pend) ⟨_, init_routed⟩ ?_
  rintro s a s' hr ⟨pend, hs⟩ - hstep
  obtain ⟨pend', loc, hl⟩ := runs_located hr
  obtain rfl := hs.represents.pending_eq hl.represents
  exact step_routed hl hs (step_cases hstep)

/-- In every run, a process that runs a popped task runs the handler installed for the
argument, and the argument belongs to this process. -/
theorem pointers_affine (h : Reachable State.step .init s) {n : Process W P} {t : T} {m : Mode}
    (hpc : s.pc n = .running t m) :
    ∃ c, s.task t = some c ∧ Affine n (c.closureAt n) := by
  obtain ⟨pend, hs⟩ := runs_routed h
  obtain ⟨c, hc, -, haff⟩ := hs.running n t m hpc
  exact ⟨c, hc, haff⟩

/-- A processor forwards a request and runs the task again after the sub-request: the handler
is then `foward_done` with the channel of this processor. -/
theorem pointers_affine_fowardDone :
    ∃ (s : State Unit Unit Unit) (m : Mode) (c : TaskControl Unit Unit),
      s.pc (.processor ()) = .running () m ∧ s.task () = some c ∧
        c.closure.handler = .fowardDone ∧ Affine (.processor ()) c.closure := by
  obtain ⟨s, hs, he⟩ := Option.map_eq_some_iff.mp
    (show (exec State.step (State.init : State Unit Unit Unit) (forwardOnce true ++
      [.pop (.worker ()), .subrequestDone () false, .push (), .write (),
        .read (.processor ()), .pop (.processor ())])).map
      (fun s => decide (s.pc (.processor ()) = .running () (.read true) ∧
        (s.task ()).map (·.closure.handler) = some .fowardDone)) = some true by
      decide)
  simp only [decide_eq_true_eq] at he
  obtain ⟨hpc, hclosure⟩ := he
  obtain ⟨c, hc, haff⟩ := pointers_affine (reachable_of_exec hs) hpc
  exact ⟨s, .read true, c, hpc, hc, by simpa [hc] using hclosure, haff⟩

end NgxRpc
