import NgxRpc.IdleRuns

/-!
# Custody of tasks

At any time a task is in one place: linked in one pending list, held by one
process that runs its handler, or waiting for its sub-request. `Located`
follows the place of every task through all interleavings. A task is lost in
one case only, when `ngx_http_subrequest` fails: `ngx_http_rpc_request_foward`
drops the error and nothing pushes the task again.

## Main results

- `runs_located` — the place of a task is unique, in every run
- `runs_inCustody` — no task is lost when every sub-request is created
-/

namespace NgxRpc
open CircularList Transition

/-- Where a task can be. -/
inductive Place (W P : Type) where
  | list (n : Process W P)
  | held (n : Process W P)
  | subrequest
deriving DecidableEq

/-- The place is a pending list. -/
def Place.isList {W P : Type} : Place W P → Bool
  | .list _ => true
  | _ => false

/-- The place is a sub-request. -/
def Place.isSubrequest {W P : Type} : Place W P → Bool
  | .subrequest => true
  | _ => false

variable {W P T : Type}

/-- The request has no task yet, or is still in `ngx_http_rpc_post_async_handler`
before its task is appended. -/
def Young (s : State W P T) (t : T) : Prop :=
  s.task t = none ∨ s.http t = .posted ∨ s.http t = .taken ∨ s.http t = .refused

/-- A request that is young after a step was young before it. -/
theorem Young.of_update [DecidableEq T] {s s' : State W P T} {t u : T} {c : RequestPc P}
    (hu : Young s' u) (htask : ∀ u, s'.task u = none → s.task u = none)
    (hhttp : s'.http = Function.update s.http t c)
    (hc : c = .posted ∨ c = .taken ∨ c = .refused → Young s t) : Young s u := by
  obtain hu | hu := hu
  · exact Or.inl (htask u hu)
  · by_cases hut : u = t
    · subst hut
      exact hc (by simpa [hhttp] using hu)
    · exact Or.inr (by simpa [hhttp, hut] using hu)

/-- `pend` are the pending lists and `loc` the places of all tasks in state `s`. -/
structure Located (s : State W P T) (pend : Pending (Process W P) T)
    (loc : T → Option (Place W P)) : Prop where
  represents : Represents s.queue pend
  listed : ∀ t n, t ∈ pend n ↔ loc t = some (.list n)
  held : ∀ t n, (s.pc n).holds = some t ↔ loc t = some (.held n)
  subrequests : ∀ t, s.subrequests t = if (loc t).any Place.isSubrequest then 1 else 0
  done : ∀ t, s.http t = .subrequestDone → loc t = some .subrequest
  young : ∀ t, Young s t → s.accepted t = false ∧ s.finished t = 0
  unaccepted : ∀ t, s.accepted t = false → loc t = none
  finished : ∀ t, s.finished t = 0 ∨ s.finished t = 1 ∧ loc t = none
  counted : ∀ t, s.handed t = s.ran t + if (loc t).any Place.isList then 1 else 0
  doneNotify : ∀ t c, s.task t = some c → ∃ w, c.doneNotify = some (.worker w)

/-- The step pushes, pops, accepts and answers no task. -/
structure Unmoved (s s' : State W P T) : Prop where
  queue : s'.queue = s.queue
  subrequests : s'.subrequests = s.subrequests
  accepted : s'.accepted = s.accepted
  finished : s'.finished = s.finished
  handed : s'.handed = s.handed
  ran : s'.ran = s.ran

theorem Aside.unmoved [DecidableEq W] [DecidableEq P] {s s' : State W P T} {n : Process W P}
    (h : Aside s n s') : Unmoved s s' :=
  ⟨h.queue, h.subrequests, h.accepted, h.finished, h.handed, h.ran⟩

theorem init_located : Located (State.init : State W P T) (fun _ => []) (fun _ => none) where
  represents := represents_isolated
  listed := by simp
  held := by simp [State.init, Pc.holds]
  subrequests := by simp [State.init]
  done := by simp [State.init]
  young := by simp [State.init]
  unaccepted := by simp
  finished := by simp [State.init]
  counted := by simp [State.init]
  doneNotify := by simp [State.init]

namespace Located

variable {s s' : State W P T} {pend : Pending (Process W P) T} {loc : T → Option (Place W P)}
  {t : T} {n : Process W P}

theorem not_mem (h : Located s pend loc) (ht : ∀ n, loc t ≠ some (.list n)) (m : Process W P) :
    t ∉ pend m :=
  fun hm => ht m ((h.listed t m).mp hm)

theorem loc_of_young (h : Located s pend loc) (hy : Young s t) : loc t = none :=
  h.unaccepted t (h.young t hy).1

theorem not_young (h : Located s pend loc) (ht : loc t ≠ none) : ¬Young s t :=
  fun hy => ht (h.loc_of_young hy)

theorem accepted (h : Located s pend loc) (ht : loc t ≠ none) : s.accepted t = true := by
  cases hacc : s.accepted t with
  | true => rfl
  | false => exact absurd (h.unaccepted t hacc) ht

theorem unanswered (h : Located s pend loc) (ht : loc t ≠ none) : s.finished t = 0 := by
  obtain hf | ⟨-, hn⟩ := h.finished t
  · exact hf
  · exact absurd hn ht

theorem loc_of_subrequests (h : Located s pend loc) (ht : 0 < s.subrequests t) :
    loc t = some .subrequest := by
  have hsub := h.subrequests t
  cases hl : loc t with
  | none => simp [hl] at hsub; omega
  | some q => cases q <;> simp [hl, Place.isSubrequest] at hsub ⊢ <;> omega

theorem subrequests_of_held {w : W} {m : Mode} (h : Located s pend loc)
    (hpc : s.pc (.worker w) = .running t m) : s.subrequests t = 0 := by
  have hloc : loc t = some (.held (.worker w)) := (h.held _ _).mp (by rw [hpc]; rfl)
  simpa [hloc, Place.isSubrequest] using h.subrequests t

theorem unanswered_of_held {w : W} {m : Mode} (h : Located s pend loc)
    (hpc : s.pc (.worker w) = .running t m) : s.finished t = 0 := by
  have hloc : loc t = some (.held (.worker w)) := (h.held _ _).mp (by rw [hpc]; rfl)
  exact h.unanswered (by simp [hloc])

section Moves

variable [DecidableEq T]

theorem done_update (h : Located s pend loc) {c : RequestPc P}
    (hc : c = .subrequestDone → loc t = some .subrequest) (u : T)
    (hu : Function.update s.http t c u = .subrequestDone) : loc u = some .subrequest := by
  by_cases hut : u = t
  · subst hut
    exact hc (by simpa using hu)
  · exact h.done u (by simpa [hut] using hu)

theorem doneNotify_update (h : Located s pend loc) {c : TaskControl W P}
    (hc : ∃ w, c.doneNotify = some (.worker w)) (u : T) (c' : TaskControl W P)
    (hu : Function.update s.task t (some c) u = some c') :
    ∃ w, c'.doneNotify = some (.worker w) := by
  by_cases hut : u = t
  · subst hut
    obtain rfl : c = c' := by simpa using hu
    exact hc
  · exact h.doneNotify u c' (by simpa [hut] using hu)

/-- The holders when a task moves between places that are not a process. -/
theorem held_other (h : Located s pend loc) (ht : ∀ m, loc t ≠ some (.held m))
    {o : Option (Place W P)} (ho : ∀ m, o ≠ some (.held m)) (u : T) (m : Process W P) :
    (s.pc m).holds = some u ↔ Function.update loc t o u = some (.held m) := by
  by_cases hu : u = t
  · subst hu
    simp [h.held, ht, ho]
  · simp [hu, h.held]

/-- The lists when a task moves between places that are not a list. -/
theorem listed_other (h : Located s pend loc) (ht : ∀ m, loc t ≠ some (.list m))
    {o : Option (Place W P)} (ho : ∀ m, o ≠ some (.list m)) (u : T) (m : Process W P) :
    u ∈ pend m ↔ Function.update loc t o u = some (.list m) := by
  by_cases hu : u = t
  · subst hu
    simp [h.listed, ht, ho]
  · simp [hu, h.listed]

/-- The sub-request counters when `t` moves to place `o`. -/
theorem subrequests_move (h : Located s pend loc) {o : Option (Place W P)} {k : ℕ}
    (hk : k = if o.any Place.isSubrequest then 1 else 0) (u : T) :
    Function.update s.subrequests t k u =
      if (Function.update loc t o u).any Place.isSubrequest then 1 else 0 := by
  by_cases hu : u = t
  · subst hu
    simp [hk]
  · simp [hu, h.subrequests]

/-- The hand-over counts when `t` moves to place `o`. -/
theorem counted_move (h : Located s pend loc) {o : Option (Place W P)} {i j : ℕ}
    (hk : i = j + if o.any Place.isList then 1 else 0) (u : T) :
    Function.update s.handed t i u = Function.update s.ran t j u +
      if (Function.update loc t o u).any Place.isList then 1 else 0 := by
  by_cases hu : u = t
  · subst hu
    simp [hk]
  · simp [hu, h.counted]

variable [DecidableEq W] [DecidableEq P]

/-- The lists after a task that was in none is appended to one. -/
theorem listed_push (h : Located s pend loc) (ht : ∀ n, loc t ≠ some (.list n)) (u : T)
    (m : Process W P) :
    u ∈ Function.update pend n (pend n ++ [t]) m ↔
      Function.update loc t (some (.list n)) u = some (.list m) := by
  have hout := h.not_mem ht
  by_cases hu : u = t <;> by_cases hm : m = n
  · subst hu hm
    simp
  · subst hu
    simp [hm, hout, Ne.symm hm]
  · subst hm
    simp [hu, h.listed]
  · simp [hu, hm, h.listed]

/-- The lists after the front task of one is popped. -/
theorem listed_pop (h : Located s pend loc) {ts : List T} (hn : pend n = t :: ts)
    {o : Option (Place W P)} (ho : ∀ m, o ≠ some (.list m)) (u : T) (m : Process W P) :
    u ∈ Function.update pend n ts m ↔ Function.update loc t o u = some (.list m) := by
  -- `t` was linked once, so it is in no list afterwards
  have hnd := h.represents.nodup n
  rw [hn, List.nodup_cons] at hnd
  have hin : t ∈ pend n := by simp [hn]
  by_cases hu : u = t <;> by_cases hm : m = n
  · subst hu hm
    simp [hnd.1, ho]
  · subst hu
    simp only [Function.update_of_ne hm, Function.update_self, ho, iff_false]
    exact fun hum => hm (h.represents.unique hum hin)
  · subst hm
    simp [hu, ← h.listed, hn]
  · simp [hu, hm, h.listed]

/-- The holders after process `n` picks up a task that nobody held. -/
theorem held_take (h : Located s pend loc) {c : Pc W P T} (hfree : (s.pc n).holds = none)
    (hc : c.holds = some t) (ht : ∀ m, loc t ≠ some (.held m)) (u : T) (m : Process W P) :
    (Function.update s.pc n c m).holds = some u ↔
      Function.update loc t (some (.held n)) u = some (.held m) := by
  by_cases hu : u = t <;> by_cases hm : m = n
  · subst hu hm
    simp [hc]
  · subst hu
    simp [hm, h.held, ht, Ne.symm hm]
  · subst hm
    have hno : loc u ≠ some (.held m) := by simp [← h.held, hfree]
    simp [hu, hc, hno, Ne.symm hu]
  · simp [hu, hm, h.held]

/-- The holders after process `n` puts down the task it held. -/
theorem held_release (h : Located s pend loc) {c : Pc W P T} (hheld : (s.pc n).holds = some t)
    (hc : c.holds = none) {o : Option (Place W P)} (ho : ∀ m, o ≠ some (.held m)) (u : T)
    (m : Process W P) :
    (Function.update s.pc n c m).holds = some u ↔
      Function.update loc t o u = some (.held m) := by
  have hloc := (h.held t n).mp hheld
  by_cases hu : u = t <;> by_cases hm : m = n
  · subst hu hm
    simp [hc, ho]
  · subst hu
    simp [hm, h.held, hloc, ho, Ne.symm hm]
  · subst hm
    have hno : loc u ≠ some (.held m) := by
      simp [← h.held, hheld, Ne.symm hu]
    simp [hu, hc, hno]
  · simp [hu, hm, h.held]

omit [DecidableEq W] [DecidableEq P] [DecidableEq T] in
/-- A step that moves no task keeps all places. -/
theorem stay (h : Located s pend loc) (hs : Unmoved s s')
    (hpc : ∀ n, (s'.pc n).holds = (s.pc n).holds)
    (hdone : ∀ t, s'.http t = .subrequestDone → loc t = some .subrequest)
    (hyoung : ∀ t, Young s' t → Young s t)
    (hnotify : ∀ t c, s'.task t = some c → ∃ w, c.doneNotify = some (.worker w)) :
    Located s' pend loc where
  represents := hs.queue ▸ h.represents
  listed := h.listed
  held t n := by rw [hpc, h.held]
  subrequests := hs.subrequests ▸ h.subrequests
  done := hdone
  young u hy := by
    rw [hs.accepted, hs.finished]
    exact h.young u (hyoung u hy)
  unaccepted := hs.accepted ▸ h.unaccepted
  finished := hs.finished ▸ h.finished
  counted := by
    rw [hs.handed, hs.ran]
    exact h.counted
  doneNotify := hnotify

omit [DecidableEq T] in
/-- A process goes to a control point where it holds what it held before. -/
theorem stay_process (h : Located s pend loc) (hs : Unmoved s s') {c : Pc W P T}
    (hpc : s'.pc = Function.update s.pc n c) (hc : c.holds = (s.pc n).holds)
    (hhttp : s'.http = s.http) (htask : ∀ u, s'.task u = none → s.task u = none)
    (hnotify : ∀ t c, s'.task t = some c → ∃ w, c.doneNotify = some (.worker w)) :
    Located s' pend loc := by
  refine h.stay hs ?_ (hhttp ▸ h.done) ?_ hnotify
  · intro m
    by_cases hm : m = n
    · subst hm
      simp [hpc, hc]
    · simp [hpc, hm]
  · rintro u (hu | hu)
    · exact Or.inl (htask u hu)
    · exact Or.inr (by simpa [hhttp] using hu)

omit [DecidableEq T] in
/-- A process goes on without a task. -/
theorem stay_aside (h : Located s pend loc) (hn : Aside s n s') : Located s' pend loc := by
  obtain ⟨c, hc, hpc⟩ := hn.after
  refine h.stay_process hn.unmoved hpc (hc.trans hn.before.symm) hn.http (fun u hu => ?_)
    fun u d hu => h.doneNotify u d ?_
  · rwa [← hn.task]
  · rwa [← hn.task]

omit [DecidableEq W] [DecidableEq P] in
/-- The handler of one request goes on. -/
theorem stay_handler (h : Located s pend loc) (hs : Unmoved s s') {c : RequestPc P}
    (hhttp : s'.http = Function.update s.http t c)
    (hdone : c = .subrequestDone → loc t = some .subrequest)
    (hyoung : c = .posted ∨ c = .taken ∨ c = .refused → Young s t) (hpc : s'.pc = s.pc)
    (htask : ∀ u, s'.task u = none → s.task u = none)
    (hnotify : ∀ t c, s'.task t = some c → ∃ w, c.doneNotify = some (.worker w)) :
    Located s' pend loc := by
  refine h.stay hs (by simp [hpc]) ?_ (fun u hu => hu.of_update htask hhttp hyoung) hnotify
  rw [hhttp]
  exact h.done_update hdone

omit [DecidableEq W] [DecidableEq P] in
/-- A step that moves task `t` to place `o` and leaves the other tasks alone. -/
theorem move (h : Located s pend loc) {o : Option (Place W P)} {pend' : Pending (Process W P) T}
    {i j : ℕ} (hrep : Represents s'.queue pend')
    (hlist : ∀ u m, u ∈ pend' m ↔ Function.update loc t o u = some (.list m))
    (hheld : ∀ u m, (s'.pc m).holds = some u ↔ Function.update loc t o u = some (.held m))
    (hsub : s'.subrequests =
      Function.update s.subrequests t (if o.any Place.isSubrequest then 1 else 0))
    (hdone : ∀ u, s'.http u = .subrequestDone → u ≠ t ∧ s.http u = .subrequestDone)
    (hyoung : ∀ u, Young s' u → u ≠ t ∧ Young s u)
    (hacc : s'.accepted = Function.update s.accepted t true)
    (hfin : ∀ u, u ≠ t → s'.finished u = s.finished u)
    (hfint : s'.finished t = 0 ∨ s'.finished t = 1 ∧ o = none)
    (hhanded : s'.handed = Function.update s.handed t i)
    (hran : s'.ran = Function.update s.ran t j)
    (hij : i = j + if o.any Place.isList then 1 else 0) (htask : s'.task = s.task) :
    Located s' pend' (Function.update loc t o) where
  represents := hrep
  listed := hlist
  held := hheld
  subrequests u := by
    rw [hsub]
    exact h.subrequests_move rfl u
  done u hu := by
    obtain ⟨hut, hu⟩ := hdone u hu
    rw [Function.update_of_ne hut]
    exact h.done u hu
  young u hu := by
    obtain ⟨hut, hu⟩ := hyoung u hu
    rw [hacc, Function.update_of_ne hut, hfin u hut]
    exact h.young u hu
  unaccepted u hu := by
    by_cases hut : u = t
    · subst hut
      simp [hacc] at hu
    · rw [Function.update_of_ne hut]
      exact h.unaccepted u (by simpa [hacc, hut] using hu)
  finished u := by
    by_cases hut : u = t
    · subst hut
      simpa using hfint
    · simpa [hfin u hut, hut] using h.finished u
  counted u := by
    rw [hhanded, hran]
    exact h.counted_move hij u
  doneNotify := htask ▸ h.doneNotify

omit [DecidableEq W] [DecidableEq P] in
/-- A step of a process that moves a task from a list or a process. -/
theorem move_inside (h : Located s pend loc) (ht : loc t ≠ none)
    (hsr : loc t ≠ some .subrequest) {o : Option (Place W P)}
    {pend' : Pending (Process W P) T} {i j : ℕ} (hrep : Represents s'.queue pend')
    (hlist : ∀ u m, u ∈ pend' m ↔ Function.update loc t o u = some (.list m))
    (hheld : ∀ u m, (s'.pc m).holds = some u ↔ Function.update loc t o u = some (.held m))
    (hsub : s'.subrequests =
      Function.update s.subrequests t (if o.any Place.isSubrequest then 1 else 0))
    (hhttp : s'.http = s.http) (hacc : s'.accepted = s.accepted)
    (hfin : ∀ u, u ≠ t → s'.finished u = s.finished u)
    (hfint : s'.finished t = 0 ∨ s'.finished t = 1 ∧ o = none)
    (hhanded : s'.handed = Function.update s.handed t i)
    (hran : s'.ran = Function.update s.ran t j)
    (hij : i = j + if o.any Place.isList then 1 else 0) (htask : s'.task = s.task) :
    Located s' pend' (Function.update loc t o) := by
  refine h.move hrep hlist hheld hsub ?_ ?_ ?_ hfin hfint hhanded hran hij htask
  · intro u hu
    rw [hhttp] at hu
    refine ⟨?_, hu⟩
    rintro rfl
    exact hsr (h.done u hu)
  · intro u hu
    have hy : Young s u := by simpa [Young, hhttp, htask] using hu
    refine ⟨?_, hy⟩
    rintro rfl
    exact h.not_young ht hy
  · rw [hacc]
    exact (Function.update_eq_self_iff.mpr (h.accepted ht).symm).symm

end Moves

end Located

/-- Every accepted task that is not answered is in some place. -/
def Kept (s : State W P T) (loc : T → Option (Place W P)) : Prop :=
  ∀ t, s.accepted t = true → s.finished t = 0 → loc t ≠ none

/-- A task that moves stays kept if it gets a place or an answer. -/
theorem Kept.move [DecidableEq T] {s s' : State W P T} {loc : T → Option (Place W P)}
    (h : Kept s loc) {t : T} {o : Option (Place W P)} (ho : s'.finished t = 0 → o ≠ none)
    (hother : ∀ u, u ≠ t → s'.accepted u = s.accepted u ∧ s'.finished u = s.finished u) :
    Kept s' (Function.update loc t o) := by
  intro u hacc hfin
  by_cases hu : u = t
  · subst hu
    simpa using ho hfin
  · rw [Function.update_of_ne hu]
    exact h u ((hother u hu).1 ▸ hacc) ((hother u hu).2 ▸ hfin)

/-- The action is no sub-request that nginx fails to create. -/
def SubrequestsCreated (_ : State W P T) (a : Action W P T) : Prop :=
  ∀ w, a ≠ .requestFoward w false

variable [DecidableEq W] [DecidableEq P] [DecidableEq T]

namespace Located

variable {s : State W P T} {pend : Pending (Process W P) T} {loc : T → Option (Place W P)}
  {t : T} {c : TaskControl W P}

omit [DecidableEq W] [DecidableEq P] in
theorem signalling_done {s' : State W P T} {p : P}
    (hhttp : s'.http = Function.update s.http t (.signalling p)) (u : T)
    (hu : s'.http u = .subrequestDone) : u ≠ t ∧ s.http u = .subrequestDone := by
  by_cases hut : u = t
  · subst hut
    simp [hhttp] at hu
  · exact ⟨hut, by simpa [hhttp, hut] using hu⟩

omit [DecidableEq W] [DecidableEq P] in
theorem signalling_young {s' : State W P T} {p : P} (hc : s.task t = some c)
    (htask : s'.task = s.task) (hhttp : s'.http = Function.update s.http t (.signalling p)) (u : T)
    (hu : Young s' u) : u ≠ t ∧ Young s u := by
  refine ⟨?_, hu.of_update (by simp [htask]) hhttp (by simp)⟩
  rintro rfl
  simp [Young, htask, hhttp, hc] at hu

/-- The first push takes an accepted task into a processor's list. -/
theorem pushTaken {p : P} (h : Located s pend loc) (hpc : s.http t = .taken)
    (hc : s.task t = some c) :
    Located ({ s.pushTask (.processor p) t with
        accepted := Function.update s.accepted t true }.setHttp t (.signalling p))
      (Function.update pend (.processor p) (pend (.processor p) ++ [t]))
      (Function.update loc t (some (.list (.processor p)))) := by
  have hy : Young s t := Or.inr (Or.inr (Or.inl hpc))
  have hloc : loc t = none := h.loc_of_young hy
  have hcount := h.counted t
  have hsub := h.subrequests t
  simp only [hloc, Option.any_none, Bool.false_eq_true, if_false] at hcount hsub
  refine h.move (h.represents.push _ (h.not_mem (by simp [hloc])))
    (h.listed_push (by simp [hloc])) (h.held_other (by simp [hloc]) (by simp)) ?_
    (signalling_done rfl) (signalling_young hc rfl rfl) rfl (fun _ _ => rfl)
    (Or.inl (h.young t hy).2) rfl (Function.update_eq_self t s.ran).symm ?_ rfl
  · simp [Place.isSubrequest, ← hsub]
  · simp [Place.isList, hcount]

/-- The push after a sub-request takes the task into a processor's list. -/
theorem pushDone {p : P} (h : Located s pend loc) (hpc : s.http t = .subrequestDone)
    (hc : s.task t = some c) :
    Located ({ s.pushTask (.processor p) t with
        subrequests := Function.update s.subrequests t (s.subrequests t - 1) }.setHttp t
          (.signalling p))
      (Function.update pend (.processor p) (pend (.processor p) ++ [t]))
      (Function.update loc t (some (.list (.processor p)))) := by
  have hloc : loc t = some .subrequest := h.done t hpc
  have hcount := h.counted t
  have hsub := h.subrequests t
  simp only [hloc, Option.any_some, Place.isList, Place.isSubrequest, Bool.false_eq_true,
    if_false, if_true] at hcount hsub
  refine h.move (h.represents.push _ (h.not_mem (by simp [hloc])))
    (h.listed_push (by simp [hloc])) (h.held_other (by simp [hloc]) (by simp)) ?_
    (signalling_done rfl) (signalling_young hc rfl rfl) ?_ (fun _ _ => rfl)
    (Or.inl (h.unanswered (by simp [hloc]))) rfl (Function.update_eq_self t s.ran).symm ?_ rfl
  · simp [Place.isSubrequest, hsub]
  · simp [h.accepted (t := t) (by simp [hloc])]
  · simp [Place.isList, hcount]

/-- The drain loop of process `n` takes the front task of its list. -/
theorem popTask {n : Process W P} {m : Mode} {Q : Links (QueueNode (Process W P) T)}
    (h : Located s pend loc) (hpc : s.pc n = .draining m)
    (hpop : notifyPopTask s.queue n = (Q, some (.node t))) :
    ∃ ts, Located ({ s with
        queue := Q
        ran := Function.update s.ran t (s.ran t + 1) }.setPc n (.running t m))
      (Function.update pend n ts) (Function.update loc t (some (.held n))) := by
  obtain ⟨ts, hn, hrep⟩ := h.represents.pop_node hpop
  have hloc : loc t = some (.list n) := (h.listed t n).mp (by simp [hn])
  have hcount := h.counted t
  have hsub := h.subrequests t
  simp only [hloc, Option.any_some, Place.isList, Place.isSubrequest, Bool.false_eq_true,
    if_false, if_true] at hcount hsub
  refine ⟨ts, h.move_inside (by simp [hloc]) (by simp [hloc]) hrep (h.listed_pop hn (by simp))
    (h.held_take (by simp [hpc, Pc.holds]) rfl (by simp [hloc])) ?_ rfl rfl (fun _ _ => rfl)
    (Or.inl (h.unanswered (by simp [hloc]))) (Function.update_eq_self t s.handed).symm rfl ?_ rfl⟩
  · simp [Place.isSubrequest, ← hsub]
  · simp [Place.isList, hcount]

/-- The closure that processor `p` runs pushes its task to process `n`. -/
theorem hand {p : P} {n : Process W P} {m : Mode} (h : Located s pend loc)
    (hpc : s.pc (.processor p) = .handing t m) :
    Located ((s.pushTask n t).setPc (.processor p) (.signalling t n m))
      (Function.update pend n (pend n ++ [t])) (Function.update loc t (some (.list n))) := by
  have hheld : (s.pc (.processor p)).holds = some t := by rw [hpc]; rfl
  have hloc : loc t = some (.held (.processor p)) := (h.held _ _).mp hheld
  have hcount := h.counted t
  have hsub := h.subrequests t
  simp only [hloc, Option.any_some, Place.isList, Place.isSubrequest, Bool.false_eq_true,
    if_false] at hcount hsub
  refine h.move_inside (by simp [hloc]) (by simp [hloc])
    (h.represents.push _ (h.not_mem (by simp [hloc]))) (h.listed_push (by simp [hloc]))
    (h.held_release hheld rfl (by simp)) ?_ rfl rfl (fun _ _ => rfl)
    (Or.inl (h.unanswered (by simp [hloc]))) rfl (Function.update_eq_self t s.ran).symm ?_ rfl
  · simp [Place.isSubrequest, ← hsub]
  · simp [Place.isList, hcount]

section Release

variable {w : W} {m : Mode} {s' : State W P T}

/-- Worker `w` ends the finish handler of the task it popped: the task goes to a
sub-request, or to no place at all. -/
theorem release {o : Option (Place W P)} (h : Located s pend loc)
    (hpc : s.pc (.worker w) = .running t m) (ho : o = none ∨ o = some .subrequest)
    (hpc' : s'.pc = Function.update s.pc (.worker w) (.draining m)) (hq : s'.queue = s.queue)
    (hsub : s'.subrequests =
      Function.update s.subrequests t (if o.any Place.isSubrequest then 1 else 0))
    (hhttp : s'.http = s.http) (hacc : s'.accepted = s.accepted)
    (hfin : ∀ u, u ≠ t → s'.finished u = s.finished u)
    (hfint : s'.finished t = 0 ∨ s'.finished t = 1 ∧ o = none)
    (hhanded : s'.handed = s.handed) (hran : s'.ran = s.ran) (htask : s'.task = s.task) :
    Located s' pend (Function.update loc t o) := by
  have hheld : (s.pc (.worker w)).holds = some t := by rw [hpc]; rfl
  have hloc : loc t = some (.held (.worker w)) := (h.held _ _).mp hheld
  have hcount := h.counted t
  simp only [hloc, Option.any_some, Place.isList, Bool.false_eq_true, if_false] at hcount
  have hlist : ∀ m, o ≠ some (.list m) := by
    rcases ho with rfl | rfl <;> simp
  have hhold : ∀ m, o ≠ some (.held m) := by
    rcases ho with rfl | rfl <;> simp
  refine h.move_inside (by simp [hloc]) (by simp [hloc]) (hq ▸ h.represents)
    (h.listed_other (by simp [hloc]) hlist) (by rw [hpc']; exact h.held_release hheld rfl hhold)
    hsub hhttp hacc hfin hfint (hhanded.trans (Function.update_eq_self t s.handed).symm)
    (hran.trans (Function.update_eq_self t s.ran).symm) ?_ htask
  rcases ho with rfl | rfl <;> simpa [Place.isList] using hcount

/-- `ngx_http_rpc_request_finish`. -/
theorem answer (h : Located s pend loc) (hpc : s.pc (.worker w) = .running t m) :
    Located ({ s with
        finished := Function.update s.finished t (s.finished t + 1) }.setPc (.worker w)
          (.draining m)) pend (Function.update loc t none) := by
  refine h.release hpc (Or.inl rfl) rfl rfl ?_ rfl rfl (fun u hu => by simp [hu])
    (Or.inr ⟨by simp [h.unanswered_of_held hpc], rfl⟩) rfl rfl rfl
  simp [← h.subrequests_of_held hpc]

/-- `ngx_http_rpc_request_foward` when nginx creates the sub-request. -/
theorem suspend (h : Located s pend loc) (hpc : s.pc (.worker w) = .running t m) :
    Located ({ s with
        subrequests := Function.update s.subrequests t (s.subrequests t + 1) }.setPc (.worker w)
          (.draining m)) pend (Function.update loc t (some .subrequest)) := by
  refine h.release hpc (Or.inr rfl) rfl rfl ?_ rfl rfl (fun _ _ => rfl)
    (Or.inl (h.unanswered_of_held hpc)) rfl rfl rfl
  simp [h.subrequests_of_held hpc, Place.isSubrequest]

/-- `ngx_http_rpc_request_foward` when nginx does not. -/
theorem lose (h : Located s pend loc) (hpc : s.pc (.worker w) = .running t m) :
    Located (s.setPc (.worker w) (.draining m)) pend (Function.update loc t none) := by
  refine h.release hpc (Or.inl rfl) rfl rfl ?_ rfl rfl (fun _ _ => rfl)
    (Or.inl (h.unanswered_of_held hpc)) rfl rfl rfl
  simp [← h.subrequests_of_held hpc]

end Release

omit [DecidableEq W] [DecidableEq P] in
/-- `ngx_http_rpc_post_async_handler` answers a refused request itself. -/
theorem refuse (h : Located s pend loc) (hpc : s.http t = .refused) (hc : s.task t = some c) :
    Located ({ s with
      finished := Function.update s.finished t (s.finished t + 1) }.setHttp t .rest) pend loc where
  represents := h.represents
  listed := h.listed
  held := h.held
  subrequests := h.subrequests
  done := h.done_update (by simp)
  young u hu := by
    have hy : Young s u := hu.of_update (fun _ hu => hu) rfl (by simp)
    have hut : u ≠ t := by
      rintro rfl
      simp [Young, hc] at hu
    simpa [hut] using h.young u hy
  unaccepted := h.unaccepted
  finished u := by
    by_cases hut : u = t
    · subst hut
      have hy : Young s u := Or.inr (Or.inr (Or.inr hpc))
      simp [(h.young u hy).2, h.loc_of_young hy]
    · simpa [hut] using h.finished u
  counted := h.counted
  doneNotify := h.doneNotify

/-- The closure that processor `p` runs installs the handlers of the next stage. -/
theorem reroute {p : P} {m : Mode} {c' : TaskControl W P} (h : Located s pend loc)
    (hpc : s.pc (.processor p) = .running t m) (hc : s.task t = some c)
    (hc' : c'.doneNotify = c.doneNotify) :
    Located ((s.setTask t c').setPc (.processor p) (.handing t m)) pend loc := by
  refine h.stay_process ⟨rfl, rfl, rfl, rfl, rfl, rfl⟩ rfl (by simp [hpc, Pc.holds]) rfl ?_
    (h.doneNotify_update (hc' ▸ h.doneNotify t c hc))
  intro u hu
  by_cases hut : u = t
  · subst hut
    simp at hu
  · simpa [hut] using hu

end Located

omit [DecidableEq W] [DecidableEq P] [DecidableEq T] in
theorem Kept.stay {s s' : State W P T} {loc : T → Option (Place W P)} (h : Kept s loc)
    (hs : Unmoved s s') : Kept s' loc := by
  intro u
  rw [hs.accepted, hs.finished]
  exact h u

/-- One step moves at most one task, and loses none if it creates its sub-request. -/
theorem step_located {s s' : State W P T} {a : Action W P T} {pend : Pending (Process W P) T}
    {loc : T → Option (Place W P)} (h : Located s pend loc) (hstep : Step s a s') :
    ∃ pend' loc', Located s' pend' loc' ∧
      (SubrequestsCreated s a → Kept s loc → Kept s' loc') := by
  -- most steps move no task; the others are the lemmas above, one for each
  have hstay : Unmoved s s' → (Unmoved s s' → Located s' pend loc) →
      ∃ pend' loc', Located s' pend' loc' ∧ (SubrequestsCreated s a → Kept s loc → Kept s' loc') :=
    fun hs hl => ⟨pend, loc, hl hs, fun _ hk => hk.stay hs⟩
  rcases ha : s.aside a with _ | n
  swap
  · have hn := hstep.aside ha
    exact hstay hn.unmoved fun _ => h.stay_aside hn
  cases hstep with
  | @post w t hnew =>
    refine hstay ⟨rfl, rfl, rfl, rfl, rfl, rfl⟩ fun hs => h.stay_handler hs rfl (by simp)
      (fun _ => Or.inl hnew) rfl ?_ (h.doneNotify_update ⟨w, rfl⟩)
    intro u hu
    by_cases hut : u = t
    · exact hut ▸ hnew
    · simpa [hut] using hu
  | takeNone hpc hc htake =>
    exact hstay ⟨rfl, rfl, rfl, rfl, rfl, rfl⟩ fun hs => h.stay_handler hs rfl (by simp)
      (fun _ => Or.inr (Or.inl hpc)) rfl (fun _ hu => hu) h.doneNotify
  | @takeSome t c I p hpc hc htake =>
    refine hstay ⟨rfl, rfl, rfl, rfl, rfl, rfl⟩ fun hs => h.stay_handler hs rfl (by simp)
      (fun _ => Or.inr (Or.inl hpc)) rfl ?_ (h.doneNotify_update (h.doneNotify t c hc))
    intro u hu
    by_cases hut : u = t
    · subst hut
      simp at hu
    · simpa [hut] using hu
  | takeWild hpc hc htake =>
    exact hstay ⟨rfl, rfl, rfl, rfl, rfl, rfl⟩ fun hs => h.stay_handler hs rfl (by simp) (by simp)
      rfl (fun _ hu => hu) h.doneNotify
  | @refuse t c hpc hc =>
    refine ⟨pend, loc, h.refuse hpc hc, fun _ hk u hacc hfin => ?_⟩
    by_cases hut : u = t
    · subst hut
      simp at hfin
    · exact hk u hacc (by simpa [hut] using hfin)
  | pushTaken hpc hc hp =>
    refine ⟨_, _, h.pushTaken hpc hc, fun _ hk => hk.move (by simp) fun u hu => ?_⟩
    simp [hu]
  | pushDone hpc hc hp =>
    exact ⟨_, _, h.pushDone hpc hc, fun _ hk => hk.move (by simp) fun _ _ => ⟨rfl, rfl⟩⟩
  | write hpc =>
    exact hstay ⟨rfl, rfl, rfl, rfl, rfl, rfl⟩ fun hs => h.stay_handler hs rfl (by simp) (by simp)
      rfl (fun _ hu => hu) h.doneNotify
  | subrequestAgain hpc hsub => exact ⟨pend, loc, h, fun _ hk => hk⟩
  | @subrequestDone t hpc hsub =>
    exact hstay ⟨rfl, rfl, rfl, rfl, rfl, rfl⟩ fun hs => h.stay_handler hs rfl
      (fun _ => h.loc_of_subrequests hsub) (by simp) rfl (fun _ hu => hu) h.doneNotify
  | readEvent | writeEvent | read | signal | insert => cases ha
  | popWorker _ hpop | popProcessor _ hpop => simp [State.aside, hpop] at ha
  | popTask hpc hpop =>
    obtain ⟨ts, hl⟩ := h.popTask hpc hpop
    exact ⟨_, _, hl, fun _ hk => hk.move (by simp) fun _ _ => ⟨rfl, rfl⟩⟩
  -- the head of a list is never its own front while the list is not empty
  | popWild hpc hpop => exact absurd hpop h.represents.pop_ne_queueHead
  | finishRequest hpc hc hr hd =>
    exact hstay ⟨rfl, rfl, rfl, rfl, rfl, rfl⟩ fun _ => h.reroute hpc hc rfl
  -- every task has a `done_notify` from the start
  | finishDropped hpc hc hr hd =>
    obtain ⟨w, hw⟩ := h.doneNotify _ _ hc
    simp [hd] at hw
  | forwardRequest hpc hc hr hd =>
    exact hstay ⟨rfl, rfl, rfl, rfl, rfl, rfl⟩ fun _ => h.reroute hpc hc rfl
  | forwardDropped hpc hc hr hd =>
    obtain ⟨w, hw⟩ := h.doneNotify _ _ hc
    simp [hd] at hw
  | hand hpc hc hn =>
    exact ⟨_, _, h.hand hpc, fun _ hk => hk.move (by simp) fun _ _ => ⟨rfl, rfl⟩⟩
  | requestFinish hpc hc hf =>
    refine ⟨_, _, h.answer hpc, fun _ hk => hk.move (by simp) fun u hu => ?_⟩
    simp [hu]
  | requestFoward hpc hc hf =>
    exact ⟨_, _, h.suspend hpc, fun _ hk => hk.move (by simp) fun _ _ => ⟨rfl, rfl⟩⟩
  | requestFowardError hpc hc hf => exact ⟨_, _, h.lose hpc, fun hok => absurd rfl (hok _)⟩

/-- In every run at all, every task has at most one place. -/
theorem runs_located {s : State W P T} (h : Reachable State.step .init s) :
    ∃ pend loc, Located s pend loc := by
  refine h.invariant (fun s => ∃ pend loc, Located s pend loc) ⟨_, _, init_located⟩ ?_
  rintro s a s' - ⟨pend, loc, hl⟩ - hstep
  obtain ⟨pend', loc', hl', -⟩ := step_located hl (step_cases hstep)
  exact ⟨pend', loc', hl'⟩

/-- Task `t` is at the place, as read off the state. -/
def At (s : State W P T) (pend : Pending (Process W P) T) (t : T) : Place W P → Prop
  | .list n => t ∈ pend n
  | .held n => (s.pc n).holds = some t
  | .subrequest => 0 < s.subrequests t

/-- Every accepted task that is not answered is in exactly one place; a task has
at most one outstanding sub-request, is answered at most once, and is run at
most once for each time it was pushed. -/
structure InCustody (s : State W P T) (pend : Pending (Process W P) T) : Prop where
  represents : Represents s.queue pend
  place : ∀ t, s.accepted t = true → s.finished t = 0 → ∃! q, At s pend t q
  subrequests : ∀ t, s.subrequests t ≤ 1
  finished : ∀ t, s.finished t ≤ 1
  linked : ∀ t n, t ∈ pend n → s.handed t = s.ran t + 1
  unlinked : ∀ t, (∀ n, t ∉ pend n) → s.handed t = s.ran t

omit [DecidableEq W] [DecidableEq P] [DecidableEq T] in
theorem Located.at_iff {s : State W P T} {pend : Pending (Process W P) T}
    {loc : T → Option (Place W P)} (h : Located s pend loc) (t : T) (q : Place W P) :
    At s pend t q ↔ loc t = some q := by
  cases q with
  | list n => exact h.listed t n
  | held n => exact h.held t n
  | subrequest =>
    refine ⟨h.loc_of_subrequests, fun hl => ?_⟩
    have hsub := h.subrequests t
    simp only [hl, Option.any_some, Place.isSubrequest, if_true] at hsub
    simp [At, hsub]

omit [DecidableEq W] [DecidableEq P] [DecidableEq T] in
theorem Located.inCustody {s : State W P T} {pend : Pending (Process W P) T}
    {loc : T → Option (Place W P)} (h : Located s pend loc) (hk : Kept s loc) :
    InCustody s pend where
  represents := h.represents
  place t hacc hfin := by
    obtain ⟨q, hq⟩ := Option.ne_none_iff_exists'.mp (hk t hacc hfin)
    refine ⟨q, (h.at_iff t q).mpr hq, fun q' hq' => ?_⟩
    exact Option.some.inj (((h.at_iff t q').mp hq').symm.trans hq)
  subrequests t := by
    rw [h.subrequests t]
    split <;> omega
  finished t := by
    rcases h.finished t with hf | ⟨hf, -⟩ <;> omega
  linked t n ht := by
    have hcount := h.counted t
    rwa [(h.listed t n).mp ht] at hcount
  unlinked t ht := by
    have hcount := h.counted t
    cases hl : loc t with
    | none => simpa [hl] using hcount
    | some q =>
      cases q with
      | list n => exact absurd ((h.listed t n).mpr hl) (ht n)
      | held n => simpa [hl, Place.isList] using hcount
      | subrequest => simpa [hl, Place.isList] using hcount

/-- In every run in which nginx creates every sub-request, all accepted tasks are
in custody in every state. -/
theorem runs_inCustody {s : State W P T} (h : RunsTo State.step SubrequestsCreated .init s) :
    ∃ pend, InCustody s pend := by
  have hkept : ∃ pend loc, Located s pend loc ∧ Kept s loc := by
    refine h.invariant (fun s => ∃ pend loc, Located s pend loc ∧ Kept s loc)
      ⟨_, _, init_located, by simp [Kept, State.init]⟩ ?_
    rintro s a s' - ⟨pend, loc, hl, hk⟩ hok hstep
    obtain ⟨pend', loc', hl', hk'⟩ := step_located hl (step_cases hstep)
    exact ⟨pend', loc', hl', hk' hok hk⟩
  obtain ⟨pend, loc, hl, hk⟩ := hkept
  exact ⟨pend, hl.inCustody hk⟩

/-- The executable form of `SubrequestsCreated`. -/
def subrequestsCreated (_ : State W P T) : Action W P T → Bool
  | .requestFoward _ created => created
  | _ => true

omit [DecidableEq W] [DecidableEq P] [DecidableEq T] in
theorem subrequestsCreated_sound (s : State W P T) (a : Action W P T)
    (h : subrequestsCreated s a = true) : SubrequestsCreated s a := by
  rintro w rfl
  simp [subrequestsCreated] at h

/-- One processor forwards a request, and worker `()` starts the sub-request. -/
def forwardOnce (created : Bool) : List (Action Unit Unit Unit) :=
  startUp () ++ request () () ++
    [.readEvent (.processor ()), .read (.processor ()), .pop (.processor ()),
      .forwardRequest (), .hand (), .signal (), .pop (.processor ()), .insert (),
      .readEvent (.worker ()), .read (.worker ()), .pop (.worker ()),
      .requestFoward () created]

theorem runs_inCustody_forward :
    ∃ s : State Unit Unit Unit,
      run State.step subrequestsCreated .init (forwardOnce true) = some s ∧
        ∃ pend, InCustody s pend := by
  obtain ⟨s, hs⟩ := Option.isSome_iff_exists.mp
    (show (run State.step subrequestsCreated (State.init : State Unit Unit Unit)
      (forwardOnce true)).isSome = true by decide)
  exact ⟨s, hs, runs_inCustody (runsTo_of_run subrequestsCreated_sound hs)⟩

/-- When nginx does not create the sub-request the task is in no place. -/
theorem not_inCustody :
    ∃ s : State Unit Unit Unit, Reachable State.step .init s ∧ ∀ pend, ¬InCustody s pend := by
  obtain ⟨s, hs, he⟩ := Option.map_eq_some_iff.mp
    (show (exec State.step (State.init : State Unit Unit Unit) (forwardOnce false)).map
      (fun s => decide ((s.accepted (), s.finished (), s.subrequests ()) = (true, 0, 0) ∧
        (s.pc (.worker ())).holds = none ∧ (s.pc (.processor ())).holds = none ∧
        s.queue.prev (.queueHead (.worker ())) = .queueHead (.worker ()) ∧
        s.queue.prev (.queueHead (.processor ())) = .queueHead (.processor ()))) = some true by
      decide)
  simp only [Prod.mk.injEq, decide_eq_true_eq] at he
  obtain ⟨⟨hacc, hfin, hsub⟩, hwheld, hpheld, hwlist, hplist⟩ := he
  refine ⟨s, reachable_of_exec hs, fun pend h => ?_⟩
  obtain ⟨q, hq, -⟩ := h.place () hacc hfin
  cases q with
  | list n =>
    have hnil : pend n = [] := by
      cases n with
      | worker w => exact (h.represents.empty_iff _).mp hwlist
      | processor p => exact (h.represents.empty_iff _).mp hplist
    simp [At, hnil] at hq
  | held n =>
    cases n with
    | worker w => simp [At, hwheld] at hq
    | processor p => simp [At, hpheld] at hq
  | subrequest => simp [At, hsub] at hq

end NgxRpc
