import NgxRpc.Settling
import NgxRpc.Foundation.Simulation

/-!
# The life of a request

Each request goes through a life of its own, whatever the other requests and processes do in
between: the processor that it is assigned to runs it, its worker collects it, and so on until it is
answered. What a run of the dispatch shows of one request is a run of a machine with one state for
each stage of this life.

## Main definitions

- `Stage`, `Event`, `Stage.step` — the machine
- `State.eventOf` — what an action shows of a request
- `AtStage` — what the dispatch state says about a request at a stage

## Main results

- `runs_simulated` — the machine simulates the dispatch for every request
- `journey_answered` — the events of a request that was answered
-/

namespace NgxRpc
open CircularList Transition

variable {W P T : Type}

/-! ## The machine -/

/-- What the closure that a processor runs comes to. -/
inductive Decision where
  | finish
  | forward
deriving DecidableEq

/-- The handler that the worker runs then. -/
def Decision.handler : Decision → Handler
  | .finish => .requestFinish
  | .forward => .requestFoward

theorem Decision.handler_inj {d d' : Decision} (h : d.handler = d'.handler) : d = d' := by
  cases d <;> cases d' <;> first | rfl | cases h

/-- How far a request is. Worker `w` has read it, and processor `p` was taken for it. -/
inductive Stage (W P : Type) where
  | unknown
  | received (w : W)
  | refused (w : W)
  | toProcessor (w : W) (p : P)
  | inProcessor (w : W) (p : P)
  | toWorker (w : W) (p : P) (d : Decision)
  | inWorker (w : W) (p : P) (d : Decision)
  | subrequest (w : W) (p : P)
  | answered (w : W) (p : P)
  /-- the sub-request was not created -/
  | dropped (w : W) (p : P)
deriving DecidableEq

/-- What happens to a request. -/
inductive Event (W P : Type) where
  | post (w : W)
  | refuse
  | assign (p : P)
  | start (p : P)
  | choose (d : Decision)
  | collect (w : W)
  | answer
  | suspend
  | resume (p : P)
  | drop
deriving DecidableEq

/-- One event in the life of a request. It stays with its worker and its processor. -/
def Stage.step [DecidableEq W] [DecidableEq P] : Stage W P → Event W P → Option (Stage W P)
  | .unknown, .post w => some (.received w)
  | .received w, .refuse => some (.refused w)
  | .received w, .assign p => some (.toProcessor w p)
  | .toProcessor w p, .start q => if q = p then some (.inProcessor w p) else none
  | .inProcessor w p, .choose d => some (.toWorker w p d)
  | .toWorker w p d, .collect v => if v = w then some (.inWorker w p d) else none
  | .inWorker w p .finish, .answer => some (.answered w p)
  | .inWorker w p .forward, .suspend => some (.subrequest w p)
  | .inWorker w p .forward, .drop => some (.dropped w p)
  | .subrequest w p, .resume q => if q = p then some (.toProcessor w p) else none
  | _, _ => none

/-! ## What the dispatch shows -/

section Shown

variable [DecidableEq W] [DecidableEq P] [DecidableEq T]

/-- The event that an action is, and the request it happens to. -/
def State.event (s : State W P T) : Action W P T → Option (T × Event W P)
  | .post w t => some (t, .post w)
  | .refuse t => some (t, .refuse)
  | .push t => ((s.task t).bind (·.procNotify)).map fun p =>
      (t, if s.http t = .taken then .assign p else .resume p)
  | .pop n =>
    match n, (notifyPopTask s.queue n).2 with
    | .worker w, some (.node t) => some (t, .collect w)
    | .processor p, some (.node t) => some (t, .start p)
    | _, _ => none
  | .finishRequest p => (s.pc (.processor p)).holds.map (·, .choose .finish)
  | .forwardRequest p => (s.pc (.processor p)).holds.map (·, .choose .forward)
  | .requestFinish w => (s.pc (.worker w)).holds.map (·, .answer)
  | .requestFoward w created =>
    (s.pc (.worker w)).holds.map (·, if created then .suspend else .drop)
  | _ => none

/-- The event that an action is to request `t`. -/
def State.eventOf (t : T) (s : State W P T) (a : Action W P T) : Option (Event W P) :=
  (s.event a).bind fun e => if e.1 = t then some e.2 else none

theorem event_aside {s : State W P T} {a : Action W P T} {n : Process W P}
    (ha : s.aside a = some n) : s.event a = none := by
  cases a with
  | pop m =>
    have hpop : (notifyPopTask s.queue m).2 = none := by
      by_contra hsome
      simp [State.aside, hsome] at ha
    simp [State.event, hpop]
  | readEvent | writeEvent | read | signal | insert => rfl
  | _ => cases ha

/-- All events of request `t` in a run from the start. -/
def journey (as : List (Action W P T)) (t : T) : List (Event W P) :=
  shown State.step (State.eventOf t) .init as

end Shown

/-! ## The stage of a request -/

/-- The worker and the processor in the fields of the task. -/
def Served (s : State W P T) (t : T) (w : W) (p : P) : Prop :=
  (s.task t).map (fun c => (c.doneNotify, c.procNotify)) = some (some (.worker w), some p)

/-- The finish handler of the task is the one for the decision. -/
def Decided (s : State W P T) (t : T) (d : Decision) : Prop :=
  (s.task t).map (·.finish.handler) = some d.handler

/-- What state `s` says about request `t` at a stage, when `o` is its place. -/
def AtStage (s : State W P T) (t : T) (o : Option (Place W P)) : Stage W P → Prop
  | .unknown => o = none ∧ s.task t = none
  | .received w => o = none ∧ Young s t ∧ (s.task t).bind (·.doneNotify) = some (.worker w)
  | .refused w => o = none ∧ s.finished t = 1 ∧ s.accepted t = false ∧
      (s.task t).bind (·.doneNotify) = some (.worker w)
  | .toProcessor w p => o = some (.list (.processor p)) ∧ Served s t w p
  | .inProcessor w p => (o = some (.held (.processor p)) ∧ (s.pc (.processor p)).hands = false) ∧
      Served s t w p
  | .toWorker w p d => (o = some (.held (.processor p)) ∧ (s.pc (.processor p)).hands = true ∨
      o = some (.list (.worker w))) ∧ Served s t w p ∧ Decided s t d
  | .inWorker w p d => o = some (.held (.worker w)) ∧ Served s t w p ∧ Decided s t d
  | .subrequest w p => o = some .subrequest ∧ Served s t w p
  | .answered w p => o = none ∧ s.finished t = 1 ∧ s.accepted t = true ∧ Served s t w p
  | .dropped w p => o = none ∧ s.finished t = 0 ∧ s.accepted t = true ∧ Served s t w p

/-- The dispatch state and the stage of request `t` agree. -/
def Agrees (t : T) (s : State W P T) (x : Stage W P) : Prop :=
  ∃ pend loc, Located s pend loc ∧ AtStage s t (loc t) x

section Inversion

variable {s s' : State W P T} {t : T} {o o' : Option (Place W P)} {x : Stage W P} {w : W} {p : P}

theorem served_iff : Served s t w p ↔ ∃ c, s.task t = some c ∧ c.doneNotify = some (.worker w) ∧
    c.procNotify = some p := by
  simp [Served, Option.map_eq_some_iff]

theorem decided_iff {d : Decision} :
    Decided s t d ↔ ∃ c, s.task t = some c ∧ c.finish.handler = d.handler := by
  simp [Decided, Option.map_eq_some_iff]

/-- What happens to others does not change the stage of a request. -/
theorem AtStage.congr (h : AtStage s t o x) (ho : o' = o) (htask : s'.task t = s.task t)
    (hyoung : Young s t → Young s' t) (hacc : s'.accepted t = s.accepted t)
    (hfin : s'.finished t = s.finished t) (hpc : ∀ n, o = some (.held n) → s'.pc n = s.pc n) :
    AtStage s' t o' x := by
  subst ho
  cases x with
  | unknown | refused | toProcessor | inWorker | subrequest | answered | dropped =>
    simpa only [AtStage, Served, Decided, htask, hacc, hfin] using h
  | received w =>
    obtain ⟨ho, hy, hdone⟩ := h
    exact ⟨ho, hyoung hy, by rw [htask, hdone]⟩
  | inProcessor w p =>
    obtain ⟨⟨ho, hhands⟩, hserved⟩ := h
    exact ⟨⟨ho, by rw [hpc _ ho, hhands]⟩, by rwa [Served, htask]⟩
  | toWorker w p d =>
    obtain ⟨hplace, hserved, hdecided⟩ := h
    refine ⟨?_, by rwa [Served, htask], by rwa [Decided, htask]⟩
    obtain ⟨ho, hhands⟩ | ho := hplace
    · exact Or.inl ⟨ho, by rw [hpc _ ho, hhands]⟩
    · exact Or.inr ho

/-- A request that nothing happened to since it was read. -/
theorem AtStage.of_young (h : AtStage s t o x) (hacc : s.accepted t = false)
    (hfin : s.finished t = 0) (ho : o = none) :
    s.task t = none ∧ x = .unknown ∨ ∃ w, x = .received w := by
  subst ho
  cases x <;> simp [AtStage, hacc, hfin] at h ⊢
  exact h

theorem AtStage.of_list_processor (h : AtStage s t (some (.list (.processor p))) x) :
    ∃ w, x = .toProcessor w p := by
  cases x <;> simp [AtStage] at h ⊢
  exact h.1.symm

theorem AtStage.of_list_worker (h : AtStage s t (some (.list (.worker w))) x) :
    ∃ p d, x = .toWorker w p d := by
  cases x <;> simp [AtStage] at h ⊢
  exact h.1.symm

theorem AtStage.of_held_worker (h : AtStage s t (some (.held (.worker w))) x) :
    ∃ p d, x = .inWorker w p d := by
  cases x <;> simp [AtStage] at h ⊢
  exact h.1.symm

theorem AtStage.of_running (h : AtStage s t (some (.held (.processor p))) x)
    (hhands : (s.pc (.processor p)).hands = false) : ∃ w, x = .inProcessor w p := by
  cases x <;> simp [AtStage] at h ⊢
  · exact h.1.1.symm
  · obtain ⟨⟨rfl, htrue⟩, -⟩ := h
    simp [hhands] at htrue

theorem AtStage.of_handing (h : AtStage s t (some (.held (.processor p))) x)
    (hhands : (s.pc (.processor p)).hands = true) : ∃ w d, x = .toWorker w p d := by
  cases x <;> simp [AtStage] at h ⊢
  · obtain ⟨⟨rfl, hfalse⟩, -⟩ := h
    simp [hhands] at hfalse
  · exact h.1.1.symm

/-- A worker that runs the finish handler of a task runs the one that was chosen. -/
theorem AtStage.of_finishing {c : TaskControl W P} (h : AtStage s t (some (.held (.worker w))) x)
    (hc : s.task t = some c) {d : Decision} (hd : c.finish.handler = d.handler) :
    ∃ p, x = .inWorker w p d ∧ Served s t w p := by
  obtain ⟨p, d', rfl⟩ := h.of_held_worker
  obtain ⟨-, hserved, hdecided⟩ := h
  obtain ⟨c', hc', hd'⟩ := decided_iff.mp hdecided
  obtain rfl := Option.some.inj (hc.symm.trans hc')
  obtain rfl := Decision.handler_inj (hd'.symm.trans hd)
  exact ⟨p, rfl, hserved⟩

theorem AtStage.of_subrequest (h : AtStage s t (some .subrequest) x) :
    ∃ w p, x = .subrequest w p := by
  cases x <;> simp [AtStage] at h ⊢

end Inversion

/-! ## One action -/

section Step

variable [DecidableEq W] [DecidableEq P] [DecidableEq T] {s s' : State W P T} {a : Action W P T}
  {t u : T} {x : Stage W P} {e : Event W P} {pend : Pending (Process W P) T}
  {loc loc' : T → Option (Place W P)}

/-- After the action request `t` is at the stage that the event leads to. -/
def Goes (t : T) (x : Stage W P) (s' : State W P T) (o : Option (Place W P)) :
    Option (Event W P) → Prop
  | none => AtStage s' t o x
  | some e => ∃ x', x.step e = some x' ∧ AtStage s' t o x'

theorem goes_internal (he : s.event a = none) (h : AtStage s' t (loc' t) x) :
    Goes t x s' (loc' t) (State.eventOf t s a) := by
  rw [State.eventOf, he]
  exact h

/-- The event happens to request `u`, and leaves the others alone. -/
theorem goes_event (he : s.event a = some (u, e)) (hx : AtStage s t (loc t) x)
    (hself : ∀ x, AtStage s u (loc u) x → ∃ x', x.step e = some x' ∧ AtStage s' u (loc' u) x')
    (hother : t ≠ u → AtStage s' t (loc' t) x) : Goes t x s' (loc' t) (State.eventOf t s a) := by
  rw [State.eventOf, he]
  by_cases hut : u = t
  · subst hut
    rw [Option.bind_some, if_pos rfl]
    exact hself x hx
  · rw [Option.bind_some, if_neg hut]
    exact hother (Ne.symm hut)

omit [DecidableEq W] [DecidableEq P] in
/-- The handler of request `u` goes on. -/
theorem AtStage.handler (hx : AtStage s t (loc t) x) (htu : t ≠ u) {c : RequestPc P}
    (hhttp : s'.http = Function.update s.http u c) (hpc : s'.pc = s.pc)
    (htask : ∀ t, t ≠ u → s'.task t = s.task t) (hloc : ∀ t, t ≠ u → loc' t = loc t)
    (hacc : ∀ t, t ≠ u → s'.accepted t = s.accepted t)
    (hfin : ∀ t, t ≠ u → s'.finished t = s.finished t) : AtStage s' t (loc' t) x := by
  refine hx.congr (hloc t htu) (htask t htu) (fun hy => ?_) (hacc t htu) (hfin t htu)
    fun n _ => congrFun hpc n
  rwa [Young, htask t htu, hhttp, Function.update_of_ne htu]

omit [DecidableEq T] in
/-- A process goes on that has nothing to do with request `t`. -/
theorem AtStage.process (hl : Located s pend loc) (hx : AtStage s t (loc t) x) {n : Process W P}
    {c : Pc W P T} (hpc : s'.pc = Function.update s.pc n c) (hn : (s.pc n).holds ≠ some t)
    (hhttp : s'.http = s.http) (htask : s'.task t = s.task t) (hloc : loc' t = loc t)
    (hacc : s'.accepted = s.accepted) (hfin : s'.finished t = s.finished t) :
    AtStage s' t (loc' t) x := by
  refine hx.congr hloc htask (fun hy => ?_) (congrFun hacc t) hfin fun m hm => ?_
  · rwa [Young, htask, hhttp]
  · have hmn : m ≠ n := fun hmn => hn (hmn ▸ (hl.held t m).mpr hm)
    rw [hpc, Function.update_of_ne hmn]

omit [DecidableEq T] in
/-- No request notices that a process goes on without a task. -/
theorem AtStage.aside {n : Process W P} (hx : AtStage s t (loc t) x) (hn : Aside s n s')
    (hl : Located s pend loc) : AtStage s' t (loc t) x := by
  obtain ⟨c, -, hpc⟩ := hn.after
  exact hx.process hl hpc (by simp [hn.before]) hn.http (congrFun hn.task t) rfl hn.accepted
    (congrFun hn.finished t)

omit [DecidableEq W] [DecidableEq P] in
/-- A request stays young when its handler goes on to the next push. -/
theorem Young.handler (hy : Young s t) {c : RequestPc P} (htask : s'.task = s.task)
    (hhttp : s'.http = Function.update s.http u c)
    (hc : Young s u → s.task u = none ∨ c = .posted ∨ c = .taken ∨ c = .refused) : Young s' t := by
  rw [Young, htask, hhttp]
  by_cases htu : t = u
  · subst htu
    rw [Function.update_self]
    exact hc hy
  · rwa [Function.update_of_ne htu]

omit [DecidableEq W] [DecidableEq P] [DecidableEq T] in
/-- A request whose task was not pushed yet is where its worker put it. -/
theorem AtStage.of_posted {c : TaskControl W P} (hx : AtStage s u (loc u) x)
    (hl : Located s pend loc) (hy : Young s u) (hc : s.task u = some c) :
    ∃ w, x = .received w ∧ c.doneNotify = some (.worker w) := by
  obtain ⟨hacc, hfin⟩ := hl.young u hy
  obtain ⟨hnone, -⟩ | ⟨w, rfl⟩ := hx.of_young hacc hfin (hl.loc_of_young hy)
  · simp [hc] at hnone
  · obtain ⟨-, -, hdone⟩ := hx
    rw [hc, Option.bind_some] at hdone
    exact ⟨w, rfl, hdone⟩

/-- The closure that processor `p` runs installs the finish handler of its decision. -/
theorem AtStage.choose {p : P} {m : Mode} {c c' : TaskControl W P} {d : Decision}
    (hx : AtStage s u (some (.held (.processor p))) x) (hpc : s.pc (.processor p) = .running u m)
    (hc : s.task u = some c) (hdone : c'.doneNotify = c.doneNotify)
    (hproc : c'.procNotify = c.procNotify) (hfinish : c'.finish.handler = d.handler) :
    ∃ x', x.step (.choose d) = some x' ∧
      AtStage ((s.setTask u c').setPc (.processor p) (.handing u m)) u
        (some (.held (.processor p))) x' := by
  obtain ⟨w, rfl⟩ := hx.of_running (by rw [hpc]; rfl)
  obtain ⟨-, hserved⟩ := hx
  obtain ⟨c₀, hc₀, hw, hp⟩ := served_iff.mp hserved
  obtain rfl := Option.some.inj (hc.symm.trans hc₀)
  refine ⟨.toWorker w p d, rfl, Or.inl ⟨rfl, by simp [Pc.hands]⟩, ?_, ?_⟩
  · exact served_iff.mpr ⟨c', by simp, hdone.trans hw, hproc.trans hp⟩
  · exact decided_iff.mpr ⟨c', by simp, hfinish⟩

theorem goes_choose {p : P} {m : Mode} {c c' : TaskControl W P} {d : Decision}
    (hl : Located s pend loc) (hx : AtStage s t (loc t) x)
    (hpc : s.pc (.processor p) = .running u m) (hc : s.task u = some c)
    (he : s.event a = some (u, .choose d)) (hdone : c'.doneNotify = c.doneNotify)
    (hproc : c'.procNotify = c.procNotify) (hfinish : c'.finish.handler = d.handler) :
    Goes t x ((s.setTask u c').setPc (.processor p) (.handing u m)) (loc t)
      (State.eventOf t s a) := by
  have hheld : (s.pc (.processor p)).holds = some u := by rw [hpc]; rfl
  have hplace : loc u = some (.held (.processor p)) := (hl.held _ _).mp hheld
  refine goes_event he hx ?_ ?_
  · intro x hx
    rw [hplace] at hx ⊢
    exact hx.choose hpc hc hdone hproc hfinish
  · intro htu
    exact hx.process hl rfl (by simpa [hheld] using Ne.symm htu) rfl
      (Function.update_of_ne htu _ _) rfl rfl rfl

/-- One action of the dispatch is an event of request `t`, or leaves it at its stage. -/
theorem step_goes (hr : Reachable State.step .init s) (hl : Located s pend loc)
    (hx : AtStage s t (loc t) x) (hstep : Step s a s') :
    ∃ pend' loc', Located s' pend' loc' ∧ Goes t x s' (loc' t) (State.eventOf t s a) := by
  have hstay : s'.queue = s.queue → (∀ n, (s'.pc n).holds = (s.pc n).holds) →
      s'.subrequests = s.subrequests → Goes t x s' (loc t) (State.eventOf t s a) →
      ∃ pend' loc', Located s' pend' loc' ∧ Goes t x s' (loc' t) (State.eventOf t s a) := by
    intro hqueue hholds hsub hgoes
    obtain ⟨pend', loc', hl', -⟩ := step_located hl hstep
    obtain rfl := hl.loc_eq hl' hqueue hholds hsub
    exact ⟨pend', loc', hl', hgoes⟩
  rcases ha : s.aside a with _ | n
  swap
  · have hn := hstep.aside ha
    exact ⟨pend, loc, hl.stay_aside hn, goes_internal (event_aside ha) (hx.aside hn hl)⟩
  cases hstep with
  | @post w u hnew =>
    refine hstay rfl (fun _ => rfl) rfl (goes_event rfl hx ?_ ?_)
    · intro x hx
      have hplace := hl.loc_of_young (Or.inl hnew)
      obtain ⟨hacc, hfin⟩ := hl.young u (Or.inl hnew)
      obtain ⟨-, rfl⟩ | ⟨v, rfl⟩ := hx.of_young hacc hfin hplace
      · exact ⟨.received w, rfl, hplace, Or.inr (Or.inl (by simp)), by simp [TaskControl.posted]⟩
      · simp [AtStage, hnew] at hx
    · intro htu
      exact hx.handler htu rfl rfl (fun _ h => Function.update_of_ne h _ _) (fun _ _ => rfl)
        (fun _ _ => rfl) (fun _ _ => rfl)
  | takeNone hpc hc htake =>
    refine hstay rfl (fun _ => rfl) rfl (goes_internal rfl ?_)
    exact hx.congr rfl rfl (fun hy => hy.handler rfl rfl (by simp)) rfl rfl fun _ _ => rfl
  | @takeSome u c I p hpc hc htake =>
    refine hstay rfl (fun _ => rfl) rfl (goes_internal rfl ?_)
    by_cases htu : t = u
    · subst htu
      have hy : Young s t := Or.inr (Or.inl hpc)
      obtain ⟨w, rfl, hdone⟩ := hx.of_posted hl hy hc
      exact ⟨hl.loc_of_young hy, Or.inr (Or.inr (Or.inl (by simp))), by simpa using hdone⟩
    · exact hx.handler htu rfl rfl (fun _ h => Function.update_of_ne h _ _) (fun _ _ => rfl)
        (fun _ _ => rfl) (fun _ _ => rfl)
  | takeWild hpc hc htake => exact absurd (by rw [htake]) (take_ne_queue hr)
  | @refuse u c hpc hc =>
    refine hstay rfl (fun _ => rfl) rfl (goes_event rfl hx ?_ ?_)
    · intro x hx
      have hy : Young s u := Or.inr (Or.inr (Or.inr hpc))
      obtain ⟨hacc, hfin⟩ := hl.young u hy
      obtain ⟨v, rfl, -⟩ := hx.of_posted hl hy hc
      exact ⟨.refused v, rfl, hl.loc_of_young hy, by simp [hfin], hacc, hx.2.2⟩
    · intro htu
      exact hx.handler htu rfl rfl (fun _ _ => rfl) (fun _ _ => rfl) (fun _ _ => rfl)
        (fun _ h => Function.update_of_ne h _ _)
  | @pushTaken u c p hpc hc hp =>
    have he : s.event (.push u) = some (u, .assign p) := by simp [State.event, hc, hp, hpc]
    refine ⟨_, _, hl.pushTaken hpc hc, goes_event he hx ?_ ?_⟩
    · intro x hx
      obtain ⟨w, rfl, hdone⟩ := hx.of_posted hl (Or.inr (Or.inr (Or.inl hpc))) hc
      exact ⟨.toProcessor w p, rfl, by simp, served_iff.mpr ⟨c, hc, hdone, hp⟩⟩
    · intro htu
      exact hx.handler htu rfl rfl (fun _ _ => rfl) (fun _ h => Function.update_of_ne h _ _)
        (fun _ h => Function.update_of_ne h _ _) (fun _ _ => rfl)
  | @pushDone u c p hpc hc hp =>
    have he : s.event (.push u) = some (u, .resume p) := by simp [State.event, hc, hp, hpc]
    refine ⟨_, _, hl.pushDone hpc hc, goes_event he hx ?_ ?_⟩
    · intro x hx
      rw [hl.done u hpc] at hx
      obtain ⟨w, q, rfl⟩ := hx.of_subrequest
      obtain ⟨-, hserved⟩ := hx
      obtain ⟨d, hd, -, hq⟩ := served_iff.mp hserved
      obtain rfl := Option.some.inj (hc.symm.trans hd)
      obtain rfl : p = q := Option.some.inj (hp.symm.trans hq)
      exact ⟨.toProcessor w p, if_pos rfl, by simp, hserved⟩
    · intro htu
      exact hx.handler htu rfl rfl (fun _ _ => rfl) (fun _ h => Function.update_of_ne h _ _)
        (fun _ _ => rfl) (fun _ _ => rfl)
  | @write u p hpc =>
    refine hstay rfl (fun _ => rfl) rfl (goes_internal rfl ?_)
    refine hx.congr rfl rfl (fun hy => hy.handler rfl rfl ?_) rfl rfl fun _ _ => rfl
    exact fun hu => Or.inl (by simpa [Young, hpc] using hu)
  | subrequestAgain hpc hsub => exact hstay rfl (fun _ => rfl) rfl (goes_internal rfl hx)
  | @subrequestDone u hpc hsub =>
    refine hstay rfl (fun _ => rfl) rfl (goes_internal rfl ?_)
    refine hx.congr rfl rfl (fun hy => hy.handler rfl rfl ?_) rfl rfl fun _ _ => rfl
    exact fun hu => Or.inl (by simpa [Young, hpc] using hu)
  | readEvent | writeEvent | read | signal | insert => cases ha
  | popWorker _ hpop | popProcessor _ hpop => simp [State.aside, hpop] at ha
  | @popTask n u m Q hpc hpop =>
    have hnone : (s.pc n).holds = none := by rw [hpc]; rfl
    have hplace : loc u = some (.list n) := by
      obtain ⟨ts, hn, -⟩ := hl.represents.pop_node hpop
      exact (hl.listed u n).mp (by simp [hn])
    obtain ⟨ts, hl'⟩ := hl.popTask hpc hpop
    refine ⟨_, _, hl', ?_⟩
    have hother (htu : t ≠ u) : AtStage (State.setPc { s with
        queue := Q
        ran := Function.update s.ran u (s.ran u + 1) } n (.running u m)) t
          (Function.update loc u (some (.held n)) t) x :=
      hx.process hl rfl (by simp [hnone]) rfl rfl (Function.update_of_ne htu _ _) rfl rfl
    cases n with
    | worker w =>
      have he : s.event (.pop (.worker w)) = some (u, .collect w) := by simp [State.event, hpop]
      refine goes_event he hx ?_ hother
      intro x hx
      rw [hplace] at hx
      obtain ⟨p, d, rfl⟩ := hx.of_list_worker
      obtain ⟨-, hserved, hdecided⟩ := hx
      exact ⟨.inWorker w p d, if_pos rfl, by simp, hserved, hdecided⟩
    | processor p =>
      have he : s.event (.pop (.processor p)) = some (u, .start p) := by simp [State.event, hpop]
      refine goes_event he hx ?_ hother
      intro x hx
      rw [hplace] at hx
      obtain ⟨w, rfl⟩ := hx.of_list_processor
      obtain ⟨-, hserved⟩ := hx
      exact ⟨.inProcessor w p, if_pos rfl, ⟨by simp, by simp [Pc.hands]⟩, hserved⟩
  | popWild hpc hpop => exact absurd hpop hl.represents.pop_ne_queueHead
  | @finishRequest p u m c r hpc hc hr' hd =>
    have hheld : (s.pc (.processor p)).holds = some u := by rw [hpc]; rfl
    have he : s.event (.finishRequest p) = some (u, .choose .finish) := by
      simp [State.event, hheld]
    exact hstay rfl (holds_update (n := .processor p) hheld.symm) rfl
      (goes_choose hl hx hpc hc he rfl rfl rfl)
  | finishDropped hpc hc hr' hd =>
    obtain ⟨w, hw⟩ := hl.doneNotify _ _ hc
    simp [hd] at hw
  | @forwardRequest p u m c r hpc hc hr' hd =>
    have hheld : (s.pc (.processor p)).holds = some u := by rw [hpc]; rfl
    have he : s.event (.forwardRequest p) = some (u, .choose .forward) := by
      simp [State.event, hheld]
    exact hstay rfl (holds_update (n := .processor p) hheld.symm) rfl
      (goes_choose hl hx hpc hc he rfl rfl rfl)
  | forwardDropped hpc hc hr' hd =>
    obtain ⟨w, hw⟩ := hl.doneNotify _ _ hc
    simp [hd] at hw
  | @hand p u m c n hpc hc hn =>
    have hheld : (s.pc (.processor p)).holds = some u := by rw [hpc]; rfl
    have hplace : loc u = some (.held (.processor p)) := (hl.held _ _).mp hheld
    refine ⟨_, _, hl.hand hpc, goes_internal rfl ?_⟩
    by_cases htu : t = u
    · subst htu
      rw [hplace] at hx
      obtain ⟨w, d, rfl⟩ := hx.of_handing (by rw [hpc]; rfl)
      obtain ⟨-, hserved, hdecided⟩ := hx
      obtain ⟨c', hc', hdone, -⟩ := served_iff.mp hserved
      obtain rfl := Option.some.inj (hc.symm.trans hc')
      obtain rfl : n = .worker w := Option.some.inj (hn.symm.trans hdone)
      exact ⟨Or.inr (by simp), hserved, hdecided⟩
    · exact hx.process hl rfl (by simpa [hheld] using Ne.symm htu) rfl rfl
        (Function.update_of_ne htu _ _) rfl rfl
  | @requestFinish w u m c hpc hc hf =>
    have hheld : (s.pc (.worker w)).holds = some u := by rw [hpc]; rfl
    have hplace : loc u = some (.held (.worker w)) := (hl.held _ _).mp hheld
    have he : s.event (.requestFinish w) = some (u, .answer) := by simp [State.event, hheld]
    refine ⟨_, _, hl.answer hpc, goes_event he hx ?_ ?_⟩
    · intro x hx
      rw [hplace] at hx
      obtain ⟨p, rfl, hserved⟩ := hx.of_finishing (d := .finish) hc hf
      exact ⟨.answered w p, rfl, by simp, by simp [hl.unanswered_of_held hpc],
        hl.accepted (by simp [hplace]), hserved⟩
    · intro htu
      exact hx.process hl rfl (by simpa [hheld] using Ne.symm htu) rfl rfl
        (Function.update_of_ne htu _ _) rfl (Function.update_of_ne htu _ _)
  | @requestFoward w u m c hpc hc hf =>
    have hheld : (s.pc (.worker w)).holds = some u := by rw [hpc]; rfl
    have hplace : loc u = some (.held (.worker w)) := (hl.held _ _).mp hheld
    have he : s.event (.requestFoward w true) = some (u, .suspend) := by simp [State.event, hheld]
    refine ⟨_, _, hl.suspend hpc, goes_event he hx ?_ ?_⟩
    · intro x hx
      rw [hplace] at hx
      obtain ⟨p, rfl, hserved⟩ := hx.of_finishing (d := .forward) hc hf
      exact ⟨.subrequest w p, rfl, by simp, hserved⟩
    · intro htu
      exact hx.process hl rfl (by simpa [hheld] using Ne.symm htu) rfl rfl
        (Function.update_of_ne htu _ _) rfl rfl
  | @requestFowardError w u m c hpc hc hf =>
    have hheld : (s.pc (.worker w)).holds = some u := by rw [hpc]; rfl
    have hplace : loc u = some (.held (.worker w)) := (hl.held _ _).mp hheld
    have he : s.event (.requestFoward w false) = some (u, .drop) := by simp [State.event, hheld]
    refine ⟨_, _, hl.lose hpc, goes_event he hx ?_ ?_⟩
    · intro x hx
      rw [hplace] at hx
      obtain ⟨p, rfl, hserved⟩ := hx.of_finishing (d := .forward) hc hf
      exact ⟨.dropped w p, rfl, by simp, hl.unanswered_of_held hpc,
        hl.accepted (by simp [hplace]), hserved⟩
    · intro htu
      exact hx.process hl rfl (by simpa [hheld] using Ne.symm htu) rfl rfl
        (Function.update_of_ne htu _ _) rfl rfl

end Step

/-! ## The events of a life -/

/-- The processor forwards, the worker starts the sub-request, and its end comes back. -/
def forwardRound (w : W) (p : P) : List (Event W P) :=
  [.start p, .choose .forward, .collect w, .suspend, .resume p]

/-- The processor finishes, and the worker answers. -/
def finishRound (w : W) (p : P) : List (Event W P) :=
  [.start p, .choose .finish, .collect w, .answer]

/-- A request that worker `w` gave to processor `p`, after `k` forwards. -/
def served (w : W) (p : P) (k : ℕ) : List (Event W P) :=
  .post w :: .assign p :: (List.replicate k (forwardRound w p)).flatten

theorem served_succ (w : W) (p : P) (k : ℕ) :
    served w p (k + 1) = served w p k ++ forwardRound w p := by
  simp [served, List.replicate_succ']

/-- The events are those of some forwards, and the ones since then. -/
def Lived (w : W) (p : P) (since es : List (Event W P)) : Prop :=
  ∃ k, es = served w p k ++ since

/-- The events that lead to a stage. -/
def Stage.Life (es : List (Event W P)) : Stage W P → Prop
  | .unknown => es = []
  | .received w => es = [.post w]
  | .refused w => es = [.post w, .refuse]
  | .toProcessor w p => Lived w p [] es
  | .inProcessor w p => Lived w p [.start p] es
  | .toWorker w p d => Lived w p [.start p, .choose d] es
  | .inWorker w p d => Lived w p [.start p, .choose d, .collect w] es
  | .subrequest w p => Lived w p [.start p, .choose .forward, .collect w, .suspend] es
  | .answered w p => Lived w p (finishRound w p) es
  | .dropped w p => Lived w p [.start p, .choose .forward, .collect w, .drop] es

theorem Lived.next {w : W} {p : P} {since es : List (Event W P)} (h : Lived w p since es)
    (e : Event W P) : Lived w p (since ++ [e]) (es ++ [e]) := by
  obtain ⟨k, rfl⟩ := h
  exact ⟨k, List.append_assoc _ _ _⟩

/-- The end of the sub-request ends a round. -/
theorem Lived.resume {w : W} {p : P} {es : List (Event W P)}
    (h : Lived w p [.start p, .choose .forward, .collect w, .suspend] es) :
    Lived w p [] (es ++ [.resume p]) := by
  obtain ⟨k, rfl⟩ := h
  refine ⟨k + 1, ?_⟩
  rw [List.append_nil, served_succ, List.append_assoc]
  rfl

theorem step_life [DecidableEq W] [DecidableEq P] (es : List (Event W P)) (x : Stage W P)
    (e : Event W P) (x' : Stage W P) (h : x.Life es) (hstep : x.step e = some x') :
    x'.Life (es ++ [e]) := by
  unfold Stage.step at hstep
  split at hstep
  case h_1 | h_2 =>
    obtain rfl := Option.some.inj hstep
    rw [show es = _ from h]
    rfl
  case h_3 =>
    obtain rfl := Option.some.inj hstep
    exact ⟨0, by rw [show es = _ from h]; rfl⟩
  case h_4 | h_6 =>
    split at hstep
    · next heq =>
      obtain rfl := Option.some.inj hstep
      exact heq ▸ h.next _
    · cases hstep
  case h_10 =>
    split at hstep
    · next heq =>
      obtain rfl := Option.some.inj hstep
      exact heq ▸ h.resume
    · cases hstep
  case h_11 => cases hstep
  all_goals
    obtain rfl := Option.some.inj hstep
    exact h.next _

/-! ## Whole runs -/

section Runs

variable [DecidableEq W] [DecidableEq P] [DecidableEq T] {s : State W P T}
  {as : List (Action W P T)} {t : T}

omit [DecidableEq W] [DecidableEq P] [DecidableEq T] in
theorem init_agrees (t : T) : Agrees t (State.init : State W P T) .unknown :=
  ⟨_, _, init_located, rfl, rfl⟩

theorem simulates (t : T) : Simulates State.step (State.eventOf t) Stage.step
    fun (s : State W P T) x => Reachable State.step .init s ∧ Agrees t s x where
  still := by
    rintro s a s' x ⟨hr, pend, loc, hl, hx⟩ hstep he
    obtain ⟨pend', loc', hl', hgoes⟩ := step_goes hr hl hx (step_cases hstep)
    rw [he] at hgoes
    exact ⟨.next hr trivial hstep, pend', loc', hl', hgoes⟩
  moves := by
    rintro s a s' x e ⟨hr, pend, loc, hl, hx⟩ hstep he
    obtain ⟨pend', loc', hl', hgoes⟩ := step_goes hr hl hx (step_cases hstep)
    rw [he] at hgoes
    obtain ⟨x', hx', hstage⟩ := hgoes
    exact ⟨x', hx', .next hr trivial hstep, pend', loc', hl', hstage⟩

theorem exists_stage (h : exec State.step .init as = some s) (t : T) :
    ∃ x, exec Stage.step .unknown (journey as t) = some x ∧ Agrees t s x := by
  obtain ⟨x, hx, -, hagrees⟩ := (simulates t).run ⟨.start, init_agrees t⟩ h
  exact ⟨x, hx, hagrees⟩

/-- In every run, in any order of the processes, what happens to a request is a run of its machine,
and the stage it ends in says where the request is, and what its worker and processor are. -/
theorem runs_simulated (h : exec State.step .init as = some s) (t : T) :
    ∃ x, exec Stage.step .unknown (journey as t) = some x ∧
      ∃ pend loc, Located s pend loc ∧ AtStage s t (loc t) x := by
  exact exists_stage h t

/-- A request that is forwarded waits for its sub-request. -/
theorem runs_simulated_forward : ∃ s : State Unit Unit Unit,
    exec Stage.step .unknown (journey (forwardOnce true) ()) = some (.subrequest () ()) ∧
      ∃ pend loc, Located s pend loc ∧ loc () = some .subrequest := by
  obtain ⟨s, hs⟩ := Option.isSome_iff_exists.mp
    (show (exec State.step (State.init : State Unit Unit Unit)
      (forwardOnce true)).isSome = true by decide)
  have hstage : exec Stage.step .unknown (journey (forwardOnce true) ()) =
      some (.subrequest () ()) := by decide
  obtain ⟨x, hx, pend, loc, hl, hat⟩ := runs_simulated hs ()
  obtain rfl := Option.some.inj (hstage.symm.trans hx)
  exact ⟨s, hstage, pend, loc, hl, hat.1⟩

/-- In every run, a request that was answered was refused when it came, or some processor ran it and
some worker collected it in turn, once for each forward and once more. Nothing else happened to
it. -/
theorem journey_answered (h : exec State.step .init as = some s) (hfin : 0 < s.finished t) :
    (∃ w, journey as t = [.post w, .refuse]) ∨
      ∃ w p k, journey as t = served w p k ++ finishRound w p := by
  obtain ⟨x, hx, pend, loc, hl, hat⟩ := exists_stage h t
  have hstart : (Stage.unknown : Stage W P).Life [] := rfl
  have hlife : x.Life (journey as t) := exec_invariant step_life hstart hx
  have hplace : loc t = none := by
    by_contra hne
    have hzero := hl.unanswered hne
    omega
  rw [hplace] at hat
  cases x with
  | unknown =>
    have hzero := (hl.young t (Or.inl hat.2)).2
    omega
  | received w =>
    have hzero := (hl.young t hat.2.1).2
    omega
  | refused w => exact Or.inl ⟨w, hlife⟩
  | answered w p =>
    obtain ⟨k, hk⟩ := hlife
    exact Or.inr ⟨w, p, k, hk⟩
  | dropped w p =>
    have hzero := hat.2.1
    omega
  | toProcessor | inProcessor | toWorker | inWorker | subrequest => simp [AtStage] at hat

/-- The processor that forwarded the request finishes it after the sub-request. -/
def forwardAndFinish : List (Action Unit Unit Unit) :=
  forwardOnce true ++ [.pop (.worker ()), .subrequestDone () false, .push (), .write (),
    .read (.processor ()), .pop (.processor ()), .finishRequest (), .hand (), .signal (),
    .read (.worker ()), .pop (.worker ()), .requestFinish ()]

theorem journey_answered_forward : ∃ s : State Unit Unit Unit,
    exec State.step .init forwardAndFinish = some s ∧ s.finished () = 1 ∧
      ∃ k, journey forwardAndFinish () = served () () k ++ finishRound () () := by
  obtain ⟨s, hs, he⟩ := Option.map_eq_some_iff.mp
    (show (exec State.step (State.init : State Unit Unit Unit) forwardAndFinish).map
      (·.finished ()) = some 1 by decide)
  refine ⟨s, hs, he, ?_⟩
  obtain ⟨w, hrefused⟩ | ⟨w, p, k, hk⟩ := journey_answered hs (by rw [he]; exact Nat.one_pos)
  · have hlen : (journey forwardAndFinish ()).length = 11 := by decide
    rw [hrefused] at hlen
    cases hlen
  · exact ⟨k, hk⟩

end Runs

end NgxRpc
