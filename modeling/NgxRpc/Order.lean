import NgxRpc.Custody
import NgxRpc.Fifo
import NgxRpc.Foundation.Simulation

/-!
# The order of tasks

A notify object is a FIFO queue as long as nobody pushes a task that is linked. The dispatch pushes
only tasks that it holds in hand, so what it shows of its notify objects is a run of such queues,
and every process runs the tasks in the order in which they were pushed to it.

## Main definitions

- `State.queueCall` — the locked section of an action
- `queueCalls` — the calls of a run

## Main results

- `dispatch_fifo` — the notify objects of the dispatch are FIFO queues
-/

namespace NgxRpc
open CircularList Transition

variable {W P T : Type}

/-- Who calls: a handler of a request in its worker, or a process in its drain loop. -/
inductive Caller (W P T : Type) where
  | handler (t : T)
  | drain (n : Process W P)
deriving DecidableEq

variable [DecidableEq W] [DecidableEq P] [DecidableEq T]

/-- The call of `ngx_rpc_notify_push_task` or `ngx_rpc_notify_pop_task` that an action is. -/
def State.queueCall (s : State W P T) :
    Action W P T → Option (QueueCall (Caller W P T) (Process W P) T)
  | .push t => ((s.task t).bind (·.procNotify)).map fun p => .push (.handler t) (.processor p) t
  | .hand p =>
    (s.pc (.processor p)).holds.bind fun t =>
      ((s.task t).bind (·.doneNotify)).map fun n => .push (.drain (.processor p)) n t
  | .pop n => some (.pop (.drain n) n)
  | _ => none

/-- The calls of a run, in the order of the locked sections. -/
def queueCalls (as : List (Action W P T)) : List (QueueCall (Caller W P T) (Process W P) T) :=
  shown State.step State.queueCall .init as

/-- The lists of the dispatch are those of the queues. -/
def SameQueues (s : State W P T) (r : QueueRun (Process W P) T) : Prop :=
  r.queue = s.queue ∧ r.Queues ∧ ∃ pend loc, Located s pend loc

variable {s s' : State W P T} {a : Action W P T} {r : QueueRun (Process W P) T}
  {as : List (Action W P T)}

omit [DecidableEq W] [DecidableEq P] [DecidableEq T] in
/-- A task that is in no list of the dispatch is in no queue. -/
theorem pushesUnlinked_of_located {pend : Pending (Process W P) T} {loc : T → Option (Place W P)}
    (hqueue : r.queue = s.queue) (hr : r.Queues) (hl : Located s pend loc) {t : T}
    (ht : ∀ n, loc t ≠ some (.list n)) (c : Caller W P T) (n : Process W P) :
    QueueRun.PushesUnlinked r (.push c n t) := by
  rintro _ _ _ he m
  cases he
  have hpend : r.content = pend := hr.represents.pending_eq (hqueue ▸ hl.represents)
  rw [hpend]
  exact hl.not_mem ht m

/-- What the queues do in one action. -/
def Calls (r : QueueRun (Process W P) T) (s' : State W P T) :
    Option (QueueCall (Caller W P T) (Process W P) T) → Prop
  | none => s'.queue = r.queue
  | some b => QueueRun.PushesUnlinked r b ∧ ∃ r', r.step b = some r' ∧ r'.queue = s'.queue

/-- A task that is in no list is pushed. -/
theorem calls_push {pend : Pending (Process W P) T} {loc : T → Option (Place W P)}
    (hqueue : r.queue = s.queue) (hr : r.Queues) (hl : Located s pend loc) {t : T}
    (ht : ∀ n, loc t ≠ some (.list n)) {c : Caller W P T} {n : Process W P}
    (hcall : s.queueCall a = some (.push c n t))
    (hqueue' : s'.queue = notifyPushTask s.queue n (.node t)) : Calls r s' (s.queueCall a) := by
  rw [hcall]
  exact ⟨pushesUnlinked_of_located hqueue hr hl ht c n, _, rfl, by rw [hqueue', hqueue]⟩

/-- A process pops. -/
theorem calls_pop (hqueue : r.queue = s.queue) {n : Process W P}
    {o : Option (QueueNode (Process W P) T)} (hpop : notifyPopTask s.queue n = (s'.queue, o)) :
    Calls r s' (s.queueCall (.pop n)) := by
  refine ⟨?_, ?_⟩
  · rintro _ _ _ he
    cases he
  · cases o with
    | none => exact ⟨{ r with queue := s'.queue }, by simp only [QueueRun.step, hqueue, hpop], rfl⟩
    | some node =>
      exact ⟨{ r with
        queue := s'.queue
        popped := Function.update r.popped n (r.popped n ++ [node]) },
        by simp only [QueueRun.step, hqueue, hpop], rfl⟩

/-- Every action of the dispatch is a call of a queue, or leaves the queues alone. -/
theorem step_calls {pend : Pending (Process W P) T} {loc : T → Option (Place W P)}
    (hqueue : r.queue = s.queue) (hr : r.Queues) (hl : Located s pend loc)
    (hstep : Step s a s') : Calls r s' (s.queueCall a) := by
  cases hstep with
  | @pushTaken t c p hpc hc hp =>
    have hplace : loc t = none := hl.loc_of_young (Or.inr (Or.inr (Or.inl hpc)))
    have hcall : s.queueCall (.push t) = some (.push (.handler t) (.processor p) t) := by
      simp [State.queueCall, hc, hp]
    exact calls_push hqueue hr hl (by simp [hplace]) hcall rfl
  | @pushDone t c p hpc hc hp =>
    have hplace : loc t = some .subrequest := hl.done t hpc
    have hcall : s.queueCall (.push t) = some (.push (.handler t) (.processor p) t) := by
      simp [State.queueCall, hc, hp]
    exact calls_push hqueue hr hl (by simp [hplace]) hcall rfl
  | @hand p t m c n hpc hc hn =>
    have hheld : (s.pc (.processor p)).holds = some t := by rw [hpc]; rfl
    have hplace : loc t = some (.held (.processor p)) := (hl.held _ _).mp hheld
    have hcall : s.queueCall (.hand p) = some (.push (.drain (.processor p)) n t) := by
      simp [State.queueCall, hheld, hc, hn]
    exact calls_push hqueue hr hl (by simp [hplace]) hcall rfl
  | popWorker _ hpop => exact calls_pop hqueue hpop
  | popProcessor _ hpop => exact calls_pop hqueue hpop
  | popTask _ hpop => exact calls_pop hqueue hpop
  | popWild _ hpop => exact calls_pop hqueue hpop
  | _ => exact hqueue.symm

theorem simulates_queues : Simulates State.step State.queueCall QueueRun.step
    (SameQueues : State W P T → QueueRun (Process W P) T → Prop) where
  still := by
    rintro s a s' r ⟨hqueue, hr, pend, loc, hl⟩ hstep he
    have hcalls := step_calls hqueue hr hl (step_cases hstep)
    rw [he] at hcalls
    obtain ⟨pend', loc', hl', -⟩ := step_located hl (step_cases hstep)
    exact ⟨Eq.symm hcalls, hr, pend', loc', hl'⟩
  moves := by
    rintro s a s' r b ⟨hqueue, hr, pend, loc, hl⟩ hstep he
    have hcalls := step_calls hqueue hr hl (step_cases hstep)
    rw [he] at hcalls
    obtain ⟨hok, r', hr', hqueue'⟩ := hcalls
    obtain ⟨pend', loc', hl', -⟩ := step_located hl (step_cases hstep)
    exact ⟨r', hr', hqueue', hr.step hok hr', pend', loc', hl'⟩

/-- In every run, the calls that the processes make are a run of FIFO queues with the same links:
each process pops the tasks that were pushed to it, in their order and each once, whoever pushed
them. -/
theorem dispatch_fifo (h : exec State.step (.init : State W P T) as = some s) :
    ∃ r, exec QueueRun.step .init (queueCalls as) = some r ∧ r.queue = s.queue ∧ ∀ n, r.Fifo n := by
  obtain ⟨r, hrun, hqueue, hr, -⟩ :=
    simulates_queues.run ⟨rfl, QueueRun.init_queues, _, _, init_located⟩ h
  exact ⟨r, hrun, hqueue, fun n => hr.fifo n⟩

/-- One forward: the worker's queue was pushed to by the processor. -/
theorem dispatch_fifo_forward : ∃ r : QueueRun (Process Unit Unit) Unit,
    exec QueueRun.step .init (queueCalls (forwardOnce true)) = some r ∧
      r.popped (.worker ()) = [.node ()] ∧ ∀ n, r.Fifo n := by
  obtain ⟨s, hs⟩ := Option.isSome_iff_exists.mp
    (show (exec State.step (State.init : State Unit Unit Unit)
      (forwardOnce true)).isSome = true by decide)
  obtain ⟨r, hr, -, hfifo⟩ := dispatch_fifo hs
  have hpopped : (exec QueueRun.step .init (queueCalls (forwardOnce true))).map
      (fun r => r.popped (.worker ())) = some [.node ()] := by decide
  rw [hr] at hpopped
  exact ⟨r, hr, Option.some.inj hpopped, hfifo⟩

end NgxRpc
