import NgxRpc.Foundation.Runs
import NgxRpc.IdleList
import NgxRpc.Notify
import NgxRpc.Task

/-!
# The dispatch of tasks between processes

HTTP workers hand requests to rpc processors and get them back through shared
memory. The state holds the idle list, the pending lists and eventfds of all
notify objects, the control fields of all tasks, and the control point of every
process. One action is one section under `idles_lock` or `queue_lock`, one
system call on an eventfd, or the process-local code between two of them, so a
list of actions is an interleaving of the processes.

Every request has one task, and both are named by `t : T`. The handlers that a
worker runs for a request outside the drain loop of its own notify object have
a control point of their own.

## Main definitions

- `State`, `Action`, `State.step` — the transition system
- `Step`, `step_cases` — everything an action can do, guards included
- `Aside`, `Step.aside` — the steps that move no task
-/

namespace NgxRpc
open CircularList

/-- Which event handler runs the drain: `ngx_rpc_notify_write_handler`, or one
round of `ngx_rpc_notify_read_handler` whose `read` returned a positive number
or not. -/
inductive Mode where
  | write
  | read (positive : Bool)
deriving DecidableEq

/-- The control points of a process around its notify object. -/
inductive Pc (W P T : Type) where
  /-- waiting for events -/
  | rest
  /-- at the `read` of `ngx_rpc_notify_read_handler` -/
  | reading
  /-- at `ngx_rpc_notify_pop_task` of the drain loop -/
  | draining (m : Mode)
  /-- popped `t`, inside its handler -/
  | running (t : T) (m : Mode)
  /-- inside a closure of `t`, at the locked section of `ngx_rpc_notify_push_task` -/
  | handing (t : T) (m : Mode)
  /-- inside a closure of `t`, at the `eventfd_write` that follows -/
  | signalling (t : T) (notify : Process W P) (m : Mode)
  /-- at the end of `ngx_proc_rpc_process_one_cycle` -/
  | inserting (m : Mode)
  /-- popped an address that is not a task -/
  | wild
deriving DecidableEq

/-- Where the event handler goes on after the drain: the read handler repeats
while its `read` returned a positive number. -/
def Mode.next {W P T : Type} : Mode → Pc W P T
  | .write => .rest
  | .read true => .reading
  | .read false => .rest

/-- The task a process holds outside all lists. -/
def Pc.holds {W P T : Type} : Pc W P T → Option T
  | .running t _ => some t
  | .handing t _ => some t
  | _ => none

@[simp] theorem Mode.holds_next {W P T : Type} (m : Mode) : (m.next : Pc W P T).holds = none := by
  obtain _ | positive := m
  · rfl
  · cases positive <;> rfl

/-- The control points of the handlers of one request in its worker. -/
inductive RequestPc (P : Type) where
  | rest
  /-- `ngx_http_rpc_post_async_handler`, at `ngx_rpc_queue_push_and_notify` -/
  | posted
  /-- between the two locked sections of `ngx_rpc_queue_push_and_notify` -/
  | taken
  /-- `ngx_rpc_queue_push_and_notify` returned `NGX_ERROR` -/
  | refused
  /-- `ngx_http_rpc_subrequest_done_handler`, at `ngx_rpc_notify_push_task` -/
  | subrequestDone
  /-- at the `eventfd_write` of `ngx_rpc_notify_push_task` -/
  | signalling (p : P)
  /-- `task->proc_notify` was computed from `queue->idles` itself -/
  | wild
deriving DecidableEq

/-- Shared memory, the control points, and history variables. -/
structure State (W P T : Type) where
  idles : IdleList P
  queue : Links (QueueNode (Process W P) T)
  eventFd : Process W P → ℕ
  /-- the task of a request, once created -/
  task : T → Option (TaskControl W P)
  pc : Process W P → Pc W P T
  http : T → RequestPc P
  /-- outstanding sub-requests of a request -/
  subrequests : T → ℕ
  /-- history: tasks a processor was taken for and has not finished running -/
  owing : P → List T
  /-- history: the processor has run a task it was taken for since it last
  linked itself, or has never linked itself -/
  earned : P → Bool
  /-- history: `ngx_rpc_queue_push_and_notify` accepted the task -/
  accepted : T → Bool
  /-- history: runs of `ngx_http_rpc_request_finish` on the task -/
  finished : T → ℕ
  /-- history: how often the task was pushed, and how often it was popped -/
  handed : T → ℕ
  ran : T → ℕ

variable {W P T : Type}

namespace State

/-- Fresh notify objects, no requests. -/
def init : State W P T where
  idles := .init
  queue := .isolated
  eventFd := fun _ => 0
  task := fun _ => none
  pc := fun _ => .rest
  http := fun _ => .rest
  subrequests := fun _ => 0
  owing := fun _ => []
  earned := fun _ => true
  accepted := fun _ => false
  finished := fun _ => 0
  handed := fun _ => 0
  ran := fun _ => 0

variable [DecidableEq W] [DecidableEq P] [DecidableEq T]

/-- The process goes to control point `c`. -/
@[simp] def setPc (s : State W P T) (n : Process W P) (c : Pc W P T) : State W P T :=
  { s with pc := Function.update s.pc n c }

/-- The handler of request `t` goes to control point `c`. -/
@[simp] def setHttp (s : State W P T) (t : T) (c : RequestPc P) : State W P T :=
  { s with http := Function.update s.http t c }

/-- The control fields of a task are overwritten. -/
@[simp] def setTask (s : State W P T) (t : T) (c : TaskControl W P) : State W P T :=
  { s with task := Function.update s.task t (some c) }

/-- The locked section of `ngx_rpc_notify_push_task` on the node of `t`. -/
@[simp] def pushTask (s : State W P T) (n : Process W P) (t : T) : State W P T :=
  { s with
    queue := notifyPushTask s.queue n (.node t)
    handed := Function.update s.handed t (s.handed t + 1) }

/-- The `eventfd_write` of `ngx_rpc_notify_push_task`. -/
@[simp] def writeEventFd (s : State W P T) (n : Process W P) : State W P T :=
  { s with eventFd := Function.update s.eventFd n (eventfdWrite (s.eventFd n)) }

/-- `ngx_http_rpc_post_async_handler` up to `ngx_rpc_queue_push_and_notify`, for
a request `t` that worker `w` has just read. -/
def post (s : State W P T) (w : W) (t : T) : Option (State W P T) :=
  match s.task t with
  | some _ => none
  | none => some ((s.setTask t (.posted w)).setHttp t .posted)

/-- `ngx_rpc_queue_push_and_notify` up to the end of its section under
`idles_lock` and the assignment of `task->proc_notify`. -/
def take (s : State W P T) (t : T) : Option (State W P T) :=
  match s.http t, s.task t with
  | .posted, some c =>
    match s.idles.take with
    -- `NGX_ERROR` is returned outside the lock
    | (I, none) => some ({ s with idles := I }.setHttp t .refused)
    | (I, some (.notify p)) =>
      some (({ s with
        idles := I
        owing := Function.update s.owing p (s.owing p ++ [t]) }.setTask t
          { c with procNotify := some p }).setHttp t .taken)
    | (I, some .queue) => some ({ s with idles := I }.setHttp t .wild)
  | _, _ => none

/-- `ngx_http_rpc_post_async_handler` after a refused push: it answers with
`NGX_HTTP_INTERNAL_SERVER_ERROR` by calling `ngx_http_rpc_request_finish`. -/
def refuse (s : State W P T) (t : T) : Option (State W P T) :=
  match s.http t, s.task t with
  | .refused, some _ => some ({ s with
      finished := Function.update s.finished t (s.finished t + 1) }.setHttp t .rest)
  | _, _ => none

/-- The locked section of `ngx_rpc_notify_push_task(task->proc_notify, ..)`,
called by `ngx_rpc_queue_push_and_notify` or by the sub-request handler. -/
def push (s : State W P T) (t : T) : Option (State W P T) :=
  match s.http t, s.task t with
  | .taken, some c =>
    c.procNotify.map fun p =>
      { s.pushTask (.processor p) t with
        accepted := Function.update s.accepted t true }.setHttp t (.signalling p)
  | .subrequestDone, some c =>
    c.procNotify.map fun p =>
      { s.pushTask (.processor p) t with
        subrequests := Function.update s.subrequests t (s.subrequests t - 1) }.setHttp t
          (.signalling p)
  | _, _ => none

/-- The `eventfd_write` after such a push. -/
def write (s : State W P T) (t : T) : Option (State W P T) :=
  match s.http t with
  | .signalling p => some ((s.writeEventFd (.processor p)).setHttp t .rest)
  | _ => none

/-- nginx calls `ngx_http_rpc_subrequest_done_handler` for an outstanding
sub-request; with `NGX_AGAIN` the handler returns at once. -/
def subrequestDone (s : State W P T) (t : T) (again : Bool) : Option (State W P T) :=
  if s.http t = .rest ∧ 0 < s.subrequests t then
    if again then some s else some (s.setHttp t .subrequestDone)
  else none

/-- epoll calls `ngx_rpc_notify_read_handler`. -/
def readEvent (s : State W P T) (n : Process W P) : Option (State W P T) :=
  match s.pc n with
  | .rest => some (s.setPc n .reading)
  | _ => none

/-- epoll calls `ngx_rpc_notify_write_handler`. -/
def writeEvent (s : State W P T) (n : Process W P) : Option (State W P T) :=
  match s.pc n with
  | .rest => some (s.setPc n (.draining .write))
  | _ => none

/-- The `read` of `ngx_rpc_notify_read_handler`. -/
def read (s : State W P T) (n : Process W P) : Option (State W P T) :=
  match s.pc n with
  | .reading =>
    let (positive, c) := eventfdRead (s.eventFd n)
    some ({ s with eventFd := Function.update s.eventFd n c }.setPc n
      (.draining (.read positive)))
  | _ => none

/-- `ngx_rpc_notify_pop_task` in the drain loop of `n`. When the list is empty a
worker's handler is done, and a processor goes on to link itself as idle. -/
def pop (s : State W P T) (n : Process W P) : Option (State W P T) :=
  match s.pc n with
  | .draining m =>
    match notifyPopTask s.queue n with
    | (Q, none) =>
      some ({ s with queue := Q }.setPc n (match n with
        | .worker _ => m.next
        | .processor _ => .inserting m))
    | (Q, some (.node t)) =>
      some ({ s with
        queue := Q
        ran := Function.update s.ran t (s.ran t + 1) }.setPc n (.running t m))
    | (Q, some (.queueHead _)) => some ({ s with queue := Q }.setPc n .wild)
  | _ => none

/-- A closure of `t` returns to the drain loop of processor `p`. -/
@[simp] def closureReturn (s : State W P T) (p : P) (t : T) (m : Mode) : State W P T :=
  { s with
    owing := Function.update s.owing p ((s.owing p).erase t)
    earned := if t ∈ s.owing p then Function.update s.earned p true else s.earned }.setPc
      (.processor p) (.draining m)

/-- The closure that `p` runs ends in `RpcChannel::finish_request`: the body did
not parse, or the service method or forward callback called `done`. -/
def finishRequest (s : State W P T) (p : P) : Option (State W P T) :=
  match s.pc (.processor p) with
  | .running t m =>
    (s.task t).bind fun c => c.channelRequest.map fun r =>
      -- without a `done_notify` the channel is deleted and the task goes nowhere
      if c.doneNotify = none then s.closureReturn p t m
      else (s.setTask t (c.finishRequest r)).setPc (.processor p) (.handing t m)
  | _ => none

/-- The closure that `p` runs ends in `RpcChannel::forward_request`. -/
def forwardRequest (s : State W P T) (p : P) : Option (State W P T) :=
  match s.pc (.processor p) with
  | .running t m =>
    (s.task t).bind fun c => c.channelRequest.map fun r =>
      let s := s.setTask t (c.forwardRequest p r)
      if c.doneNotify = none then s.closureReturn p t m
      else s.setPc (.processor p) (.handing t m)
  | _ => none

/-- The locked section of `ngx_rpc_notify_push_task(task->done_notify, ..)`. -/
def hand (s : State W P T) (p : P) : Option (State W P T) :=
  match s.pc (.processor p) with
  | .handing t m =>
    (s.task t).bind fun c => c.doneNotify.map fun n =>
      (s.pushTask n t).setPc (.processor p) (.signalling t n m)
  | _ => none

/-- The `eventfd_write` after it, and the return to the drain loop. -/
def signal (s : State W P T) (p : P) : Option (State W P T) :=
  match s.pc (.processor p) with
  | .signalling t n m => some ((s.writeEventFd n).closureReturn p t m)
  | _ => none

/-- The section of `ngx_proc_rpc_process_one_cycle` under `idles_lock`. -/
def insert (s : State W P T) (p : P) : Option (State W P T) :=
  match s.pc (.processor p) with
  | .inserting m => some ({ s with
      idles := s.idles.insert p
      earned := Function.update s.earned p false }.setPc (.processor p) m.next)
  | _ => none

/-- Worker `w` runs `ngx_http_rpc_request_finish` on the task it popped. -/
def requestFinish (s : State W P T) (w : W) : Option (State W P T) :=
  match s.pc (.worker w) with
  | .running t m =>
    if (s.task t).map (·.finish.handler) = some .requestFinish then
      some ({ s with
        finished := Function.update s.finished t (s.finished t + 1) }.setPc (.worker w)
          (.draining m))
    else none
  | _ => none

/-- Worker `w` runs `ngx_http_rpc_request_foward` on the task it popped.
`created` says whether `ngx_http_subrequest` returned `NGX_OK`; the code does
not look at it. -/
def requestFoward (s : State W P T) (w : W) (created : Bool) : Option (State W P T) :=
  match s.pc (.worker w) with
  | .running t m =>
    if (s.task t).map (·.finish.handler) = some .requestFoward then
      some ({ s with
        -- the return value of `ngx_http_subrequest` is ignored
        subrequests :=
          if created then Function.update s.subrequests t (s.subrequests t + 1)
          else s.subrequests }.setPc (.worker w) (.draining m))
    else none
  | _ => none

end State

/-- The actions of the system. -/
inductive Action (W P T : Type) where
  | post (w : W) (t : T)
  | take (t : T)
  | refuse (t : T)
  | push (t : T)
  | write (t : T)
  | subrequestDone (t : T) (again : Bool)
  | readEvent (n : Process W P)
  | writeEvent (n : Process W P)
  | read (n : Process W P)
  | pop (n : Process W P)
  | finishRequest (p : P)
  | forwardRequest (p : P)
  | hand (p : P)
  | signal (p : P)
  | insert (p : P)
  | requestFinish (w : W)
  | requestFoward (w : W) (created : Bool)
deriving DecidableEq

variable [DecidableEq W] [DecidableEq P] [DecidableEq T]

/-- One action of one process. -/
def State.step (s : State W P T) : Action W P T → Option (State W P T)
  | .post w t => s.post w t
  | .take t => s.take t
  | .refuse t => s.refuse t
  | .push t => s.push t
  | .write t => s.write t
  | .subrequestDone t again => s.subrequestDone t again
  | .readEvent n => s.readEvent n
  | .writeEvent n => s.writeEvent n
  | .read n => s.read n
  | .pop n => s.pop n
  | .finishRequest p => s.finishRequest p
  | .forwardRequest p => s.forwardRequest p
  | .hand p => s.hand p
  | .signal p => s.signal p
  | .insert p => s.insert p
  | .requestFinish w => s.requestFinish w
  | .requestFoward w created => s.requestFoward w created

/-- Everything an action can do, with its guards: the case analysis behind every
invariant of the system. -/
inductive Step (s : State W P T) : Action W P T → State W P T → Prop where
  | post {w t} (hnew : s.task t = none) :
      Step s (.post w t) ((s.setTask t (.posted w)).setHttp t .posted)
  | takeNone {t c I} (hpc : s.http t = .posted) (hc : s.task t = some c)
      (htake : s.idles.take = (I, none)) :
      Step s (.take t) ({ s with idles := I }.setHttp t .refused)
  | takeSome {t c I p} (hpc : s.http t = .posted) (hc : s.task t = some c)
      (htake : s.idles.take = (I, some (.notify p))) :
      Step s (.take t) (({ s with
        idles := I
        owing := Function.update s.owing p (s.owing p ++ [t]) }.setTask t
          { c with procNotify := some p }).setHttp t .taken)
  | takeWild {t c I} (hpc : s.http t = .posted) (hc : s.task t = some c)
      (htake : s.idles.take = (I, some .queue)) :
      Step s (.take t) ({ s with idles := I }.setHttp t .wild)
  | refuse {t c} (hpc : s.http t = .refused) (hc : s.task t = some c) :
      Step s (.refuse t) ({ s with
        finished := Function.update s.finished t (s.finished t + 1) }.setHttp t .rest)
  | pushTaken {t c p} (hpc : s.http t = .taken) (hc : s.task t = some c)
      (hp : c.procNotify = some p) :
      Step s (.push t) ({ s.pushTask (.processor p) t with
        accepted := Function.update s.accepted t true }.setHttp t (.signalling p))
  | pushDone {t c p} (hpc : s.http t = .subrequestDone) (hc : s.task t = some c)
      (hp : c.procNotify = some p) :
      Step s (.push t) ({ s.pushTask (.processor p) t with
        subrequests := Function.update s.subrequests t (s.subrequests t - 1) }.setHttp t
          (.signalling p))
  | write {t p} (hpc : s.http t = .signalling p) :
      Step s (.write t) ((s.writeEventFd (.processor p)).setHttp t .rest)
  | subrequestAgain {t} (hpc : s.http t = .rest) (hsub : 0 < s.subrequests t) :
      Step s (.subrequestDone t true) s
  | subrequestDone {t} (hpc : s.http t = .rest) (hsub : 0 < s.subrequests t) :
      Step s (.subrequestDone t false) (s.setHttp t .subrequestDone)
  | readEvent {n} (hpc : s.pc n = .rest) : Step s (.readEvent n) (s.setPc n .reading)
  | writeEvent {n} (hpc : s.pc n = .rest) :
      Step s (.writeEvent n) (s.setPc n (.draining .write))
  | read {n} (hpc : s.pc n = .reading) :
      Step s (.read n) ({ s with eventFd := Function.update s.eventFd n 0 }.setPc n
        (.draining (.read (decide (0 < s.eventFd n)))))
  | popWorker {w m Q} (hpc : s.pc (.worker w) = .draining m)
      (hpop : notifyPopTask s.queue (.worker w) = (Q, none)) :
      Step s (.pop (.worker w)) ({ s with queue := Q }.setPc (.worker w) m.next)
  | popProcessor {p m Q} (hpc : s.pc (.processor p) = .draining m)
      (hpop : notifyPopTask s.queue (.processor p) = (Q, none)) :
      Step s (.pop (.processor p)) ({ s with queue := Q }.setPc (.processor p) (.inserting m))
  | popTask {n t m Q} (hpc : s.pc n = .draining m)
      (hpop : notifyPopTask s.queue n = (Q, some (.node t))) :
      Step s (.pop n) ({ s with
        queue := Q
        ran := Function.update s.ran t (s.ran t + 1) }.setPc n (.running t m))
  | popWild {n n' m Q} (hpc : s.pc n = .draining m)
      (hpop : notifyPopTask s.queue n = (Q, some (.queueHead n'))) :
      Step s (.pop n) ({ s with queue := Q }.setPc n .wild)
  | finishRequest {p t m c r} (hpc : s.pc (.processor p) = .running t m)
      (hc : s.task t = some c) (hr : c.channelRequest = some r) (hd : c.doneNotify ≠ none) :
      Step s (.finishRequest p)
        ((s.setTask t (c.finishRequest r)).setPc (.processor p) (.handing t m))
  | finishDropped {p t m c r} (hpc : s.pc (.processor p) = .running t m)
      (hc : s.task t = some c) (hr : c.channelRequest = some r) (hd : c.doneNotify = none) :
      Step s (.finishRequest p) (s.closureReturn p t m)
  | forwardRequest {p t m c r} (hpc : s.pc (.processor p) = .running t m)
      (hc : s.task t = some c) (hr : c.channelRequest = some r) (hd : c.doneNotify ≠ none) :
      Step s (.forwardRequest p)
        ((s.setTask t (c.forwardRequest p r)).setPc (.processor p) (.handing t m))
  | forwardDropped {p t m c r} (hpc : s.pc (.processor p) = .running t m)
      (hc : s.task t = some c) (hr : c.channelRequest = some r) (hd : c.doneNotify = none) :
      Step s (.forwardRequest p) ((s.setTask t (c.forwardRequest p r)).closureReturn p t m)
  | hand {p t m c n} (hpc : s.pc (.processor p) = .handing t m) (hc : s.task t = some c)
      (hn : c.doneNotify = some n) :
      Step s (.hand p) ((s.pushTask n t).setPc (.processor p) (.signalling t n m))
  | signal {p t n m} (hpc : s.pc (.processor p) = .signalling t n m) :
      Step s (.signal p) ((s.writeEventFd n).closureReturn p t m)
  | insert {p m} (hpc : s.pc (.processor p) = .inserting m) :
      Step s (.insert p) ({ s with
        idles := s.idles.insert p
        earned := Function.update s.earned p false }.setPc (.processor p) m.next)
  | requestFinish {w t m c} (hpc : s.pc (.worker w) = .running t m) (hc : s.task t = some c)
      (hf : c.finish.handler = .requestFinish) :
      Step s (.requestFinish w) ({ s with
        finished := Function.update s.finished t (s.finished t + 1) }.setPc (.worker w)
          (.draining m))
  | requestFoward {w t m c} (hpc : s.pc (.worker w) = .running t m) (hc : s.task t = some c)
      (hf : c.finish.handler = .requestFoward) :
      Step s (.requestFoward w true) ({ s with
        subrequests := Function.update s.subrequests t (s.subrequests t + 1) }.setPc (.worker w)
          (.draining m))
  | requestFowardError {w t m c} (hpc : s.pc (.worker w) = .running t m)
      (hc : s.task t = some c) (hf : c.finish.handler = .requestFoward) :
      Step s (.requestFoward w false) (s.setPc (.worker w) (.draining m))

/-- Every executed action is one of the listed cases. -/
theorem step_cases {s s' : State W P T} {a : Action W P T} (h : s.step a = some s') :
    Step s a s' := by
  cases a with
  | post w t =>
    simp only [State.step, State.post] at h
    split at h
    · cases h
    · next hnew =>
      cases h
      exact .post hnew
  | take t =>
    simp only [State.step, State.take] at h
    split at h
    · next c hpc hc =>
      split at h
      · next I htake =>
        cases h
        exact .takeNone hpc hc htake
      · next I p htake =>
        cases h
        exact .takeSome hpc hc htake
      · next I htake =>
        cases h
        exact .takeWild hpc hc htake
    · cases h
  | refuse t =>
    simp only [State.step, State.refuse] at h
    split at h
    · next c hpc hc =>
      cases h
      exact .refuse hpc hc
    · cases h
  | push t =>
    simp only [State.step, State.push] at h
    split at h
    · next c hpc hc =>
      obtain ⟨p, hp, rfl⟩ := Option.map_eq_some_iff.mp h
      exact .pushTaken hpc hc hp
    · next c hpc hc =>
      obtain ⟨p, hp, rfl⟩ := Option.map_eq_some_iff.mp h
      exact .pushDone hpc hc hp
    · cases h
  | write t =>
    simp only [State.step, State.write] at h
    split at h
    · next p hpc =>
      cases h
      exact .write hpc
    · cases h
  | subrequestDone t again =>
    simp only [State.step, State.subrequestDone] at h
    split at h
    · next hg =>
      cases again with
      | true =>
        obtain rfl : s = s' := by simpa using h
        exact .subrequestAgain hg.1 hg.2
      | false =>
        cases h
        exact .subrequestDone hg.1 hg.2
    · cases h
  | readEvent n =>
    simp only [State.step, State.readEvent] at h
    split at h
    · next hpc =>
      cases h
      exact .readEvent hpc
    · cases h
  | writeEvent n =>
    simp only [State.step, State.writeEvent] at h
    split at h
    · next hpc =>
      cases h
      exact .writeEvent hpc
    · cases h
  | read n =>
    simp only [State.step, State.read] at h
    split at h
    · next hpc =>
      cases h
      exact .read hpc
    · cases h
  | pop n =>
    simp only [State.step, State.pop] at h
    split at h
    · next m hpc =>
      split at h
      · next Q hpop =>
        cases n with
        | worker w =>
          cases h
          exact .popWorker hpc hpop
        | processor p =>
          cases h
          exact .popProcessor hpc hpop
      · next Q t hpop =>
        cases h
        exact .popTask hpc hpop
      · next Q n' hpop =>
        cases h
        exact .popWild hpc hpop
    · cases h
  | finishRequest p =>
    simp only [State.step, State.finishRequest] at h
    split at h
    · next t m hpc =>
      obtain ⟨c, hc, h⟩ := Option.bind_eq_some_iff.mp h
      obtain ⟨r, hr, rfl⟩ := Option.map_eq_some_iff.mp h
      by_cases hd : c.doneNotify = none
      · rw [if_pos hd]
        exact .finishDropped hpc hc hr hd
      · rw [if_neg hd]
        exact .finishRequest hpc hc hr hd
    · cases h
  | forwardRequest p =>
    simp only [State.step, State.forwardRequest] at h
    split at h
    · next t m hpc =>
      obtain ⟨c, hc, h⟩ := Option.bind_eq_some_iff.mp h
      obtain ⟨r, hr, rfl⟩ := Option.map_eq_some_iff.mp h
      by_cases hd : c.doneNotify = none
      · rw [if_pos hd]
        exact .forwardDropped hpc hc hr hd
      · rw [if_neg hd]
        exact .forwardRequest hpc hc hr hd
    · cases h
  | hand p =>
    simp only [State.step, State.hand] at h
    split at h
    · next t m hpc =>
      obtain ⟨c, hc, h⟩ := Option.bind_eq_some_iff.mp h
      obtain ⟨n, hn, rfl⟩ := Option.map_eq_some_iff.mp h
      exact .hand hpc hc hn
    · cases h
  | signal p =>
    simp only [State.step, State.signal] at h
    split at h
    · next t n m hpc =>
      cases h
      exact .signal hpc
    · cases h
  | insert p =>
    simp only [State.step, State.insert] at h
    split at h
    · next m hpc =>
      cases h
      exact .insert hpc
    · cases h
  | requestFinish w =>
    simp only [State.step, State.requestFinish] at h
    split at h
    · next t m hpc =>
      split at h
      · next hf =>
        obtain ⟨c, hc, hf⟩ := Option.map_eq_some_iff.mp hf
        cases h
        exact .requestFinish hpc hc hf
      · cases h
    · cases h
  | requestFoward w created =>
    simp only [State.step, State.requestFoward] at h
    split at h
    · next t m hpc =>
      split at h
      · next hf =>
        obtain ⟨c, hc, hf⟩ := Option.map_eq_some_iff.mp hf
        cases created with
        | true =>
          cases h
          exact .requestFoward hpc hc hf
        | false =>
          cases h
          exact .requestFowardError hpc hc hf
      · cases h
    · cases h

/-! ## The steps that move no task -/

/-- The process of an action that neither moves a task nor runs the handler of a request. -/
def State.aside (s : State W P T) : Action W P T → Option (Process W P)
  | .readEvent n => some n
  | .writeEvent n => some n
  | .read n => some n
  | .pop n => if (notifyPopTask s.queue n).2.isNone then some n else none
  | .signal p => some (.processor p)
  | .insert p => some (.processor p)
  | _ => none

/-- Process `n` goes on, with no task before and none after, and no request notices. -/
structure Aside (s : State W P T) (n : Process W P) (s' : State W P T) : Prop where
  before : (s.pc n).holds = none
  after : ∃ c : Pc W P T, c.holds = none ∧ s'.pc = Function.update s.pc n c
  queue : s'.queue = s.queue
  task : s'.task = s.task
  http : s'.http = s.http
  subrequests : s'.subrequests = s.subrequests
  accepted : s'.accepted = s.accepted
  finished : s'.finished = s.finished
  handed : s'.handed = s.handed
  ran : s'.ran = s.ran

/-- What all these steps have in common. -/
theorem Step.aside {s s' : State W P T} {a : Action W P T} {n : Process W P} (h : Step s a s')
    (ha : s.aside a = some n) : Aside s n s' := by
  cases h with
  | @readEvent m hpc =>
    obtain rfl : m = n := Option.some.inj ha
    exact ⟨by rw [hpc]; rfl, ⟨_, rfl, rfl⟩, rfl, rfl, rfl, rfl, rfl, rfl, rfl, rfl⟩
  | @writeEvent m hpc =>
    obtain rfl : m = n := Option.some.inj ha
    exact ⟨by rw [hpc]; rfl, ⟨_, rfl, rfl⟩, rfl, rfl, rfl, rfl, rfl, rfl, rfl, rfl⟩
  | @read m hpc =>
    obtain rfl : m = n := Option.some.inj ha
    exact ⟨by rw [hpc]; rfl, ⟨_, rfl, rfl⟩, rfl, rfl, rfl, rfl, rfl, rfl, rfl, rfl⟩
  | @popWorker w m Q hpc hpop =>
    obtain rfl : .worker w = n := by simpa [State.aside, hpop] using ha
    exact ⟨by rw [hpc]; rfl, ⟨_, m.holds_next, rfl⟩, (notifyPopTask_none hpop).1, rfl, rfl, rfl,
      rfl, rfl, rfl, rfl⟩
  | @popProcessor p m Q hpc hpop =>
    obtain rfl : .processor p = n := by simpa [State.aside, hpop] using ha
    exact ⟨by rw [hpc]; rfl, ⟨_, rfl, rfl⟩, (notifyPopTask_none hpop).1, rfl, rfl, rfl, rfl, rfl,
      rfl, rfl⟩
  | popTask hpc hpop => simp [State.aside, hpop] at ha
  | popWild hpc hpop => simp [State.aside, hpop] at ha
  | @signal p t k m hpc =>
    obtain rfl : .processor p = n := Option.some.inj ha
    exact ⟨by rw [hpc]; rfl, ⟨_, rfl, rfl⟩, rfl, rfl, rfl, rfl, rfl, rfl, rfl, rfl⟩
  | @insert p m hpc =>
    obtain rfl : .processor p = n := Option.some.inj ha
    exact ⟨by rw [hpc]; rfl, ⟨_, m.holds_next, rfl⟩, rfl, rfl, rfl, rfl, rfl, rfl, rfl, rfl⟩
  | _ => cases ha

end NgxRpc
