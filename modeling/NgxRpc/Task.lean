import Mathlib.Data.Option.Basic

/-!
# Task control fields

A task lives in shared memory, but the pointers its `closure` and `finish`
fields carry are valid in one process only. This module models the part of
`ngx_rpc_task_s` that decides which process runs what next, and the functions
that install handlers in it.
-/

namespace NgxRpc

/-- The processes: HTTP workers and rpc processors. Each of them registers one
notify slot, so a process also names its notify object. -/
inductive Process (W P : Type) where
  | worker (w : W)
  | processor (p : P)
deriving DecidableEq

/-- The functions stored in `task->closure.handler` and `task->finish.handler`.
`method` stands for the generated handler of the requested method. -/
inductive Handler where
  | null
  | method
  | fowardDone
  | requestFoward
  | requestFinish
deriving DecidableEq

/-- The pointers stored in `task->closure.p1` and `task->finish.p1`, with the
process whose heap they point into: the rpc context and the request belong to
the worker that accepted the request, a channel to the processor that created
it. A channel carries its request pointer `r`, given by the owner of `r`. -/
inductive Argument (W P : Type) where
  | null
  | rpcCtx (r : W)
  | channel (creator : P) (r : W)
  | request (r : W)
deriving DecidableEq

/-- `task_closure_t`. -/
structure TaskClosure (W P : Type) where
  handler : Handler
  p1 : Argument W P
deriving DecidableEq

/-- The fields of `ngx_rpc_task_s` that route the task. -/
structure TaskControl (W P : Type) where
  procNotify : Option P
  doneNotify : Option (Process W P)
  closure : TaskClosure W P
  finish : TaskClosure W P
deriving DecidableEq

namespace TaskControl

variable {W P : Type}

/-- The task `ngx_http_rpc_post_async_handler` prepares in worker `w`: a zeroed
task from `ngx_http_rpc_task_create` with `done_notify` and `closure` set. -/
def posted (w : W) : TaskControl W P where
  procNotify := none
  doneNotify := some (.worker w)
  closure := ⟨.method, .rpcCtx w⟩
  finish := ⟨.null, .null⟩

/-- The request pointer `r` of the channel a running closure works on: the
generated handler creates its channel from the rpc context, `foward_done` gets
the channel that `forward_request` created. Any other pairing of handler and
argument reads a pointer at the wrong type and has no value here. -/
def channelRequest (c : TaskControl W P) : Option W :=
  match c.closure with
  | ⟨.method, .rpcCtx r⟩ => some r
  | ⟨.fowardDone, .channel _ r⟩ => some r
  | _ => none

/-- The handler fields after `RpcChannel::finish_request`. -/
def finishRequest (c : TaskControl W P) (r : W) : TaskControl W P :=
  { c with finish := ⟨.requestFinish, .request r⟩ }

/-- The handler fields after `RpcChannel::forward_request` run by `p`. -/
def forwardRequest (c : TaskControl W P) (p : P) (r : W) : TaskControl W P :=
  { c with
    finish := ⟨.requestFoward, .request r⟩
    closure := ⟨.fowardDone, .channel p r⟩ }

end TaskControl

end NgxRpc
