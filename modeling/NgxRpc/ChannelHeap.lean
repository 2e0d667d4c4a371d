import Mathlib.Data.List.Nodup
import Mathlib.Data.List.Perm.Basic
import Mathlib.Logic.Function.Basic

/-!
# Channels and messages on the heap of a processor

The generated handler of a method makes a channel and the request and response it owns;
`forward_request` makes another channel, which owns the messages it is given. When the task
is answered `finish_request` deletes the channel it is called with, and `foward_done` the one
it was registered with. Nothing deletes a message: `RpcChannel::destructor`, which would, is
never called.

## Main definitions

- `runTask` — a task from the generated handler to the last frame
- `Released` — every channel and every message is deleted once

## Main results

- `channels_deleted` — every channel is
- `not_released` — no task releases its messages
-/

namespace NgxRpc

/-- The fields of an `RpcChannel` that point to objects; `0` is `NULL`. -/
structure RpcChannel where
  req : ℕ
  res : ℕ
  preCntl : ℕ
deriving DecidableEq

/-- The heap of a processor: objects are numbered as they are made with `new`. -/
structure ProcHeap where
  next : ℕ
  channels : List ℕ
  messages : List ℕ
  fields : ℕ → RpcChannel
  /-- the calls of `delete`, the last one first -/
  deleted : List ℕ

namespace ProcHeap

/-- No object has been made for the task. -/
def empty : ProcHeap := ⟨1, [], [], fun _ => ⟨0, 0, 0⟩, []⟩

/-- `new RpcChannel(r)`. -/
def newChannel (h : ProcHeap) : ℕ × ProcHeap :=
  (h.next, { h with
    next := h.next + 1
    channels := h.next :: h.channels
    fields := Function.update h.fields h.next ⟨0, 0, 0⟩ })

/-- Set the fields of a channel. -/
def assign (h : ProcHeap) (channel : ℕ) (c : RpcChannel) : ProcHeap :=
  { h with fields := Function.update h.fields channel c }

/-- `new` of a request or response. -/
def newMessage (h : ProcHeap) : ℕ × ProcHeap :=
  (h.next, { h with next := h.next + 1, messages := h.next :: h.messages })

/-- `delete`. -/
def delete (h : ProcHeap) (o : ℕ) : ProcHeap := { h with deleted := o :: h.deleted }

/-- The messages that channels own. -/
def owned (h : ProcHeap) : List ℕ :=
  h.channels.flatMap fun c => [(h.fields c).req, (h.fields c).res]

end ProcHeap

/-- A message that user code passes to `forward_request`: a new one, or one that it has. -/
inductive MessageArg where
  | new
  | old (m : ℕ)
deriving DecidableEq

/-- A call of `forward_request` by a method or a callback. -/
structure ForwardCall where
  req : MessageArg
  res : MessageArg
deriving DecidableEq

/-- The message itself. -/
def ProcHeap.message (h : ProcHeap) : MessageArg → ℕ × ProcHeap
  | .new => h.newMessage
  | .old m => (m, h)

/-- `RpcChannel::finish_request`. -/
def ProcHeap.finishRequest (h : ProcHeap) (channel : ℕ) : ProcHeap := h.delete channel

/-- `RpcChannel::forward_request` on channel `cntl`: the result is the new channel, for which
`foward_done` is registered. -/
def ProcHeap.forwardRequest (h : ProcHeap) (cntl req res : ℕ) : ℕ × ProcHeap :=
  let (newChannel, h) := h.newChannel
  (newChannel, h.assign newChannel ⟨req, res, cntl⟩)

theorem ProcHeap.forwardRequest_preCntl (h : ProcHeap) (cntl req res : ℕ) :
    ((h.forwardRequest cntl req res).2.fields (h.forwardRequest cntl req res).1).preCntl =
      cntl := by
  simp [forwardRequest, assign]

/-- A method or a callback with channel `cntl`: it calls `forward_request`, or `done`. -/
def userCode (h : ProcHeap) (cntl : ℕ) : Option ForwardCall → ProcHeap × Option ℕ
  | none => (h.finishRequest cntl, none)
  | some f =>
    let (req, h) := h.message f.req
    let (res, h) := h.message f.res
    let (channel, h) := h.forwardRequest cntl req res
    (h, some channel)

/-- `RpcChannel::foward_done`; the callback is called with `pre_cntl`. -/
def fowardDone (h : ProcHeap) (newChannel : ℕ) (next : Option ForwardCall) :
    ProcHeap × Option ℕ :=
  let (h, registered) := userCode h (h.fields newChannel).preCntl next
  (h.delete newChannel, registered)

/-- The handler that is generated for a method. -/
def methodHandler (h : ProcHeap) (parsed : Bool) (next : Option ForwardCall) :
    ProcHeap × Option ℕ :=
  let (cntl, h) := h.newChannel
  let (req, h) := h.newMessage
  let (res, h) := h.newMessage
  let h := h.assign cntl ⟨req, res, 0⟩
  if parsed then userCode h cntl next
  -- `done` with `NGX_HTTP_INTERNAL_SERVER_ERROR`
  else (h.finishRequest cntl, none)

/-- The closures of a task from `foward_done` with channel `newChannel` on. -/
def runClosures (h : ProcHeap) (newChannel : ℕ) : List ForwardCall → ProcHeap
  | [] => (fowardDone h newChannel none).1
  | f :: fs =>
    match fowardDone h newChannel (some f) with
    | (h, some channel) => runClosures h channel fs
    | (h, none) => h

/-- A task whose method forwards as `forwards` says, one callback after the other, and then
answers. -/
def runTask (h : ProcHeap) (parsed : Bool) : List ForwardCall → ProcHeap
  | [] => (methodHandler h parsed none).1
  | f :: fs =>
    match methodHandler h parsed (some f) with
    | (h, some channel) => runClosures h channel fs
    | (h, none) => h

/-- Every channel, and every message that one owns, has been deleted exactly once. -/
def Released (h : ProcHeap) : Prop := ∀ o ∈ h.channels ++ h.owned, h.deleted.count o = 1

instance : DecidablePred Released := fun h =>
  inferInstanceAs (Decidable (∀ o ∈ h.channels ++ h.owned, h.deleted.count o = 1))

/-! ## What is alive -/

/-- The channels in `alive` are those that have not been deleted, and no message has been. -/
structure Accounts (alive : List ℕ) (h : ProcHeap) : Prop where
  perm : (alive ++ h.deleted).Perm h.channels
  nodup : (h.channels ++ h.messages).Nodup
  bound : ∀ o ∈ h.channels ++ h.messages, o < h.next

namespace Accounts

variable {alive : List ℕ} {h : ProcHeap} {o : ℕ}

theorem empty : Accounts [] .empty := ⟨.refl _, List.nodup_nil, by simp [ProcHeap.empty]⟩

theorem fresh (hacc : Accounts alive h) : h.next ∉ h.channels ++ h.messages :=
  fun hmem => Nat.lt_irrefl _ (hacc.bound _ hmem)

theorem newChannel (hacc : Accounts alive h) :
    Accounts (h.newChannel.1 :: alive) h.newChannel.2 where
  perm := hacc.perm.cons h.next
  nodup := List.nodup_cons.mpr ⟨hacc.fresh, hacc.nodup⟩
  bound := by
    intro o ho
    obtain rfl | ho := List.mem_cons.mp ho
    · exact Nat.lt_succ_self _
    · exact Nat.lt_succ_of_lt (hacc.bound o ho)

theorem newMessage (hacc : Accounts alive h) : Accounts alive h.newMessage.2 where
  perm := hacc.perm
  nodup := List.perm_middle.nodup_iff.mpr (List.nodup_cons.mpr ⟨hacc.fresh, hacc.nodup⟩)
  bound := by
    intro o ho
    obtain rfl | ho := List.mem_cons.mp (List.perm_middle.mem_iff.mp ho)
    · exact Nat.lt_succ_self _
    · exact Nat.lt_succ_of_lt (hacc.bound o ho)

theorem assign (hacc : Accounts alive h) (channel : ℕ) (c : RpcChannel) :
    Accounts alive (h.assign channel c) := ⟨hacc.perm, hacc.nodup, hacc.bound⟩

theorem delete (hacc : Accounts (o :: alive) h) : Accounts alive (h.delete o) where
  perm := List.perm_middle.trans hacc.perm
  nodup := hacc.nodup
  bound := hacc.bound

theorem perm_alive {alive' : List ℕ} (hacc : Accounts alive h) (hp : alive.Perm alive') :
    Accounts alive' h where
  perm := (hp.append_right _).symm.trans hacc.perm
  nodup := hacc.nodup
  bound := hacc.bound

theorem message (hacc : Accounts alive h) (arg : MessageArg) :
    Accounts alive (h.message arg).2 := by
  cases arg with
  | new => exact hacc.newMessage
  | old m => exact hacc

/-- With nothing alive, every channel was deleted once. -/
theorem count_channel (hacc : Accounts [] h) (ho : o ∈ h.channels) : h.deleted.count o = 1 := by
  have hperm : h.deleted.Perm h.channels := hacc.perm
  rw [hperm.count_eq]
  exact List.count_eq_one_of_mem (List.nodup_append.mp hacc.nodup).1 ho

theorem count_message (hacc : Accounts alive h) (ho : o ∈ h.messages) : h.deleted.count o = 0 := by
  refine List.count_eq_zero.mpr fun hdel => ?_
  have hchannel := hacc.perm.mem_iff.mp (List.mem_append_right alive hdel)
  exact (List.nodup_append.mp hacc.nodup).2.2 o hchannel o ho rfl

end Accounts

/-! ## A task -/

/-- The handler's channel `cntl` owns a message. -/
structure Holds (cntl : ℕ) (h : ProcHeap) : Prop where
  channel : cntl ∈ h.channels
  owns : (h.fields cntl).req ∈ h.messages

/-- Besides `rest`, what is alive after user code was called with channel `cntl`: nothing when
the task is answered, else `cntl` and the channel that is registered. -/
def Reached (cntl : ℕ) (rest : List ℕ) (h : ProcHeap) : Option ℕ → Prop
  | none => Accounts rest h ∧ Holds cntl h
  | some newChannel => Accounts (newChannel :: cntl :: rest) h ∧ Holds cntl h ∧
      (h.fields newChannel).preCntl = cntl

variable {h : ProcHeap} {cntl newChannel : ℕ} {alive rest : List ℕ}

theorem Holds.newMessage (hold : Holds cntl h) : Holds cntl h.newMessage.2 :=
  ⟨hold.channel, List.mem_cons_of_mem _ hold.owns⟩

theorem Holds.message (hold : Holds cntl h) (arg : MessageArg) : Holds cntl (h.message arg).2 := by
  cases arg with
  | new => exact hold.newMessage
  | old m => exact hold

/-- The new channel is another one than the handler's. -/
theorem Holds.forwardRequest (hacc : Accounts alive h) (hold : Holds cntl h) (req res : ℕ) :
    Holds cntl (h.forwardRequest cntl req res).2 := by
  have hne : cntl ≠ h.next := by
    rintro rfl
    exact hacc.fresh (List.mem_append_left _ hold.channel)
  refine ⟨List.mem_cons_of_mem _ hold.channel, ?_⟩
  show (Function.update (Function.update h.fields h.next _) h.next _ cntl).req ∈ h.messages
  rw [Function.update_of_ne hne, Function.update_of_ne hne]
  exact hold.owns

theorem reached_userCode (hacc : Accounts (cntl :: rest) h) (hold : Holds cntl h)
    (next : Option ForwardCall) :
    Reached cntl rest (userCode h cntl next).1 (userCode h cntl next).2 := by
  cases next with
  | none => exact ⟨hacc.delete, hold.channel, hold.owns⟩
  | some f =>
    have hacc' := (hacc.message f.req).message f.res
    have hold' := (hold.message f.req).message f.res
    exact ⟨hacc'.newChannel.assign _ _, hold'.forwardRequest hacc' _ _,
      ProcHeap.forwardRequest_preCntl _ _ _ _⟩

/-- `foward_done` deletes its own channel, after the callback. -/
theorem reached_fowardDone (hreach : Reached cntl [] h (some newChannel))
    (next : Option ForwardCall) :
    Reached cntl [] (fowardDone h newChannel next).1 (fowardDone h newChannel next).2 := by
  obtain ⟨hacc, hold, hpre⟩ := hreach
  have hcall := reached_userCode (hacc.perm_alive (.swap cntl newChannel [])) hold next
  rw [fowardDone]
  rw [hpre]
  cases hreg : (userCode h cntl next).2 with
  | none =>
    rw [hreg] at hcall
    exact ⟨hcall.1.delete, hcall.2.channel, hcall.2.owns⟩
  | some channel =>
    rw [hreg] at hcall
    have hperm : ([channel, cntl] ++ [newChannel]).Perm ([newChannel] ++ [channel, cntl]) :=
      List.perm_append_comm
    exact ⟨(hcall.1.perm_alive hperm).delete, ⟨hcall.2.1.channel, hcall.2.1.owns⟩, hcall.2.2⟩

theorem reached_methodHandler (parsed : Bool) (next : Option ForwardCall) :
    ∃ cntl, Reached cntl [] (methodHandler .empty parsed next).1
      (methodHandler .empty parsed next).2 := by
  -- the channel and its two messages, before the body is parsed
  let h := ProcHeap.empty.newChannel.2.newMessage.2.newMessage.2.assign 1 ⟨2, 3, 0⟩
  have hacc : Accounts [1] h := Accounts.empty.newChannel.newMessage.newMessage.assign 1 ⟨2, 3, 0⟩
  have hold : Holds 1 h := ⟨by decide, by decide⟩
  refine ⟨1, ?_⟩
  cases parsed with
  | true => exact reached_userCode hacc hold next
  | false => exact reached_userCode hacc hold none

/-- The task ends with all channels deleted. -/
theorem reached_runClosures (fs : List ForwardCall) (hreach : Reached cntl [] h (some newChannel)) :
    Reached cntl [] (runClosures h newChannel fs) none := by
  induction fs generalizing h newChannel with
  | nil => exact reached_fowardDone hreach none
  | cons f fs ih =>
    have hdone := reached_fowardDone hreach (some f)
    exact ih hdone

theorem reached_runTask (parsed : Bool) (fs : List ForwardCall) :
    ∃ cntl, Reached cntl [] (runTask .empty parsed fs) none := by
  cases fs with
  | nil =>
    obtain ⟨cntl, hreach⟩ := reached_methodHandler parsed none
    cases parsed with
    | true => exact ⟨cntl, hreach⟩
    | false => exact ⟨cntl, hreach⟩
  | cons f fs =>
    obtain ⟨cntl, hreach⟩ := reached_methodHandler parsed (some f)
    cases parsed with
    | true => exact ⟨cntl, reached_runClosures fs hreach⟩
    | false => exact ⟨cntl, hreach⟩

/-- Every channel of a task is deleted exactly once. -/
theorem channels_deleted (parsed : Bool) (fs : List ForwardCall) :
    ∀ o ∈ (runTask .empty parsed fs).channels, (runTask .empty parsed fs).deleted.count o = 1 := by
  intro o ho
  obtain ⟨cntl, hacc, -⟩ := reached_runTask parsed fs
  exact hacc.count_channel ho

/-- No task releases the request that its handler made. -/
theorem not_released (parsed : Bool) (fs : List ForwardCall) :
    ¬Released (runTask .empty parsed fs) := by
  intro hreleased
  obtain ⟨cntl, hacc, hold⟩ := reached_runTask parsed fs
  have howned : ((runTask .empty parsed fs).fields cntl).req ∈ (runTask .empty parsed fs).owned :=
    List.mem_flatMap.mpr ⟨cntl, hold.channel, List.mem_cons_self⟩
  have hone := hreleased _ (List.mem_append_right _ howned)
  rw [hacc.count_message hold.owns] at hone
  cases hone

/-- A direct answer leaves two messages behind, and a forward two more. -/
theorem not_released_direct : ¬Released (runTask .empty true []) ∧
    (runTask .empty true []).deleted = [1] ∧ (runTask .empty true []).owned = [2, 3] ∧
    ¬Released (runTask .empty true [⟨.new, .new⟩]) := by
  decide

end NgxRpc
