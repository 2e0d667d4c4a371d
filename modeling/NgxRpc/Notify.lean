import NgxRpc.Foundation.CircularList
import Mathlib.Algebra.Group.Nat.Defs
import Mathlib.Tactic.Common

/-!
# Notify objects

Every process owns one notify object in shared memory: a list of pending tasks
rooted at `queue_head`, linked through the `node` field of the tasks, and an
eventfd. This module models the locked sections of `ngx_rpc_notify_push_task`
and `ngx_rpc_notify_pop_task` as pointer assignments and shows that they
implement one FIFO queue per notify object.
-/

namespace NgxRpc
open CircularList

/-- The addresses of the `ngx_queue_t` fields of pending lists: the
`queue_head` of a notify object and the `node` of a task. -/
inductive QueueNode (N T : Type) where
  | queueHead (notify : N)
  | node (task : T)
deriving DecidableEq

theorem queueHead_injective {N T : Type} :
    Function.Injective (QueueNode.queueHead : N → QueueNode N T) :=
  fun _ _ h => QueueNode.queueHead.inj h

variable {N T : Type} [DecidableEq N] [DecidableEq T]

/-- The locked section of `ngx_rpc_notify_push_task`. -/
def notifyPushTask (Q : Links (QueueNode N T)) (notify : N) (node : QueueNode N T) :
    Links (QueueNode N T) :=
  let Q := Q.setPrev node (Q.prev (.queueHead notify))
  let Q := Q.setPrev (.queueHead notify) node
  let Q := Q.setNext (Q.prev node) node
  Q.setNext node (.queueHead notify)

/-- The locked section of `ngx_rpc_notify_pop_task`, with the node it stores
through its out parameter (`none` models `NULL`, and then `NGX_ERROR`). -/
def notifyPopTask (Q : Links (QueueNode N T)) (notify : N) :
    Links (QueueNode N T) × Option (QueueNode N T) :=
  if Q.prev (.queueHead notify) = .queueHead notify then
    (Q, none)
  else
    -- the front node keeps its own links
    let node := Q.next (.queueHead notify)
    let Q := Q.setNext (.queueHead notify) (Q.next node)
    let Q := Q.setPrev (Q.next (.queueHead notify)) (.queueHead notify)
    (Q, some node)

theorem notifyPushTask_eq_pushBack (Q : Links (QueueNode N T)) (n : N) (t : T) :
    notifyPushTask Q n (.node t) = Q.pushBack (.queueHead n) (.node t) := by
  -- the code writes `queue_head.prev` before it reads it back through `node->prev`
  have hnext : ∀ y, (notifyPushTask Q n (.node t)).next y =
      (Q.pushBack (.queueHead n) (.node t)).next y := by
    intro y
    simp [notifyPushTask, Links.pushBack]
  have hprev : ∀ y, (notifyPushTask Q n (.node t)).prev y =
      (Q.pushBack (.queueHead n) (.node t)).prev y := by
    intro y
    simp [notifyPushTask, Links.pushBack]
  cases h : notifyPushTask Q n (.node t)
  cases h' : Q.pushBack (.queueHead n) (.node t)
  simp only [h, h'] at hnext hprev
  rw [funext hnext, funext hprev]

theorem notifyPopTask_eq (Q : Links (QueueNode N T)) (n : N) :
    notifyPopTask Q n =
      if Q.prev (.queueHead n) = .queueHead n then (Q, none)
      else (Q.popFront (.queueHead n), some (Q.next (.queueHead n))) := rfl

/-- A pop that reports `NGX_ERROR` saw an empty list and left all links as they are. -/
theorem notifyPopTask_none {Q Q' : Links (QueueNode N T)} {n : N}
    (h : notifyPopTask Q n = (Q', none)) : Q' = Q ∧ Q.prev (.queueHead n) = .queueHead n := by
  rw [notifyPopTask_eq] at h
  split at h
  · next hempty => exact ⟨(congrArg Prod.fst h).symm, hempty⟩
  · simp at h

/-- The abstract content of all pending lists, front first. -/
abbrev Pending (N T : Type) := N → List T

/-- `Q` links exactly the tasks of `pend`, in order, one circular list per
notify object. -/
def Represents (Q : Links (QueueNode N T)) (pend : Pending N T) : Prop :=
  Forest Q QueueNode.queueHead fun n => (pend n).map QueueNode.node

omit [DecidableEq N] [DecidableEq T] in
theorem represents_isolated :
    Represents (Links.isolated : Links (QueueNode N T)) fun _ => [] :=
  Forest.isolated queueHead_injective

namespace Represents

variable {Q : Links (QueueNode N T)} {pend : Pending N T} {n m : N} {t : T} {ts : List T}

omit [DecidableEq N] [DecidableEq T] in
/-- A task is linked in at most one pending list. -/
theorem unique (h : Represents Q pend) (hn : t ∈ pend n) (hm : t ∈ pend m) : n = m :=
  h.disjoint n m (.node t) (List.mem_cons_of_mem _ (List.mem_map_of_mem hn))
    (List.mem_cons_of_mem _ (List.mem_map_of_mem hm))

omit [DecidableEq N] [DecidableEq T] in
/-- A task is linked at most once in a pending list. -/
theorem nodup (h : Represents Q pend) (n : N) : (pend n).Nodup :=
  (List.nodup_cons.mp (h.ring n).nodup).2.of_map _

omit [DecidableEq N] [DecidableEq T] in
/-- The links determine the pending lists. -/
theorem pending_eq {pend' : Pending N T} (h : Represents Q pend) (h' : Represents Q pend') :
    pend = pend' := by
  funext n
  have hnode : Function.Injective (QueueNode.node : T → QueueNode N T) :=
    fun _ _ he => QueueNode.node.inj he
  exact hnode.list_map ((h.ring n).unique (h'.ring n))

omit [DecidableEq N] [DecidableEq T] in
theorem empty_iff (h : Represents Q pend) (n : N) :
    Q.prev (.queueHead n) = .queueHead n ↔ pend n = [] := by
  rw [(h.ring n).prev_head_eq_iff, List.map_eq_nil_iff]

/-- Pushing an unlinked task appends it to the abstract queue. -/
theorem push (h : Represents Q pend) (n : N) (ht : ∀ m, t ∉ pend m) :
    Represents (notifyPushTask Q n (.node t)) (Function.update pend n (pend n ++ [t])) := by
  have hfresh : ∀ m, QueueNode.node t ∉ .queueHead m :: (pend m).map QueueNode.node := by
    intro m hm
    simp only [List.mem_cons, reduceCtorEq, false_or] at hm
    obtain ⟨u, hu, he⟩ := List.mem_map.mp hm
    exact ht m (QueueNode.node.inj he ▸ hu)
  have hlists : (fun m => (Function.update pend n (pend n ++ [t]) m).map QueueNode.node) =
      Function.update (fun m => (pend m).map (QueueNode.node (N := N))) n
        ((pend n).map QueueNode.node ++ [QueueNode.node t]) := by
    funext m
    by_cases hm : m = n
    · subst hm
      simp
    · simp [Function.update_of_ne hm]
  rw [Represents, notifyPushTask_eq_pushBack, hlists]
  exact Forest.pushBack h n hfresh

/-- Popping an empty queue reports `NGX_ERROR` and changes nothing. -/
theorem pop_nil (h : Represents Q pend) (hn : pend n = []) : notifyPopTask Q n = (Q, none) := by
  rw [notifyPopTask_eq, if_pos ((h.empty_iff n).mpr hn)]

/-- Popping a nonempty queue yields its oldest task. -/
theorem pop_cons (h : Represents Q pend) (hn : pend n = t :: ts) :
    notifyPopTask Q n = (Q.popFront (.queueHead n), some (.node t)) ∧
      Represents (Q.popFront (.queueHead n)) (Function.update pend n ts) := by
  have hne : ¬Q.prev (.queueHead n) = .queueHead n := by simp [h.empty_iff, hn]
  have hhead : Q.next (.queueHead n) = .node t := by
    rw [(h.ring n).next_head, hn]
    rfl
  refine ⟨by rw [notifyPopTask_eq, if_neg hne, hhead], ?_⟩
  have hlists : (fun m => (Function.update pend n ts m).map QueueNode.node) =
      Function.update (fun m => (pend m).map (QueueNode.node (N := N))) n
        (ts.map QueueNode.node) := by
    funext m
    by_cases hm : m = n
    · subst hm
      simp
    · simp [Function.update_of_ne hm]
  rw [Represents, hlists]
  exact Forest.popFront h n (by rw [hn]; rfl)

/-- A popped task was the oldest one. -/
theorem pop_node {Q' : Links (QueueNode N T)} (h : Represents Q pend)
    (hpop : notifyPopTask Q n = (Q', some (.node t))) :
    ∃ ts, pend n = t :: ts ∧ Represents Q' (Function.update pend n ts) := by
  cases hn : pend n with
  | nil => simp [h.pop_nil hn] at hpop
  | cons u ts =>
    obtain ⟨hpop', hrep⟩ := h.pop_cons hn
    obtain ⟨rfl, rfl⟩ : Q.popFront (.queueHead n) = Q' ∧ u = t := by
      simpa [hpop'] using hpop
    exact ⟨ts, rfl, hrep⟩

/-- The head of a notify object is never taken for a task. -/
theorem pop_ne_queueHead {Q' : Links (QueueNode N T)} (h : Represents Q pend) :
    notifyPopTask Q n ≠ (Q', some (.queueHead m)) := by
  intro hpop
  cases hn : pend n with
  | nil => simp [h.pop_nil hn] at hpop
  | cons t ts => simp [(h.pop_cons hn).1] at hpop

end Represents

/-- The largest value an eventfd counter takes. -/
def eventfdMax : ℕ := 2 ^ 64 - 2

/-- `eventfd_write(fd, 1)` on a non-blocking eventfd with counter `c`: at the
maximum it fails and leaves the counter. -/
def eventfdWrite (c : ℕ) : ℕ := if c < eventfdMax then c + 1 else c

/-- Reading a non-blocking eventfd with counter `c`: whether `read` returned a
positive number, and the counter afterwards. -/
def eventfdRead (c : ℕ) : Bool × ℕ := (decide (0 < c), 0)

theorem eventfdWrite_pos (c : ℕ) : 0 < eventfdWrite c := by
  rw [eventfdWrite, eventfdMax]
  split <;> omega

end NgxRpc
