import NgxRpc.Foundation.Runs
import NgxRpc.Notify

/-!
# Pending lists over whole runs

Any number of processes push tasks to notify objects and pop them, one locked section
after the other, in any order. The histories of the calls say which queue the pointers
rooted at `queue_head` have to hold.

## Main definitions

- `QueueRun` — the links, and what was pushed and returned
- `Fifo` — a notify object is a FIFO queue

## Main results

- `runs_fifo` — every notify object is one, in every run
-/

namespace NgxRpc
open CircularList Transition

/-- The links of all pending lists, the tasks pushed to each notify object, and the nodes
its pops returned, the oldest first. -/
structure QueueRun (N T : Type) where
  queue : Links (QueueNode N T)
  pushed : N → List T
  popped : N → List (QueueNode N T)

/-- A call of `ngx_rpc_notify_push_task` or `ngx_rpc_notify_pop_task` by process `caller`. -/
inductive QueueCall (C N T : Type) where
  | push (caller : C) (notify : N) (task : T)
  | pop (caller : C) (notify : N)
deriving DecidableEq

namespace QueueRun

variable {C N T : Type}

/-- Notify objects after `ngx_queue_init`. -/
def init : QueueRun N T := ⟨Links.isolated, fun _ => [], fun _ => []⟩

/-- The abstract queue: what was pushed and has not come back. -/
def content (s : QueueRun N T) (n : N) : List T := (s.pushed n).drop (s.popped n).length

variable [DecidableEq N] [DecidableEq T]

/-- The locked section of one call. -/
def step (s : QueueRun N T) : QueueCall C N T → Option (QueueRun N T)
  | .push _ n t => some { s with
      queue := notifyPushTask s.queue n (.node t)
      pushed := Function.update s.pushed n (s.pushed n ++ [t]) }
  | .pop _ n =>
    match notifyPopTask s.queue n with
    | (Q, none) => some { s with queue := Q }
    | (Q, some node) => some { s with
        queue := Q
        popped := Function.update s.popped n (s.popped n ++ [node]) }

/-- A task is pushed only when it is linked in no list. -/
def PushesUnlinked (s : QueueRun N T) (a : QueueCall C N T) : Prop :=
  ∀ c n t, a = .push c n t → ∀ m, t ∉ s.content m

/-- Notify object `n` is a FIFO queue: its list is circular, reads as the abstract queue
forwards and as its reverse backwards, the pops returned what was pushed, in order and
each once, and a pop fails exactly when the queue is empty, and then changes nothing. -/
structure Fifo (s : QueueRun N T) (n : N) : Prop where
  ring : Ring s.queue (.queueHead n) ((s.content n).map .node)
  forward : ∀ i, (hi : i < (s.content n).length) →
    s.queue.next^[i + 1] (.queueHead n) = .node (s.content n)[i]
  forward_end : s.queue.next^[(s.content n).length + 1] (.queueHead n) = .queueHead n
  backward : ∀ i, (hi : i < (s.content n).reverse.length) →
    s.queue.prev^[i + 1] (.queueHead n) = .node (s.content n).reverse[i]
  backward_end : s.queue.prev^[(s.content n).length + 1] (.queueHead n) = .queueHead n
  order : (s.pushed n).map .node = s.popped n ++ (s.content n).map .node
  error_iff : (notifyPopTask s.queue n).2 = none ↔ s.content n = []
  error_unchanged : (notifyPopTask s.queue n).2 = none → (notifyPopTask s.queue n).1 = s.queue

/-- The links hold the abstract queues, and what came back is what was pushed first. -/
structure Queues (s : QueueRun N T) : Prop where
  represents : Represents s.queue s.content
  order : ∀ n, (s.pushed n).map .node = s.popped n ++ (s.content n).map .node

omit [DecidableEq N] [DecidableEq T] in
theorem init_queues : (init : QueueRun N T).Queues :=
  ⟨represents_isolated, fun _ => rfl⟩

variable {s s' : QueueRun N T}

omit [DecidableEq N] [DecidableEq T] in
/-- No more nodes came back than were pushed. -/
theorem Queues.length_le (h : s.Queues) (n : N) : (s.popped n).length ≤ (s.pushed n).length := by
  have hlen := congrArg List.length (h.order n)
  simp only [List.length_map, List.length_append] at hlen
  omega

theorem Queues.push (h : s.Queues) {n : N} {t : T} (ht : ∀ m, t ∉ s.content m) :
    Queues { s with
      queue := notifyPushTask s.queue n (.node t)
      pushed := Function.update s.pushed n (s.pushed n ++ [t]) } := by
  have hcontent : QueueRun.content { s with
      queue := notifyPushTask s.queue n (.node t)
      pushed := Function.update s.pushed n (s.pushed n ++ [t]) } =
      Function.update s.content n (s.content n ++ [t]) := by
    funext m
    by_cases hm : m = n
    · subst hm
      simp [content, List.drop_append_of_le_length (h.length_le m)]
    · simp [content, hm]
  refine ⟨?_, ?_⟩
  · rw [hcontent]
    exact h.represents.push n ht
  · intro m
    rw [hcontent]
    by_cases hm : m = n
    · subst hm
      simp [h.order m]
    · simp [hm, h.order m]

theorem Queues.pop (h : s.Queues) {n : N} {t : T} {Q : Links (QueueNode N T)}
    (hpop : notifyPopTask s.queue n = (Q, some (.node t))) :
    Queues { s with
      queue := Q
      popped := Function.update s.popped n (s.popped n ++ [.node t]) } := by
  obtain ⟨ts, hn, hrep⟩ := h.represents.pop_node hpop
  have hcontent : QueueRun.content { s with
      queue := Q
      popped := Function.update s.popped n (s.popped n ++ [.node t]) } =
      Function.update s.content n ts := by
    funext m
    by_cases hm : m = n
    · subst hm
      have htail : (s.content m).tail = ts := by rw [hn, List.tail_cons]
      simpa [content] using htail
    · simp [content, hm]
  refine ⟨?_, ?_⟩
  · rw [hcontent]
    exact hrep
  · intro m
    rw [hcontent]
    by_cases hm : m = n
    · subst hm
      simp [h.order m, hn]
    · simp [hm, h.order m]

/-- One locked section keeps the queues. -/
theorem Queues.step {a : QueueCall C N T} (h : s.Queues) (hok : PushesUnlinked s a)
    (hstep : s.step a = some s') : s'.Queues := by
  cases a with
  | push c n t =>
    obtain rfl := Option.some.inj hstep
    exact h.push (hok c n t rfl)
  | pop c n =>
    simp only [QueueRun.step] at hstep
    split at hstep
    · next Q hpop =>
      obtain rfl := Option.some.inj hstep
      rw [(notifyPopTask_none hpop).1]
      exact h
    · next Q node hpop =>
      obtain rfl := Option.some.inj hstep
      cases node with
      | node t => exact h.pop hpop
      | queueHead m => exact absurd hpop h.represents.pop_ne_queueHead

theorem Queues.fifo (h : s.Queues) (n : N) : s.Fifo n := by
  have hring := h.represents.ring n
  have hempty : (notifyPopTask s.queue n).2 = none ↔ s.content n = [] := by
    cases hn : s.content n with
    | nil => simp [h.represents.pop_nil hn]
    | cons t ts => simp [(h.represents.pop_cons hn).1]
  refine ⟨hring, ?_, ?_, ?_, ?_, h.order n, hempty, ?_⟩
  · intro i hi
    rw [hring.next_iterate i (by simpa using hi), List.getElem_map]
  · simpa using hring.next_iterate_length
  · intro i hi
    rw [hring.prev_iterate i (by simpa using hi)]
    simp
  · simpa using hring.prev_iterate_length
  · intro hnone
    rw [h.represents.pop_nil (hempty.mp hnone)]

/-- Every notify object is a FIFO queue, in every run in which no linked task is pushed. -/
theorem runs_fifo (h : RunsTo (step (C := C)) PushesUnlinked (init : QueueRun N T) s) (n : N) :
    s.Fifo n :=
  (h.invariant Queues init_queues fun _ _ _ _ hs hok hstep => hs.step hok hstep).fifo n

/-- Two processes push a task each, and one of the tasks is popped. -/
theorem runs_fifo_pop :
    ∃ s : QueueRun Unit Bool, s.content () = [true] ∧ s.popped () = [.node false] ∧ s.Fifo () := by
  have hok : ∀ (s : QueueRun Unit Bool) (c : Bool) (t : Bool), t ∉ s.content () →
      PushesUnlinked s (.push c () t) := by
    rintro s c t ht _ _ _ he m
    cases he
    exact ht
  have hpop : ∀ (s : QueueRun Unit Bool) (c : Bool), PushesUnlinked s (.pop c ()) := by
    rintro s c _ _ _ ⟨⟩
  have h₀ : RunsTo (step (C := Bool)) PushesUnlinked init (init : QueueRun Unit Bool) := .start
  have h₁ := RunsTo.next h₀ (hok _ false false (by decide)) rfl
  have h₂ := RunsTo.next h₁ (hok _ true true (by decide)) rfl
  have h₃ := RunsTo.next h₂ (hpop _ true) rfl
  exact ⟨_, by decide, by decide, runs_fifo h₃ ()⟩

end QueueRun

end NgxRpc
