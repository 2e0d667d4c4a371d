import NgxRpc.Foundation.CircularList
import Mathlib.Tactic.Common

/-!
# The idle list

`queue->idles` roots a list of the notify objects of idle processors, linked
through their own `idles` field. `ngx_rpc_queue_push_and_notify` unlinks the
first of them, and `ngx_proc_rpc_process_one_cycle` links its own notify object
in front when it has drained its pending tasks. Both sections run under
`idles_lock`.

## Main definitions

- `IdleList.take`, `IdleList.insert` — the two locked sections
- `IdleList.WellFormed` — the list links exactly the idle processors
- `IdleList.Linked` — what a traversal meets, also in a list that is not well formed
-/

namespace NgxRpc
open CircularList

/-- The addresses of the `ngx_queue_t` fields of the idle list: `queue->idles`
and the `idles` field of a processor's notify object. -/
inductive IdlesNode (P : Type) where
  | queue
  | notify (p : P)
deriving DecidableEq

/-- The links of the idle list. `idle` is a history variable: the processor has
put itself on the list and has not been taken off since. -/
structure IdleList (P : Type) where
  links : Links (IdlesNode P)
  idle : P → Bool

namespace IdleList

variable {P : Type}

/-- The state after `ngx_queue_init` on every node. -/
def init : IdleList P := ⟨Links.isolated, fun _ => false⟩

variable [DecidableEq P]

/-- The section of `ngx_rpc_queue_push_and_notify` under `idles_lock`, with the
node left in `proc_notify_node`. -/
def take (I : IdleList P) : IdleList P × Option (IdlesNode P) :=
  if I.links.prev .queue = .queue then
    (I, none)
  else
    let procNotifyNode := I.links.next .queue
    let L := I.links.setNext .queue (I.links.next procNotifyNode)
    let L := L.setPrev (L.next procNotifyNode) .queue
    match procNotifyNode with
    | .notify p => (⟨L, Function.update I.idle p false⟩, some (.notify p))
    -- the list looked non-empty through `prev` but is empty through `next`
    | .queue => (⟨L, I.idle⟩, some .queue)

/-- The section of `ngx_proc_rpc_process_one_cycle` under `idles_lock`, run by
processor `p`. -/
def insert (I : IdleList P) (p : P) : IdleList P :=
  let L := I.links.setNext (.notify p) (I.links.next .queue)
  let L := L.setPrev (L.next (.notify p)) (.notify p)
  let L := L.setPrev (.notify p) .queue
  let L := L.setNext .queue (.notify p)
  ⟨L, Function.update I.idle p true⟩

@[simp] theorem insert_links (I : IdleList P) (p : P) :
    (I.insert p).links = I.links.pushFront .queue (.notify p) := rfl

@[simp] theorem insert_idle (I : IdleList P) (p : P) :
    (I.insert p).idle = Function.update I.idle p true := rfl

/-- The assignments of `take` unlink the front node. -/
private theorem take_assignments (L : Links (IdlesNode P)) :
    (L.setNext .queue (L.next (L.next .queue))).setPrev
      ((L.setNext .queue (L.next (L.next .queue))).next (L.next .queue)) .queue =
      L.popFront .queue := by
  -- the code reads `proc_notify_node->next` again, after `idles.next` was written
  have hread : (L.setNext .queue (L.next (L.next .queue))).next (L.next .queue) =
      (L.setNext .queue (L.next (L.next .queue))).next .queue := by
    by_cases h : L.next .queue = .queue <;> simp [h]
  rw [hread]
  rfl

theorem take_of_empty {I : IdleList P} (h : I.links.prev .queue = .queue) :
    I.take = (I, none) := by
  simp [take, h]

theorem take_of_notify {I : IdleList P} {p : P} (h : I.links.prev .queue ≠ .queue)
    (hp : I.links.next .queue = .notify p) :
    I.take = (⟨I.links.popFront .queue, Function.update I.idle p false⟩, some (.notify p)) := by
  have hL := take_assignments I.links
  rw [hp] at hL
  simp only [take, h, if_false, hp]
  rw [hL]

/-- The list links each idle processor once and nothing else. -/
def WellFormed (I : IdleList P) : Prop :=
  ∃ xs : List P, Ring I.links .queue (xs.map .notify) ∧ ∀ p, p ∈ xs ↔ I.idle p = true

omit [DecidableEq P] in
theorem init_wellFormed : (init : IdleList P).WellFormed :=
  ⟨[], ring_isolated, by simp [init]⟩

omit [DecidableEq P] in
theorem notify_mem {xs : List P} {p : P} :
    IdlesNode.notify p ∈ .queue :: xs.map IdlesNode.notify ↔ p ∈ xs := by
  simp

/-- Linking a processor that is not on the list keeps the list well formed. -/
theorem WellFormed.insert {I : IdleList P} (h : I.WellFormed) {p : P} (hp : I.idle p = false) :
    (I.insert p).WellFormed := by
  obtain ⟨xs, hr, hmem⟩ := h
  have hout : p ∉ xs := by simp [hmem, hp]
  refine ⟨p :: xs, hr.pushFront (mt notify_mem.mp hout), ?_⟩
  intro q
  by_cases hq : q = p
  · subst hq
    simp
  · simp [hq, hmem]

/-- What `take` does to a well-formed list. -/
theorem WellFormed.take_cases {I : IdleList P} (h : I.WellFormed) :
    (I.take = (I, none) ∧ ∀ p, I.idle p = false) ∨
      ∃ I' p, I.take = (I', some (.notify p)) ∧ I'.WellFormed ∧ I.idle p = true ∧
        I'.idle = Function.update I.idle p false := by
  obtain ⟨xs, hr, hmem⟩ := h
  cases xs with
  | nil =>
    refine Or.inl ⟨take_of_empty (hr.prev_head_eq_iff.mpr rfl), ?_⟩
    intro p
    simpa using (hmem p).not.mp (by simp)
  | cons p ps =>
    have hne : I.links.prev .queue ≠ .queue := by simp [hr.prev_head_eq_iff]
    have hnd : p ∉ ps ∧ ps.Nodup := by
      have := (List.nodup_cons.mp hr.nodup).2.of_map
      exact List.nodup_cons.mp this
    refine Or.inr ⟨_, p, take_of_notify hne hr.next_head, ?_, (hmem p).mp (by simp), rfl⟩
    refine ⟨ps, hr.popFront, ?_⟩
    intro q
    by_cases hq : q = p
    · subst hq
      simp [hnd.1]
    · simp [← hmem, hq]

/-- `take` fails exactly when no processor is idle. -/
theorem WellFormed.take_none_iff {I : IdleList P} (h : I.WellFormed) :
    I.take.2 = none ↔ ∀ p, I.idle p = false := by
  obtain ⟨ht, hidle⟩ | ⟨I', p, ht, -, hp, -⟩ := h.take_cases
  · simp [ht, hidle]
  · simp only [ht, reduceCtorEq, false_iff, not_forall]
    exact ⟨p, by simp [hp]⟩

/-- The list after `k` takes. -/
def takes (k : ℕ) (I : IdleList P) : IdleList P := (fun J : IdleList P => J.take.1)^[k] I

omit [DecidableEq P] in
/-- Every idle processor is reached by following `next` from `queue->idles`. -/
theorem WellFormed.reachable {I : IdleList P} (h : I.WellFormed) {p : P}
    (hp : I.idle p = true) : ∃ k, I.links.next^[k + 1] .queue = .notify p := by
  obtain ⟨xs, hr, hmem⟩ := h
  obtain ⟨k, hk, he⟩ := List.getElem_of_mem ((hmem p).mpr hp)
  refine ⟨k, ?_⟩
  rw [hr.next_iterate k (by simpa using hk)]
  simp [he]

/-- Takes with no insertion in between hand out every idle processor. -/
theorem WellFormed.takes_reach {I : IdleList P} (h : I.WellFormed) {p : P}
    (hp : I.idle p = true) : ∃ k, (takes k I).take.2 = some (.notify p) := by
  obtain ⟨xs, hr, hmem⟩ := h
  induction xs generalizing I with
  | nil => simp [← hmem] at hp
  | cons q qs ih =>
    have hne : I.links.prev .queue ≠ .queue := by simp [hr.prev_head_eq_iff]
    have htake := take_of_notify hne hr.next_head
    by_cases hq : p = q
    · subst hq
      exact ⟨0, by simp [takes, htake]⟩
    -- one take removes the front `q`; the rest of the list is as before
    · have hnd : q ∉ qs := (List.nodup_cons.mp (List.nodup_cons.mp hr.nodup).2.of_map).1
      obtain ⟨k, hk⟩ := @ih I.take.1 (by simpa [htake, hq] using hp)
        (by simpa [htake] using hr.popFront) (by
          intro r
          rw [htake]
          by_cases hrq : r = q
          · subst hrq
            simp [hnd]
          · simp [← hmem, hrq])
      exact ⟨k + 1, hk⟩

/-- The list as a traversal sees it: following `next` from `queue->idles` visits
every idle processor exactly once and comes back, and `prev` undoes `next`. -/
def Circular (I : IdleList P) : Prop :=
  ∃ xs : List P, xs.Nodup ∧ (∀ p, p ∈ xs ↔ I.idle p = true) ∧
    (∀ i, (hi : i < xs.length) → I.links.next^[i + 1] .queue = .notify xs[i]) ∧
    I.links.next^[xs.length + 1] .queue = .queue ∧
    ∀ y ∈ IdlesNode.queue :: xs.map .notify, I.links.prev (I.links.next y) = y

omit [DecidableEq P] in
theorem WellFormed.circular {I : IdleList P} (h : I.WellFormed) : I.Circular := by
  obtain ⟨xs, hr, hmem⟩ := h
  refine ⟨xs, (List.nodup_cons.mp hr.nodup).2.of_map, hmem, ?_, ?_, hr.prev_next⟩
  · intro i hi
    rw [hr.next_iterate i (by simpa using hi)]
    simp
  · simpa using hr.next_iterate_length

/-- No idle processor is lost: each is reached by `next` links, a take fails only
when there is none, and takes alone eventually hand out each of them. -/
def NoneLost (I : IdleList P) : Prop :=
  (∀ p, I.idle p = true → ∃ k, I.links.next^[k] .queue = .notify p) ∧
    (I.take.2 = none → ∀ p, I.idle p = false) ∧
    ∀ p, I.idle p = true → ∃ k, (takes k I).take.2 = some (.notify p)

theorem WellFormed.noneLost {I : IdleList P} (h : I.WellFormed) : I.NoneLost := by
  refine ⟨?_, h.take_none_iff.mp, fun p hp => h.takes_reach hp⟩
  intro p hp
  obtain ⟨k, hk⟩ := h.reachable hp
  exact ⟨k + 1, hk⟩

omit [DecidableEq P] in
/-- A node that points to itself holds every later traversal. -/
theorem next_iterate_of_self_loop {L : Links (IdlesNode P)} {y : IdlesNode P}
    (hq : L.next .queue = y) (hy : L.next y = y) (k : ℕ) : L.next^[k + 1] .queue = y := by
  rw [Function.iterate_succ_apply, hq]
  exact Function.iterate_fixed hy k

omit [DecidableEq P] in
theorem not_circular_of_self_loop {I : IdleList P} {p : P}
    (hq : I.links.next .queue = .notify p) (hp : I.links.next (.notify p) = .notify p) :
    ¬I.Circular := by
  rintro ⟨xs, -, -, -, hback, -⟩
  rw [next_iterate_of_self_loop hq hp] at hback
  cases hback

/-- The sentinel's two links agree on whether the list is empty. -/
def Sound (I : IdleList P) : Prop :=
  I.links.prev .queue = .queue ↔ I.links.next .queue = .queue

omit [DecidableEq P] in
theorem init_sound : (init : IdleList P).Sound := Iff.rfl

/-- Soundness survives every insertion, also one of a linked processor. -/
theorem Sound.insert {I : IdleList P} (h : I.Sound) (p : P) : (I.insert p).Sound := by
  rw [Sound] at h ⊢
  by_cases hn : I.links.next .queue = .queue
  · simp [Links.pushFront, hn]
  · have hp : I.links.prev .queue ≠ .queue := fun e => hn (h.mp e)
    simp [Links.pushFront, Ne.symm hn, hp]

/-- In a sound list `take` never hands out `queue->idles` itself. -/
theorem Sound.take_ne_queue {I : IdleList P} (h : I.Sound) : I.take.2 ≠ some .queue := by
  by_cases he : I.links.prev .queue = .queue
  · simp [take_of_empty he]
  · cases hn : I.links.next .queue with
    | queue => exact absurd (h.mpr hn) he
    | notify p => simp [take_of_notify he hn]

theorem Sound.take {I : IdleList P} (h : I.Sound) : I.take.1.Sound := by
  by_cases he : I.links.prev .queue = .queue
  · simpa [take_of_empty he] using h
  · cases hn : I.links.next .queue with
    | queue => exact absurd (h.mpr hn) he
    | notify p =>
      rw [take_of_notify he hn]
      rw [Sound]
      by_cases hnn : I.links.next (.notify p) = .queue
      · simp [Links.popFront, hn, hnn]
      · simp [Links.popFront, hn, hnn, Ne.symm hnn, he]

/-- The notify object of `p` is met when the list is followed from `queue->idles`. -/
def Linked (I : IdleList P) (p : P) : Prop := I.links.Reaches .queue (.notify p)

omit [DecidableEq P] in
theorem not_linked_init (p : P) : ¬(init : IdleList P).Linked p :=
  Links.not_reaches_isolated (by simp)

omit [DecidableEq P] in
theorem WellFormed.linked_iff {I : IdleList P} (h : I.WellFormed) {p : P} :
    I.Linked p ↔ I.idle p = true := by
  obtain ⟨xs, hr, hmem⟩ := h
  rw [Linked]
  rw [hr.reaches_iff, notify_mem, hmem]

omit [DecidableEq P] in
theorem not_linked_of_next {I : IdleList P} (h : I.links.next .queue = .queue) (p : P) :
    ¬I.Linked p := by
  intro hp
  have hq : IdlesNode.notify p = .queue := by
    apply hp.induct (S := (· = .queue)) rfl
    rintro y rfl
    exact h
  cases hq

/-- `take` unlinks the front node or leaves the links. -/
theorem take_links (I : IdleList P) :
    I.take.1.links = I.links ∨ I.take.1.links = I.links.popFront .queue := by
  by_cases he : I.links.prev .queue = .queue
  · exact Or.inl (by simp [take_of_empty he])
  · right
    cases hn : I.links.next .queue with
    | notify p => simp [take_of_notify he hn]
    | queue =>
      have hL := take_assignments I.links
      simp only [hn] at hL
      simpa [take, he, hn] using hL

/-- No section under `idles_lock` links anything but the processor that runs it. -/
theorem Linked.of_take {I : IdleList P} {p : P} (h : I.take.1.Linked p) : I.Linked p := by
  rw [Linked] at h
  obtain he | he := I.take_links
  · rwa [he] at h
  · rw [he] at h
    exact h.of_popFront

theorem Linked.of_insert {I : IdleList P} {p q : P} (h : (I.insert q).Linked p) :
    p = q ∨ I.Linked p := by
  obtain he | h := Links.Reaches.of_pushFront h
  · exact Or.inl (by simpa using he)
  · exact Or.inr h

/-- Only linked processors are handed out. -/
theorem linked_of_take {I : IdleList P} {p : P} (h : I.take.2 = some (.notify p)) :
    I.Linked p := by
  by_cases he : I.links.prev .queue = .queue
  · simp [take_of_empty he] at h
  · cases hn : I.links.next .queue with
    | notify q =>
      obtain rfl : q = p := by simpa [take_of_notify he hn] using h
      exact ⟨1, hn⟩
    | queue => simp [take, he, hn] at h

end IdleList

end NgxRpc
