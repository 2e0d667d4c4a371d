import NgxRpc.Custody

/-!
# Wake-ups

A pusher appends to a pending list in one step and writes the eventfd in another;
the consumer reads the eventfd in one step and drains the list in later ones. A
list that is not empty is always noticed: the eventfd is readable, or a pusher has
still to write it, or the consumer has still to pop.

## Main results

- `queue_noticed` — no wake-up is lost, in every run
-/

namespace NgxRpc
open CircularList Transition

variable {W P T : Type}

/-- The process is inside its event handler, before another pop of its own list. -/
def Pc.beforePop : Pc W P T → Bool
  | .draining _ => true
  | .running _ _ => true
  | .handing _ _ => true
  | .signalling _ _ _ => true
  | _ => false

/-- Some pusher stands between its append to the list of `n` and its `eventfd_write`. -/
def Pushing (s : State W P T) (n : Process W P) : Prop :=
  (∃ t p, n = .processor p ∧ s.http t = .signalling p) ∨
    ∃ p t m, s.pc (.processor p) = .signalling t n m

/-- The consumer `n` will look at its list again. -/
def Noticed (s : State W P T) (n : Process W P) : Prop :=
  0 < s.eventFd n ∨ Pushing s n ∨ (s.pc n).beforePop = true

variable [DecidableEq W] [DecidableEq P] [DecidableEq T] {s s' : State W P T} {a : Action W P T}

/-- Only the consumer's `read` makes its eventfd unreadable, and then it drains. -/
theorem step_eventFd (h : Step s a s') {n : Process W P} (hn : 0 < s.eventFd n) :
    0 < s'.eventFd n ∨ (s'.pc n).beforePop = true := by
  have hwrite : ∀ m, 0 < Function.update s.eventFd m (eventfdWrite (s.eventFd m)) n := by
    intro m
    by_cases hm : n = m
    · subst hm
      simpa using eventfdWrite_pos _
    · simpa [hm] using hn
  cases h with
  | write hpc => exact Or.inl (hwrite _)
  | signal hpc => exact Or.inl (hwrite _)
  | @read m hpc =>
    by_cases hm : n = m
    -- its own `read` zeroes the counter, and the drain loop follows
    · subst hm
      exact Or.inr (by simp [Pc.beforePop])
    · exact Or.inl (by simpa [hm] using hn)
  | _ => exact Or.inl hn

/-- A pusher goes on by writing the eventfd. -/
theorem step_pushing (hcreated : ∀ t, s.task t = none → s.http t = .rest) (h : Step s a s')
    {n : Process W P} (hn : Pushing s n) : Pushing s' n ∨ 0 < s'.eventFd n := by
  have hhandler : ∀ {t c}, s'.http = Function.update s.http t c → s'.pc = s.pc →
      (∀ p, s.http t ≠ .signalling p) → Pushing s' n := by
    intro t c hhttp hpc hne
    obtain ⟨u, p, rfl, hu⟩ | ⟨p, u, m, hp⟩ := hn
    · have hut : u ≠ t := by
        rintro rfl
        exact hne p hu
      exact Or.inl ⟨u, p, rfl, by simpa [hhttp, hut] using hu⟩
    · exact Or.inr ⟨p, u, m, by rwa [hpc]⟩
  have hprocess : ∀ {q c}, s'.pc = Function.update s.pc q c → s'.http = s.http →
      (∀ t n m, s.pc q ≠ .signalling t n m) → Pushing s' n := by
    intro q c hpc hhttp hne
    obtain ⟨u, p, rfl, hu⟩ | ⟨p, u, m, hp⟩ := hn
    · exact Or.inl ⟨u, p, rfl, by rwa [hhttp]⟩
    · have hpq : .processor p ≠ q := by
        rintro rfl
        exact hne u n m hp
      exact Or.inr ⟨p, u, m, by simpa [hpc, hpq] using hp⟩
  cases h with
  | post hnew => exact Or.inl (hhandler rfl rfl (by simp [hcreated _ hnew]))
  | takeNone hpc hc htake => exact Or.inl (hhandler rfl rfl (by simp [hpc]))
  | takeSome hpc hc htake => exact Or.inl (hhandler rfl rfl (by simp [hpc]))
  | takeWild hpc hc htake => exact Or.inl (hhandler rfl rfl (by simp [hpc]))
  | refuse hpc hc => exact Or.inl (hhandler rfl rfl (by simp [hpc]))
  | pushTaken hpc hc hp => exact Or.inl (hhandler rfl rfl (by simp [hpc]))
  | pushDone hpc hc hp => exact Or.inl (hhandler rfl rfl (by simp [hpc]))
  | @write t q hpc =>
    -- the pusher of `n` itself writes, or some other pusher does
    by_cases hq : n = .processor q
    · subst hq
      exact Or.inr (by simpa using eventfdWrite_pos _)
    · obtain ⟨u, p, rfl, hu⟩ | hn := hn
      · have hut : u ≠ t := by
          rintro rfl
          simp_all
        exact Or.inl (Or.inl ⟨u, p, rfl, by simpa [hut] using hu⟩)
      · exact Or.inl (Or.inr hn)
  | subrequestAgain hpc hsub => exact Or.inl hn
  | subrequestDone hpc hsub => exact Or.inl (hhandler rfl rfl (by simp [hpc]))
  | @signal q t k m hpc =>
    by_cases hk : n = k
    · subst hk
      exact Or.inr (by simpa using eventfdWrite_pos _)
    · obtain hn | ⟨p, u, m', hp⟩ := hn
      · exact Or.inl (Or.inl hn)
      · have hpq : p ≠ q := by
          rintro rfl
          simp_all
        exact Or.inl (Or.inr ⟨p, u, m', by simpa [hpq] using hp⟩)
  | _ hpc => exact Or.inl (hprocess rfl rfl (by simp [hpc]))

/-- The consumer leaves its drain loop only when it has seen its list empty. -/
theorem step_beforePop {pend : Pending (Process W P) T} (hrep : Represents s.queue pend)
    (h : Step s a s') {n : Process W P} (hn : (s.pc n).beforePop = true) :
    (s'.pc n).beforePop = true ∨ s'.queue.prev (.queueHead n) = .queueHead n := by
  have hset : ∀ {m c}, s'.pc = Function.update s.pc m c →
      (s.pc m).beforePop = false ∨ c.beforePop = true → (s'.pc n).beforePop = true := by
    intro m c hpc hc
    by_cases hm : n = m
    · subst hm
      obtain hc | hc := hc
      · simp [hc] at hn
      · simpa [hpc] using hc
    · simpa [hpc, hm] using hn
  cases h with
  | readEvent hpc => exact Or.inl (hset rfl (Or.inl (by rw [hpc]; rfl)))
  | writeEvent hpc => exact Or.inl (hset rfl (Or.inr rfl))
  | read hpc => exact Or.inl (hset rfl (Or.inr rfl))
  | @popWorker w m Q hpc hpop =>
    obtain ⟨rfl, hempty⟩ := notifyPopTask_none hpop
    by_cases hm : n = .worker w
    · exact Or.inr (hm ▸ hempty)
    · exact Or.inl (by simpa [hm] using hn)
  | @popProcessor p m Q hpc hpop =>
    obtain ⟨rfl, hempty⟩ := notifyPopTask_none hpop
    by_cases hm : n = .processor p
    · exact Or.inr (hm ▸ hempty)
    · exact Or.inl (by simpa [hm] using hn)
  | popTask hpc hpop => exact Or.inl (hset rfl (Or.inr rfl))
  | popWild hpc hpop => exact absurd hpop hrep.pop_ne_queueHead
  | finishRequest hpc => exact Or.inl (hset rfl (Or.inr rfl))
  | finishDropped hpc => exact Or.inl (hset rfl (Or.inr rfl))
  | forwardRequest hpc => exact Or.inl (hset rfl (Or.inr rfl))
  | forwardDropped hpc => exact Or.inl (hset rfl (Or.inr rfl))
  | hand hpc => exact Or.inl (hset rfl (Or.inr rfl))
  | signal hpc => exact Or.inl (hset rfl (Or.inr rfl))
  | insert hpc => exact Or.inl (hset rfl (Or.inl (by rw [hpc]; rfl)))
  | requestFinish hpc => exact Or.inl (hset rfl (Or.inr rfl))
  | requestFoward hpc => exact Or.inl (hset rfl (Or.inr rfl))
  | requestFowardError hpc => exact Or.inl (hset rfl (Or.inr rfl))
  | _ => exact Or.inl hn

omit [DecidableEq W] [DecidableEq P] [DecidableEq T] in
theorem prev_queueHead_notifyPushTask [DecidableEq (Process W P)] [DecidableEq T]
    (Q : Links (QueueNode (Process W P) T)) {n m : Process W P} (hm : n ≠ m) (t : T) :
    (notifyPushTask Q m (.node t)).prev (.queueHead n) = Q.prev (.queueHead n) := by
  simp [notifyPushTask, hm]

/-- A list that was empty and is not after the step was pushed to. -/
theorem step_queue {pend : Pending (Process W P) T} (hrep : Represents s.queue pend)
    (h : Step s a s') {n : Process W P} (hn : s'.queue.prev (.queueHead n) ≠ .queueHead n) :
    s.queue.prev (.queueHead n) ≠ .queueHead n ∨ Pushing s' n := by
  cases h with
  | @pushTaken t c p hpc hc hp =>
    by_cases hm : n = .processor p
    · exact Or.inr (Or.inl ⟨t, p, hm, by simp⟩)
    · exact Or.inl (by simpa [prev_queueHead_notifyPushTask _ hm] using hn)
  | @pushDone t c p hpc hc hp =>
    by_cases hm : n = .processor p
    · exact Or.inr (Or.inl ⟨t, p, hm, by simp⟩)
    · exact Or.inl (by simpa [prev_queueHead_notifyPushTask _ hm] using hn)
  | @hand p t m c k hpc hc hk =>
    by_cases hm : n = k
    · exact Or.inr (Or.inr ⟨p, t, m, by simp [hm]⟩)
    · exact Or.inl (by simpa [prev_queueHead_notifyPushTask _ hm] using hn)
  | popWorker hpc hpop => exact Or.inl ((notifyPopTask_none hpop).1 ▸ hn)
  | popProcessor hpc hpop => exact Or.inl ((notifyPopTask_none hpop).1 ▸ hn)
  | @popTask k t m Q hpc hpop =>
    obtain ⟨ts, hk, hrep'⟩ := hrep.pop_node hpop
    refine Or.inl fun hempty => hn ?_
    by_cases hm : n = k
    · subst hm
      simp [hrep.empty_iff, hk] at hempty
    · exact (hrep'.empty_iff n).mpr (by simpa [hm] using (hrep.empty_iff n).mp hempty)
  | popWild hpc hpop => exact absurd hpop hrep.pop_ne_queueHead
  | _ => exact Or.inl hn

/-- One step loses no wake-up. -/
theorem step_noticed {pend : Pending (Process W P) T} (hrep : Represents s.queue pend)
    (hcreated : ∀ t, s.task t = none → s.http t = .rest) (h : Step s a s') {n : Process W P}
    (hold : s.queue.prev (.queueHead n) ≠ .queueHead n → Noticed s n)
    (hn : s'.queue.prev (.queueHead n) ≠ .queueHead n) : Noticed s' n := by
  -- either the list was non-empty before, or this step appended to it
  obtain hne | hp := step_queue hrep h hn
  · obtain hfd | hp | hpop := hold hne
    · obtain hfd | hpop := step_eventFd h hfd
      · exact Or.inl hfd
      · exact Or.inr (Or.inr hpop)
    · obtain hp | hfd := step_pushing hcreated h hp
      · exact Or.inr (Or.inl hp)
      · exact Or.inl hfd
    · obtain hpop | hempty := step_beforePop hrep h hpop
      · exact Or.inr (Or.inr hpop)
      · exact absurd hempty hn
  · exact Or.inr (Or.inl hp)

/-- A request without a task has no handler running. -/
theorem step_created {pend : Pending (Process W P) T} {loc : T → Option (Place W P)}
    (hl : Located s pend loc) (hold : ∀ t, s.task t = none → s.http t = .rest) (h : Step s a s')
    (t : T) (ht : s'.task t = none) : s'.http t = .rest := by
  have hset : ∀ {u c}, s'.http = Function.update s.http u c → s'.task u ≠ none →
      (∀ t, s'.task t = none → s.task t = none) → s'.http t = .rest := by
    intro u c hhttp hu htask
    have htu : t ≠ u := by
      rintro rfl
      exact hu ht
    simpa [hhttp, htu] using hold t (htask t ht)
  have hupdate : ∀ {u c}, s'.task = Function.update s.task u (some c) →
      ∀ t, s'.task t = none → s.task t = none := by
    intro u c htask v hv
    by_cases hvu : v = u
    · subst hvu
      simp [htask] at hv
    · simpa [htask, hvu] using hv
  cases h with
  | post hnew => exact hset rfl (by simp) (hupdate rfl)
  | takeNone hpc hc htake => exact hset rfl (by simp [hc]) fun _ hu => hu
  | takeSome hpc hc htake => exact hset rfl (by simp) (hupdate rfl)
  | takeWild hpc hc htake => exact hset rfl (by simp [hc]) fun _ hu => hu
  | refuse hpc hc => exact hset rfl (by simp [hc]) fun _ hu => hu
  | pushTaken hpc hc hp => exact hset rfl (by simp [hc]) fun _ hu => hu
  | pushDone hpc hc hp => exact hset rfl (by simp [hc]) fun _ hu => hu
  | write hpc => exact hset rfl (fun hu => by simp [hold _ hu] at hpc) fun _ hu => hu
  | subrequestDone hpc hsub =>
    have hloc := hl.loc_of_subrequests hsub
    exact hset rfl (fun hu => hl.not_young (by simp [hloc]) (Or.inl hu)) fun _ hu => hu
  | finishRequest hpc hc hr hd => exact hold t (hupdate rfl t ht)
  | forwardRequest hpc hc hr hd => exact hold t (hupdate rfl t ht)
  | forwardDropped hpc hc hr hd => exact hold t (hupdate rfl t ht)
  | _ => exact hold t ht

/-- No wake-up is lost: in every state reached by any interleaving, the consumer of
a pending list that is not empty will look at it again. -/
theorem queue_noticed (h : Reachable State.step .init s) (n : Process W P)
    (hn : s.queue.prev (.queueHead n) ≠ .queueHead n) : Noticed s n := by
  have hinv : (∀ t, s.task t = none → s.http t = .rest) ∧
      ∀ n, s.queue.prev (.queueHead n) ≠ .queueHead n → Noticed s n := by
    refine h.invariant (fun s => (∀ t, s.task t = none → s.http t = .rest) ∧
      ∀ n, s.queue.prev (.queueHead n) ≠ .queueHead n → Noticed s n) ⟨fun _ _ => rfl, ?_⟩ ?_
    · exact fun n hn => absurd rfl hn
    · rintro s a s' hr ⟨hcreated, hold⟩ - hstep
      obtain ⟨pend, loc, hl⟩ := runs_located hr
      exact ⟨step_created hl hcreated (step_cases hstep), fun n =>
        step_noticed hl.represents hcreated (step_cases hstep) (hold n)⟩
  exact hinv.2 n hn

/-- The pusher of the first request stands before its `eventfd_write`. -/
theorem queue_noticed_request :
    ∃ s : State Unit Unit Unit,
      exec State.step .init (startUp () ++ [.post () (), .take (), .push ()]) = some s ∧
        Noticed s (.processor ()) := by
  obtain ⟨s, hs, hne⟩ := Option.map_eq_some_iff.mp
    (show (exec State.step (State.init : State Unit Unit Unit)
      (startUp () ++ [.post () (), .take (), .push ()])).map (fun s =>
        s.queue.prev (.queueHead (.processor ()))) = some (.node ()) by decide)
  exact ⟨s, hs, queue_noticed (reachable_of_exec hs) (.processor ()) (by simp [hne])⟩

end NgxRpc
