import NgxRpc.IdleRuns

/-!
# Processors that leave

A processor enters through `ngx_rpc_notify_register` and leaves through
`ngx_proc_rpc_process_exit`, which frees its connection and closes its eventfd but takes no
lock and leaves `queue->idles` as it is.

## Main definitions

- `Fleet`, `Fleet.step` — the dispatch system in which processors come and go
- `Fleet.NoneRouted` — no departed processor can be taken by a push

## Main results

- `runs_noneRouted` — this holds in every run where each processor leaves while its notify
  object is not on the idle list
- `Fleet.not_noneRouted_exit` — and it fails after every other exit
-/

namespace NgxRpc
open CircularList Transition

/-- The dispatch system, and the notify objects some process is registered for. -/
structure Fleet (W P T : Type) where
  system : State W P T
  registered : P → Bool

/-- What happens in a fleet. -/
inductive FleetAction (W P T : Type) where
  | register (p : P)
  | exit (p : P)
  | act (a : Action W P T)

variable {W P T : Type}

/-- The processor whose process executes the action. -/
def Action.processor? : Action W P T → Option P
  | .readEvent (.processor p) => some p
  | .writeEvent (.processor p) => some p
  | .read (.processor p) => some p
  | .pop (.processor p) => some p
  | .finishRequest p => some p
  | .forwardRequest p => some p
  | .hand p => some p
  | .signal p => some p
  | .insert p => some p
  | _ => none

namespace Fleet

/-- Fresh notify objects, no processors. -/
def init : Fleet W P T := ⟨.init, fun _ => false⟩

variable [DecidableEq W] [DecidableEq P] [DecidableEq T]

/-- `ngx_rpc_notify_register`, called in the process that got slot `p`. -/
def register (s : Fleet W P T) (p : P) : Option (Fleet W P T) :=
  if s.registered p then none
  else some { s with registered := Function.update s.registered p true }

/-- `ngx_proc_rpc_process_exit`, called between two events of the process. The connection
and the eventfd are its own; of what the processes share it changes nothing. -/
def exit (s : Fleet W P T) (p : P) : Option (Fleet W P T) :=
  if s.registered p ∧ s.system.pc (.processor p) = .rest then
    some { s with registered := Function.update s.registered p false }
  else none

/-- One action; only registered processors take steps. -/
def step (s : Fleet W P T) : FleetAction W P T → Option (Fleet W P T)
  | .register p => s.register p
  | .exit p => s.exit p
  | .act a =>
    if (a.processor?.map s.registered).getD true then
      (s.system.step a).map fun sys => { s with system := sys }
    else none

/-- Everything a step can do to the idle list and the registrations. -/
inductive Step (s : Fleet W P T) : FleetAction W P T → Fleet W P T → Prop where
  | register {p} :
      Step s (.register p) { s with registered := Function.update s.registered p true }
  | exit {p} :
      Step s (.exit p) { s with registered := Function.update s.registered p false }
  | act {a sys} (hrun : ∀ p, a.processor? = some p → s.registered p = true)
      (hstep : NgxRpc.Step s.system a sys) : Step s (.act a) { s with system := sys }

theorem step_cases {s s' : Fleet W P T} {a : FleetAction W P T} (h : s.step a = some s') :
    Step s a s' := by
  cases a with
  | register p =>
    simp only [step, register] at h
    split at h
    · cases h
    · cases h
      exact .register
  | exit p =>
    simp only [step, exit] at h
    split at h
    · cases h
      exact .exit
    · cases h
  | act a =>
    simp only [step] at h
    split at h
    · next hg =>
      obtain ⟨sys, hsys, rfl⟩ := Option.map_eq_some_iff.mp h
      refine .act ?_ (NgxRpc.step_cases hsys)
      intro p hp
      simpa [hp] using hg
    · cases h

/-- No push that enters its locked section now selects a departed processor, nor one that
does so before something else is linked. -/
def NoneRouted (s : Fleet W P T) : Prop :=
  ∀ p, s.registered p = false →
    ¬s.system.idles.Linked p ∧ s.system.idles.take.2 ≠ some (.notify p)

omit [DecidableEq W] [DecidableEq T] in
theorem noneRouted_of_linked {s : Fleet W P T}
    (h : ∀ p, s.system.idles.Linked p → s.registered p = true) : s.NoneRouted := by
  intro p hp
  have hout : ¬s.system.idles.Linked p := by
    intro hl
    simp [h p hl] at hp
  exact ⟨hout, fun htake => hout (IdleList.linked_of_take htake)⟩

/-- A processor leaves only while its notify object is not on the idle list. -/
def ExitsUnlinked (s : Fleet W P T) (a : FleetAction W P T) : Prop :=
  ∀ p, a = .exit p → ¬s.system.idles.Linked p

/-- One permitted step links registered processors only. -/
theorem step_linked {s s' : Fleet W P T} {a : FleetAction W P T}
    (h : ∀ p, s.system.idles.Linked p → s.registered p = true) (hok : ExitsUnlinked s a)
    (hstep : Step s a s') : ∀ p, s'.system.idles.Linked p → s'.registered p = true := by
  intro p hp
  cases hstep with
  | @register q =>
    by_cases hpq : p = q
    · simp [hpq]
    · simpa [hpq] using h p hp
  | @exit q =>
    have hpq : p ≠ q := by
      rintro rfl
      exact hok p rfl hp
    simpa [hpq] using h p hp
  | @act a sys hrun hsys =>
    obtain he | ⟨t, -, he⟩ | ⟨q, rfl, he⟩ := step_idles hsys
    · exact h p (he ▸ hp)
    · apply h p
      rw [he] at hp
      exact hp.of_take
    · -- the processor that links itself takes a step, so it is registered
      rw [he] at hp
      obtain rfl | hp := hp.of_insert
      · exact hrun p rfl
      · exact h p hp

/-- In every run in which processors leave only while they are not on the idle list, no push
selects a departed processor. -/
theorem runs_noneRouted {s : Fleet W P T} (h : RunsTo step ExitsUnlinked init s) :
    s.NoneRouted := by
  have hlinked : ∀ p, s.system.idles.Linked p → s.registered p = true := by
    apply h.invariant (fun s => ∀ p, s.system.idles.Linked p → s.registered p = true)
    · intro p hp
      exact absurd hp (IdleList.not_linked_init p)
    · exact fun s a s' _ hs hok hstep => step_linked hs hok (step_cases hstep)
  exact noneRouted_of_linked hlinked

/-- The condition cannot be weakened: every other exit leaves a departed processor linked. -/
theorem not_noneRouted_exit {s s' : Fleet W P T} {p : P} (hstep : s.step (.exit p) = some s')
    (hlinked : s.system.idles.Linked p) : ¬s'.NoneRouted := by
  intro h
  cases step_cases hstep with
  | exit => exact (h p (by simp)).1 hlinked

/-- An executable condition that implies `ExitsUnlinked`: the list is empty at an exit. -/
def exitsUnlinked (s : Fleet W P T) : FleetAction W P T → Bool
  | .exit _ => decide (s.system.idles.links.next .queue = .queue)
  | _ => true

omit [DecidableEq W] [DecidableEq T] in
theorem exitsUnlinked_sound (s : Fleet W P T) (a : FleetAction W P T)
    (h : exitsUnlinked s a = true) : ExitsUnlinked s a := by
  rintro p rfl
  exact IdleList.not_linked_of_next (by simpa [exitsUnlinked] using h) p

/-- The processor registers, links itself, and is taken for a request. -/
def startTaken : List (FleetAction Unit Unit Unit) :=
  .register () :: ((startUp () ++ request () ()).map .act)

/-- It leaves after it was taken and before it comes back to the list. -/
theorem runs_noneRouted_taken :
    ∃ s : Fleet Unit Unit Unit,
      run step exitsUnlinked init (startTaken ++ [.exit ()]) = some s ∧ s.NoneRouted := by
  obtain ⟨s, hs⟩ := Option.isSome_iff_exists.mp
    (show (run step exitsUnlinked (init : Fleet Unit Unit Unit)
      (startTaken ++ [.exit ()])).isSome = true by decide)
  exact ⟨s, hs, runs_noneRouted (runsTo_of_run exitsUnlinked_sound hs)⟩

/-- An idle processor leaves, and the next push selects it. -/
theorem not_noneRouted :
    ∃ s : Fleet Unit Unit Unit, Reachable step init s ∧ ¬s.NoneRouted := by
  obtain ⟨s, hs, he⟩ := Option.map_eq_some_iff.mp
    (show (exec step (init : Fleet Unit Unit Unit)
      (.register () :: (startUp ()).map .act ++ [.exit ()])).map
      (fun s => (s.registered (), s.system.idles.take.2)) = some (false, some (.notify ())) by
      decide)
  simp only [Prod.mk.injEq] at he
  exact ⟨s, reachable_of_exec hs, fun h => (h () he.1).2 he.2⟩

end Fleet

end NgxRpc
