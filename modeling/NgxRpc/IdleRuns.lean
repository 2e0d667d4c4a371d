import NgxRpc.Dispatch

/-!
# The idle list over whole runs

The list stays well formed as long as every insertion at the end of
`ngx_proc_rpc_process_one_cycle` is made by a processor that is not on the list.
The code does not check this: one call of `ngx_rpc_notify_read_handler` runs the
cycle at least twice, so a woken processor links itself a second time.
-/

namespace NgxRpc
open CircularList Transition

variable {W P T : Type} [DecidableEq W] [DecidableEq P] [DecidableEq T]

/-- Only the two sections under `idles_lock` touch the idle list. -/
theorem step_idles {s s' : State W P T} {a : Action W P T} (h : Step s a s') :
    s'.idles = s.idles ∨ (∃ t, a = .take t ∧ s'.idles = s.idles.take.1) ∨
      ∃ p, a = .insert p ∧ s'.idles = s.idles.insert p := by
  cases h with
  | takeNone hpc hc htake => exact Or.inr (Or.inl ⟨_, rfl, by simp [htake]⟩)
  | takeSome hpc hc htake => exact Or.inr (Or.inl ⟨_, rfl, by simp [htake]⟩)
  | takeWild hpc hc htake => exact Or.inr (Or.inl ⟨_, rfl, by simp [htake]⟩)
  | insert hpc => exact Or.inr (Or.inr ⟨_, rfl, rfl⟩)
  | _ => exact Or.inl rfl

/-- The action is no insertion of a processor that is still on the idle list. -/
def InsertsUnlinked (s : State W P T) (a : Action W P T) : Prop :=
  ∀ p, a = .insert p → s.idles.idle p = false

/-- The executable form of `InsertsUnlinked`. -/
def insertsUnlinked (s : State W P T) : Action W P T → Bool
  | .insert p => !s.idles.idle p
  | _ => true

omit [DecidableEq W] [DecidableEq P] [DecidableEq T] in
theorem insertsUnlinked_sound (s : State W P T) (a : Action W P T)
    (h : insertsUnlinked s a = true) : InsertsUnlinked s a := by
  rintro p rfl
  simpa [insertsUnlinked] using h

/-- One permitted step keeps the idle list well formed. -/
theorem step_wellFormed {s s' : State W P T} {a : Action W P T} (hwf : s.idles.WellFormed)
    (hok : InsertsUnlinked s a) (h : Step s a s') : s'.idles.WellFormed := by
  obtain he | ⟨t, -, he⟩ | ⟨p, ha, he⟩ := step_idles h
  · rwa [he]
  · rw [he]
    -- a take that fails leaves the list, one that succeeds unlinks its front
    obtain ⟨htake, -⟩ | ⟨I', p, htake, hwf', -⟩ := hwf.take_cases
    · rwa [htake]
    · rwa [htake]
  · rw [he]
    exact hwf.insert (hok p ha)

theorem runs_wellFormed {s : State W P T} (h : RunsTo State.step InsertsUnlinked .init s) :
    s.idles.WellFormed :=
  h.invariant (fun s => s.idles.WellFormed) IdleList.init_wellFormed
    fun _ _ _ _ hwf hok hstep => step_wellFormed hwf hok (step_cases hstep)

/-- A processor links itself in the write handler that follows its registration. -/
def startUp (p : P) : List (Action W P T) :=
  [.writeEvent (.processor p), .pop (.processor p), .insert p]

/-- Worker `w` reads request `t` and pushes it to the processor it takes. -/
def request (w : W) (t : T) : List (Action W P T) :=
  [.post w t, .take t, .push t, .write t]

/-- One round of the read handler: processor `p` answers a task and links itself. -/
def round (p : P) : List (Action W P T) :=
  [.read (.processor p), .pop (.processor p), .finishRequest p, .hand p, .signal p,
    .pop (.processor p), .insert p]

/-- Processor `p` is woken by one push, answers its task, and links itself after
each of the two rounds of the read handler. -/
def serve (p : P) : List (Action W P T) :=
  .readEvent (.processor p) :: round p ++
    [.read (.processor p), .pop (.processor p), .insert p]

/-- Processor `true` is woken for request `false` and links itself. It is taken for request `true`
before the read handler goes on, serves it in the next round and links itself again. -/
def takenBetween : List (Action Unit Bool Bool) :=
  startUp false ++ startUp true ++ request () false ++ .readEvent (.processor true) :: round true ++
    request () true ++ round true

theorem takenBetween_unlinked :
    (run State.step insertsUnlinked .init takenBetween).isSome = true := by
  decide

/-- In every run whose insertions are made by unlinked processors, the list rooted
at `queue->idles` is circular in every state. -/
theorem idles_circular {s : State W P T} (h : RunsTo State.step InsertsUnlinked .init s) :
    s.idles.Circular :=
  (runs_wellFormed h).circular

theorem idles_circular_takenBetween :
    ∃ s, run State.step insertsUnlinked .init takenBetween = some s ∧ s.idles.Circular := by
  obtain ⟨s, hs⟩ := Option.isSome_iff_exists.mp takenBetween_unlinked
  exact ⟨s, hs, idles_circular (runsTo_of_run insertsUnlinked_sound hs)⟩

/-- In every run whose insertions are made by unlinked processors, no idle
processor is lost in any state. -/
theorem idles_noneLost {s : State W P T} (h : RunsTo State.step InsertsUnlinked .init s) :
    s.idles.NoneLost :=
  (runs_wellFormed h).noneLost

theorem idles_noneLost_takenBetween :
    ∃ s, run State.step insertsUnlinked .init takenBetween = some s ∧ s.idles.NoneLost := by
  obtain ⟨s, hs⟩ := Option.isSome_iff_exists.mp takenBetween_unlinked
  exact ⟨s, hs, idles_noneLost (runsTo_of_run insertsUnlinked_sound hs)⟩

/-- In every run at all, `queue->idles` itself is never taken for a notify object. -/
theorem take_ne_queue {s : State W P T} (h : Reachable State.step .init s) :
    s.idles.take.2 ≠ some .queue := by
  have hsound : s.idles.Sound := by
    apply h.invariant (fun s => s.idles.Sound) IdleList.init_sound
    intro s a s' _ hs _ hstep
    obtain he | ⟨t, -, he⟩ | ⟨p, -, he⟩ := step_idles (step_cases hstep)
    · rwa [he]
    · rw [he]
      exact hs.take
    · rw [he]
      exact hs.insert p
  exact hsound.take_ne_queue

/-- Processors `false` and `true` start, and the one taken first serves a request. -/
def doubleInsertion : List (Action Unit Bool Unit) :=
  startUp false ++ startUp true ++ request () () ++ serve true

theorem doubleInsertion_links :
    ((exec State.step State.init doubleInsertion).map fun s =>
      (s.idles.links.next .queue, s.idles.links.next (.notify true), s.idles.idle false)) =
      some (.notify true, .notify true, true) := by
  decide

/-- After one request the woken processor points to itself. -/
theorem idles_not_circular :
    ∃ s : State Unit Bool Unit, Reachable State.step .init s ∧ ¬s.idles.Circular := by
  obtain ⟨s, hs, he⟩ := Option.map_eq_some_iff.mp doubleInsertion_links
  simp only [Prod.mk.injEq] at he
  exact ⟨s, reachable_of_exec hs, IdleList.not_circular_of_self_loop he.1 he.2.1⟩

/-- In the same state processor `false` is idle and can no longer be reached. -/
theorem idles_lost :
    ∃ s : State Unit Bool Unit, Reachable State.step .init s ∧ ¬s.idles.NoneLost := by
  obtain ⟨s, hs, he⟩ := Option.map_eq_some_iff.mp doubleInsertion_links
  simp only [Prod.mk.injEq] at he
  refine ⟨s, reachable_of_exec hs, ?_⟩
  rintro ⟨hreach, -, -⟩
  obtain ⟨k, hk⟩ := hreach false he.2.2
  cases k with
  | zero => cases hk
  | succ k =>
    rw [IdleList.next_iterate_of_self_loop he.1 he.2.1] at hk
    cases hk

end NgxRpc
