import NgxRpc.Foundation.CInt
import NgxRpc.Foundation.Runs
import Mathlib.Data.List.Count
import Mathlib.Data.List.GetD

/-!
# Slots of the process table

`ngx_proc_rpc_master_init` creates one notify object for every process the configuration
asks for. A process looks up its own one under `ngx_process_slot`, its index in the process
table of the master, which all generations of processes and nginx's helpers share.

## Main definitions

- `Conf.notifyNum`, `Queue.create`, `Queue.register` — the code under `src`
- `Master`, `Master.step` — the process table over starts, reloads, spawns and exits

## Main results

- `Master.runs_sound` — every registration finds one of the notify objects, in every run in
  which a process is spawned only while an index below `notify_num` is free
- `Master.not_sound_spawn` — no other spawn does
-/

namespace NgxRpc
open Transition

/-- What `ngx_proc_rpc_master_init` reads: `worker_processes`, `ngx_ncpu`, and the `count` of
every process block. -/
structure Conf where
  workerProcesses : ℤ
  ncpu : ℤ
  counts : List ℤ

/-- `notify_num` of `ngx_proc_rpc_master_init`, an `int`. -/
def Conf.notifyNum (c : Conf) : ℤ :=
  c.counts.foldl (fun n count => CInt.int (n + count))
    (CInt.int (if c.workerProcesses ≤ 0 then c.ncpu else c.workerProcesses))

/-- The notify objects of a `ngx_rpc_queue_t`, named by the iteration that created them. -/
structure Queue where
  notifyNum : ℤ
  notifySlot : List ℕ

/-- `ngx_rpc_queue_create`: the loop runs for `c` from `0` while `c < notify_num`. -/
def Queue.create (notifyNum : ℤ) : Queue := ⟨notifyNum, List.range notifyNum.toNat⟩

/-- What `ngx_rpc_notify_register` comes to. -/
inductive Registered where
  /-- the slot is outside `[0, ngx_last_process]`: `NULL` is returned -/
  | refused
  /-- `notify_slot[ngx_process_slot]` reads past the array -/
  | outOfBounds
  | notify (c : ℕ)
deriving DecidableEq

/-- `ngx_rpc_notify_register` up to the read of `notify_slot`. -/
def Queue.register (q : Queue) (processSlot lastProcess : ℤ) : Registered :=
  if processSlot < 0 ∨ processSlot > lastProcess then .refused
  else match q.notifySlot[processSlot.toNat]? with
    | none => .outOfBounds
    | some c => .notify c

/-- A call of `ngx_rpc_notify_register`. -/
structure Registration where
  processSlot : ℤ
  notifyNum : ℤ
  result : Registered

/-- A registration that passes the range check finds the notify object of its slot. -/
def Registration.Sound (r : Registration) : Prop :=
  r.result ≠ .refused → r.processSlot < r.notifyNum ∧ r.result = .notify r.processSlot.toNat

/-- A slot inside the table passes the check; it is sound if and only if it is below
`notify_num`. -/
theorem Queue.sound_register_iff {n : ℤ} {slot last : ℕ} (hslot : slot ≤ last) :
    (Registration.mk slot n ((Queue.create n).register slot last)).Sound ↔ (slot : ℤ) < n := by
  have hpass : ¬((slot : ℤ) < 0 ∨ (slot : ℤ) > last) := by omega
  constructor
  · intro h
    refine (h ?_).1
    simp only [register, hpass, if_false]
    split <;> simp
  · intro h _
    refine ⟨h, ?_⟩
    have hlt : slot < n.toNat := by omega
    simp [register, create, hlt, hslot]

/-- The process table of the master: which indices below `ngx_last_process` are held by a
living process. -/
abbrev ProcessTable := List Bool

namespace ProcessTable

/-- `NGX_MAX_PROCESSES`. -/
def maxProcesses : ℕ := 1024

/-- The index a new process gets: the lowest free one, or `ngx_last_process`. -/
def freeSlot (t : ProcessTable) : ℕ := t.findIdx (! ·)

/-- Index `i` is held by a living process. -/
def held (t : ProcessTable) (i : ℕ) : Bool := t.getD i false

/-- A new process takes the index. -/
def spawn (t : ProcessTable) : ProcessTable :=
  if t.freeSlot < t.length then t.set t.freeSlot true else t ++ [true]

/-- The process at index `i` exits; the last index is given back to the end of the table. -/
def exit (t : ProcessTable) (i : ℕ) : ProcessTable :=
  if i + 1 = t.length then t.dropLast else t.set i false

theorem freeSlot_le (t : ProcessTable) : t.freeSlot ≤ t.length := List.findIdx_le_length

theorem held_freeSlot (t : ProcessTable) : t.held t.freeSlot = false := by
  rw [held, freeSlot]
  by_cases h : t.findIdx (! ·) < t.length
  · rw [List.getD_eq_getElem _ _ h]
    simpa using List.findIdx_getElem (w := h)
  · exact List.getD_eq_default _ _ (by omega)

/-- No free index is below the one that is taken. -/
theorem held_of_lt_freeSlot {t : ProcessTable} {i : ℕ} (h : i < t.freeSlot) :
    t.held i = true := by
  have hlen : i < t.length := Nat.lt_of_lt_of_le h t.freeSlot_le
  rw [held]
  rw [List.getD_eq_getElem _ _ hlen]
  simpa using List.not_of_lt_findIdx h

theorem freeSlot_lt_iff {t : ProcessTable} {n : ℤ} :
    (t.freeSlot : ℤ) < n ↔ ∃ i : ℕ, (i : ℤ) < n ∧ t.held i = false := by
  constructor
  · exact fun h => ⟨t.freeSlot, h, t.held_freeSlot⟩
  · rintro ⟨i, hi, hfree⟩
    have hle : t.freeSlot ≤ i := by
      by_contra hlt
      simp [held_of_lt_freeSlot (Nat.lt_of_not_le hlt)] at hfree
    omega

/-- As long as fewer than `n` processes live, an index below `n` is free. -/
theorem freeSlot_lt_of_count {t : ProcessTable} {n : ℕ} (h : t.count true < n) :
    t.freeSlot < n := by
  have hle : t.freeSlot ≤ t.count true := by
    have htake : t.take t.freeSlot = List.replicate t.freeSlot true := by
      apply List.eq_replicate_iff.mpr
      refine ⟨by simp [t.freeSlot_le], ?_⟩
      intro b hb
      obtain ⟨i, hi, rfl⟩ := List.getElem_of_mem hb
      have hi' : i < t.freeSlot := by
        rw [List.length_take] at hi
        omega
      have hheld := held_of_lt_freeSlot hi'
      rw [held] at hheld
      rw [List.getD_eq_getElem _ _ (Nat.lt_of_lt_of_le hi' t.freeSlot_le)] at hheld
      simpa using hheld
    calc t.freeSlot = (t.take t.freeSlot).count true := by simp [htake]
      _ ≤ t.count true := (List.take_sublist _ _).count_le true
  omega

end ProcessTable

/-- The master: its process table, the queue of the current cycle, and as a history variable
the registrations made so far. -/
structure Master where
  table : ProcessTable
  queue : Option Queue
  registrations : List Registration

/-- What happens to the master. -/
inductive MasterAction where
  /-- a start or a reload: `ngx_proc_rpc_master_init` runs for the new cycle -/
  | cycle (conf : Conf)
  /-- a process is spawned, a helper if it does not register -/
  | spawn (registers : Bool)
  /-- the process at index `i` exits -/
  | exit (i : ℕ)

namespace Master

def init : Master := ⟨[], none, []⟩

/-- The new process registers with the value of `ngx_last_process` it was forked with. -/
def spawn (s : Master) (registers : Bool) : Option Master :=
  s.queue.bind fun q =>
    let slot := s.table.freeSlot
    if slot < ProcessTable.maxProcesses then
      some { s with
        table := s.table.spawn
        registrations :=
          if registers then
            s.registrations ++ [⟨slot, q.notifyNum, q.register slot s.table.length⟩]
          else s.registrations }
    else none

def step (s : Master) : MasterAction → Option Master
  | .cycle conf => some { s with queue := some (.create conf.notifyNum) }
  | .spawn registers => s.spawn registers
  | .exit i => if s.table.held i then some { s with table := s.table.exit i } else none

/-- A process that registers is spawned while an index below `notify_num` is free. -/
def SpawnsInRange (s : Master) (a : MasterAction) : Prop :=
  ∀ q, a = .spawn true → s.queue = some q → ∃ i : ℕ, (i : ℤ) < q.notifyNum ∧ s.table.held i = false

/-- The current queue is one that `ngx_rpc_queue_create` made. -/
def Created (s : Master) : Prop :=
  ∀ q, s.queue = some q → q = .create q.notifyNum

theorem init_created : init.Created := by
  intro q hq
  cases hq

/-- Everything a spawn does besides taking an index. -/
theorem spawn_cases {s s' : Master} {registers : Bool} (h : s.spawn registers = some s') :
    ∃ q, s.queue = some q ∧ s'.queue = s.queue ∧ s'.registrations = if registers then
      s.registrations ++
        [⟨s.table.freeSlot, q.notifyNum, q.register s.table.freeSlot s.table.length⟩]
      else s.registrations := by
  obtain ⟨q, hq, hs⟩ := Option.bind_eq_some_iff.mp h
  dsimp only at hs
  split at hs
  · cases hs
    exact ⟨q, hq, rfl, rfl⟩
  · cases hs

theorem step_created {s s' : Master} {a : MasterAction} (h : s.Created)
    (hstep : s.step a = some s') : s'.Created := by
  cases a with
  | cycle conf =>
    cases hstep
    intro q hq
    cases hq
    rfl
  | spawn registers =>
    obtain ⟨q, -, hsame, -⟩ := spawn_cases hstep
    rw [Created]
    rwa [hsame]
  | exit i =>
    simp only [step] at hstep
    split at hstep
    · cases hstep
      exact h
    · cases hstep

/-- A spawned process makes the registration of its slot and no other step makes one. -/
theorem step_registrations {s s' : Master} {a : MasterAction} (hstep : s.step a = some s') :
    s'.registrations = s.registrations ∨ ∃ q, a = .spawn true ∧ s.queue = some q ∧
      s'.registrations = s.registrations ++
        [⟨s.table.freeSlot, q.notifyNum, q.register s.table.freeSlot s.table.length⟩] := by
  cases a with
  | cycle conf =>
    cases hstep
    exact Or.inl rfl
  | spawn registers =>
    obtain ⟨q, hq, -, hregs⟩ := spawn_cases hstep
    cases registers with
    | true => exact Or.inr ⟨q, rfl, hq, hregs⟩
    | false => exact Or.inl hregs
  | exit i =>
    simp only [step] at hstep
    split at hstep
    · cases hstep
      exact Or.inl rfl
    · cases hstep

/-- The registration of a spawned process is sound if and only if an index below
`notify_num` was free. -/
theorem sound_spawn_iff {s : Master} {q : Queue} (h : s.Created) (hq : s.queue = some q) :
    (Registration.mk s.table.freeSlot q.notifyNum
      (q.register s.table.freeSlot s.table.length)).Sound ↔
      ∃ i : ℕ, (i : ℤ) < q.notifyNum ∧ s.table.held i = false := by
  rw [← ProcessTable.freeSlot_lt_iff, ← Queue.sound_register_iff s.table.freeSlot_le, ← h q hq]

/-- In every run in which processes are spawned only while an index below `notify_num` is
free, every registration that passes the range check is in range. -/
theorem runs_sound {s : Master} (h : RunsTo step SpawnsInRange init s) :
    ∀ r ∈ s.registrations, r.Sound := by
  have hboth : s.Created ∧ ∀ r ∈ s.registrations, r.Sound := by
    apply h.invariant (fun s => s.Created ∧ ∀ r ∈ s.registrations, r.Sound)
    · exact ⟨init_created, by simp [init]⟩
    · rintro s a s' - ⟨hc, hs⟩ hok hstep
      refine ⟨step_created hc hstep, ?_⟩
      obtain he | ⟨q, ha, hq, he⟩ := step_registrations hstep
      · rwa [he]
      · intro r hr
        rw [he, List.mem_append, List.mem_singleton] at hr
        obtain hr | rfl := hr
        · exact hs r hr
        · exact (sound_spawn_iff hc hq).mpr (hok q ha hq)
  exact hboth.2

/-- The condition cannot be weakened: every other spawn makes a registration out of range. -/
theorem not_sound_spawn {s s' : Master} {q : Queue} (hr : Reachable step init s)
    (hq : s.queue = some q) (hfull : ∀ i : ℕ, (i : ℤ) < q.notifyNum → s.table.held i = true)
    (hstep : s.step (.spawn true) = some s') : ¬∀ r ∈ s'.registrations, r.Sound := by
  have hc : s.Created :=
    hr.invariant Created init_created fun _ _ _ _ hs _ hstep => step_created hs hstep
  intro h
  obtain ⟨p, hp, -, hregs⟩ := spawn_cases hstep
  obtain rfl : q = p := Option.some.inj (hq.symm.trans hp)
  obtain ⟨i, hi, hfree⟩ := (sound_spawn_iff hc hq).mp (h _ (by simp [hregs]))
  simp [hfull i hi] at hfree

/-- An executable condition that implies `SpawnsInRange`: fewer processes live than there are
notify objects. -/
def spawnsInRange (s : Master) : MasterAction → Bool
  | .spawn true => (s.queue.map fun q => decide (s.table.count true < q.notifyNum.toNat)).getD true
  | _ => true

theorem spawnsInRange_sound (s : Master) (a : MasterAction) (h : spawnsInRange s a = true) :
    SpawnsInRange s a := by
  rintro q rfl hq
  have hcount : s.table.count true < q.notifyNum.toNat := by simpa [spawnsInRange, hq] using h
  have hslot := ProcessTable.freeSlot_lt_of_count hcount
  exact ProcessTable.freeSlot_lt_iff.mp (by omega)

/-- One worker and one process block, whose processes are started and one of them replaced. -/
def firstGeneration : List MasterAction :=
  [.cycle ⟨1, 4, [1]⟩, .spawn true, .spawn true, .exit 0, .spawn true]

theorem runs_sound_firstGeneration :
    ∃ s, run step spawnsInRange init firstGeneration = some s ∧
      ∀ r ∈ s.registrations, r.Sound := by
  obtain ⟨s, hs⟩ := Option.isSome_iff_exists.mp
    (show (run step spawnsInRange init firstGeneration).isSome = true by decide)
  exact ⟨s, hs, runs_sound (runsTo_of_run spawnsInRange_sound hs)⟩

/-- After a reload the old processes still hold both indices, and the first new one reads
`notify_slot[2]` of two. -/
theorem not_sound_reload :
    ∃ s, Reachable step init s ∧ ¬∀ r ∈ s.registrations, r.Sound := by
  obtain ⟨s, hs, he⟩ := Option.map_eq_some_iff.mp
    (show (exec step init (firstGeneration ++ [.cycle ⟨1, 4, [1]⟩, .spawn true])).map
      (fun s => s.registrations.map (·.result)) =
        some [.notify 0, .notify 1, .notify 0, .outOfBounds] by decide)
  refine ⟨s, reachable_of_exec hs, fun h => ?_⟩
  have hmem : Registered.outOfBounds ∈ s.registrations.map (·.result) := by simp [he]
  obtain ⟨r, hr, hres⟩ := List.mem_map.mp hmem
  have hsound := (h r hr (by simp [hres])).2
  simp [hres] at hsound

end Master

end NgxRpc
