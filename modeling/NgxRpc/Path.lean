import NgxRpc.Foundation.Runs
import NgxRpc.Channel
import Mathlib.Data.List.TakeWhile

/-!
# The path of a forward

`RpcChannel::forward_request` copies its path into the array `task->path` with `strncpy` and
the length of the path, so that no `NUL` is written behind it. `ngx_http_rpc_request_foward`
takes the bytes up to the first `NUL`. The array is one field of a task that is reused by all
forwards, and `params` is the field behind it.

## Main definitions

- `TaskBytes`, `copyPath`, `usedPath` — the task from `path` on
- `PathState.step` — the forwards of a task

## Main results

- `path_runs` — the right path is used as long as paths do not get shorter and fit the array
-/

namespace NgxRpc
open SlabPool Transition

/-- The offset of `path` in `ngx_rpc_task_s`. -/
def pathOffset : ℕ := 88

/-- The size of `params`, which nothing writes to. -/
def sizeofParams : ℕ := 16

/-- The bytes of a task from `path` to its end. -/
structure TaskBytes where
  bytes : List UInt8
  length : bytes.length = sizeofTask - pathOffset

namespace TaskBytes

/-- The fields behind `path`. -/
def fields (t : TaskBytes) : List UInt8 := t.bytes.drop maxPathName

/-- The array. -/
def path (t : TaskBytes) : List UInt8 := t.bytes.take maxPathName

/-- The path that `ngx_http_rpc_request_foward` forwards to. -/
def usedPath (t : TaskBytes) : List UInt8 := t.bytes.takeWhile (· ≠ 0)

theorem path_append_fields (t : TaskBytes) : t.path ++ t.fields = t.bytes :=
  List.take_append_drop maxPathName t.bytes

end TaskBytes

/-! ## C strings -/

theorem takeWhile_nonzero {l : List UInt8} (h : 0 ∉ l) : l.takeWhile (· ≠ 0) = l := by
  rw [List.takeWhile_eq_self_iff]
  intro x hx
  exact decide_eq_true fun hzero => h (hzero ▸ hx)

theorem takeWhile_append_nonzero {l rest : List UInt8} (h : 0 ∉ l) :
    (l ++ rest).takeWhile (· ≠ 0) = l ++ rest.takeWhile (· ≠ 0) :=
  List.takeWhile_append_of_pos fun _ hx => decide_eq_true fun hzero => h (hzero ▸ hx)

/-- A C string ends at its `NUL`. -/
theorem takeWhile_append_zero {l rest : List UInt8} (h : 0 ∉ l) (hrest : rest.head? = some 0) :
    (l ++ rest).takeWhile (· ≠ 0) = l := by
  obtain ⟨tail, rfl⟩ := List.head?_eq_some_iff.mp hrest
  rw [takeWhile_append_nonzero h]
  simp

theorem strncpy_of_not_mem {dst src : List UInt8} (h : 0 ∉ src) :
    strncpy dst src = src ++ dst.drop src.length := by
  simp only [strncpy, takeWhile_nonzero h, Nat.sub_self, List.replicate_zero, List.append_nil]

theorem length_strncpy {dst src : List UInt8} (h : src.length ≤ dst.length) :
    (strncpy dst src).length = dst.length := by
  have hle : (src.takeWhile (· ≠ 0)).length ≤ src.length :=
    (List.takeWhile_prefix _).length_le
  simp only [strncpy, List.length_append, List.length_replicate, List.length_drop]
  omega

/-- The copy in `forward_request`. It may run over the fields behind the array, and out of the
block of the task. -/
def copyPath (t : TaskBytes) (path : List UInt8) : Except Stop TaskBytes :=
  if h : path.length ≤ t.bytes.length then
    .ok ⟨strncpy t.bytes path, (length_strncpy h).trans t.length⟩
  else .error .badCopy

theorem bytes_copyPath {t t' : TaskBytes} {path : List UInt8} (h : copyPath t path = .ok t') :
    t'.bytes = strncpy t.bytes path := by
  rw [copyPath] at h
  split at h
  · cases h
    rfl
  · cases h

/-- Within the array the copy is the one of `forwardRequest`. -/
theorem path_copyPath {t t' : TaskBytes} {path : List UInt8} (h : copyPath t path = .ok t')
    (hfits : path.length ≤ maxPathName) : t'.path = strncpy t.path path := by
  have hle : (path.takeWhile (· ≠ 0)).length ≤ path.length :=
    (List.takeWhile_prefix _).length_le
  have hfront : (path.takeWhile (· ≠ 0) ++ List.replicate
      (path.length - (path.takeWhile (· ≠ 0)).length) 0).length = path.length := by
    rw [List.length_append, List.length_replicate]
    omega
  rw [TaskBytes.path, bytes_copyPath h]
  simp only [strncpy, TaskBytes.path]
  rw [List.take_append, hfront, List.take_of_length_le (by omega), List.drop_take]

/-- A task, and the path of its latest `forward_request`. -/
structure PathState where
  task : TaskBytes
  latest : Option (List UInt8)

/-- A call of `forward_request`, or anything the code does to the fields behind `params`. -/
inductive PathAction where
  | forwardRequest (path : List UInt8)
  | write (fields : List UInt8)

/-- Other values for the fields behind `path`. -/
def TaskBytes.write (t : TaskBytes) (fields : List UInt8) (h : fields.length = t.fields.length) :
    TaskBytes where
  bytes := t.path ++ fields
  length := by
    rw [List.length_append, h, ← List.length_append, t.path_append_fields, t.length]

namespace PathState

/-- A string of C++ whose bytes are a C string has no `NUL`. -/
def step : Except Stop PathState → PathAction → Option (Except Stop PathState)
  | .ok s, .forwardRequest path =>
    if 0 ∈ path then none else some ((copyPath s.task path).map fun t => ⟨t, some path⟩)
  | .ok s, .write fields =>
    if h : fields.length = s.task.fields.length then
      -- nothing writes to `params`
      if fields.take sizeofParams = s.task.fields.take sizeofParams then
        some (.ok { s with task := s.task.write fields h })
      else none
    else none
  | .error _, _ => none

/-- The task as `ngx_http_rpc_task_create` clears it. -/
def created : PathState :=
  ⟨⟨List.replicate (sizeofTask - pathOffset) 0, List.length_replicate⟩, none⟩

/-- The call stores its path, and nothing but the path. -/
def Stores (s : PathState) (path : List UInt8) (r : Except Stop PathState) : Prop :=
  ∃ s', r = .ok s' ∧ s'.task.usedPath = path ∧ s'.task.fields = s.task.fields

/-- The path is not shorter than the one in the task, and fits the array. -/
def PathFits (s : Except Stop PathState) (a : PathAction) : Prop :=
  ∀ t path, s = .ok t → a = .forwardRequest path →
    t.task.usedPath.length ≤ path.length ∧ path.length ≤ maxPathName

/-- The array holds path `l` and zeros, and `params` begins with zero. -/
structure Holds (t : TaskBytes) (l : List UInt8) : Prop where
  nonzero : 0 ∉ l
  fits : l.length ≤ maxPathName
  path : t.path = l ++ List.replicate (maxPathName - l.length) 0
  params : t.fields.head? = some 0

namespace Holds

variable {t t' : TaskBytes} {l path : List UInt8}

/-- What is behind the path: its `NUL` and the other fields. -/
theorem bytes (h : Holds t l) :
    t.bytes = l ++ (List.replicate (maxPathName - l.length) 0 ++ t.fields) := by
  rw [← t.path_append_fields, h.path, List.append_assoc]

theorem head_rest (h : Holds t l) (n : ℕ) :
    (List.replicate n (0 : UInt8) ++ t.fields).head? = some 0 := by
  cases n with
  | zero => exact h.params
  | succ n => rfl

theorem usedPath (h : Holds t l) : t.usedPath = l := by
  rw [TaskBytes.usedPath, h.bytes]
  exact takeWhile_append_zero h.nonzero (h.head_rest _)

/-- A path that is not shorter and fits the array overwrites all of the old one. -/
theorem copy (h : Holds t l) (hpath : 0 ∉ path) (hlen : l.length ≤ path.length)
    (hfits : path.length ≤ maxPathName) :
    ∃ t', copyPath t path = .ok t' ∧ Holds t' path ∧ t'.fields = t.fields := by
  have htotal : path.length ≤ t.bytes.length := by
    rw [t.length]
    exact hfits.trans (by decide)
  have hdrop : t.bytes.drop path.length =
      List.replicate (maxPathName - path.length) 0 ++ t.fields := by
    rw [h.bytes, List.drop_append, List.drop_eq_nil_of_le hlen, List.nil_append,
      List.drop_append_of_le_length (by rw [List.length_replicate]; omega), List.drop_replicate]
    congr 2
    omega
  have hbytes : strncpy t.bytes path =
      path ++ List.replicate (maxPathName - path.length) 0 ++ t.fields := by
    rw [strncpy_of_not_mem hpath, hdrop, List.append_assoc]
  have harray : (path ++ List.replicate (maxPathName - path.length) (0 : UInt8)).length =
      maxPathName := by
    rw [List.length_append, List.length_replicate]
    omega
  refine ⟨_, dif_pos htotal, ⟨hpath, hfits, ?_, ?_⟩, ?_⟩
  · show (strncpy t.bytes path).take maxPathName = _
    rw [hbytes, List.take_left' harray]
  · show ((strncpy t.bytes path).drop maxPathName).head? = some 0
    rw [hbytes, List.drop_left' harray]
    exact h.params
  · show (strncpy t.bytes path).drop maxPathName = _
    rw [hbytes, List.drop_left' harray]

/-- A shorter path leaves the end of the old one behind, and a path that does not fit writes to
`params`. -/
theorem fits_of_stores (h : Holds t l) (hpath : 0 ∉ path) (hcopy : copyPath t path = .ok t')
    (hused : t'.usedPath = path) (hfields : t'.fields = t.fields) :
    l.length ≤ path.length ∧ path.length ≤ maxPathName := by
  have hbytes : t'.bytes = path ++ t.bytes.drop path.length :=
    (bytes_copyPath hcopy).trans (strncpy_of_not_mem hpath)
  constructor
  · by_contra hlt
    have hend : (t.bytes.drop path.length).takeWhile (· ≠ 0) = [] := by
      rw [TaskBytes.usedPath, hbytes, takeWhile_append_nonzero hpath] at hused
      exact List.append_right_eq_self.mp hused
    rw [h.bytes, List.drop_append_of_le_length (by omega)] at hend
    have hrest : 0 ∉ l.drop path.length := fun hmem => h.nonzero (List.mem_of_mem_drop hmem)
    rw [takeWhile_append_nonzero hrest] at hend
    have hnil := List.drop_eq_nil_iff.mp (List.append_eq_nil_iff.mp hend).1
    omega
  · by_contra hlong
    have hhead := h.params
    rw [← hfields, TaskBytes.fields, List.head?_drop, hbytes,
      List.getElem?_append_left (by omega)] at hhead
    exact hpath (List.mem_of_getElem? hhead)

end Holds

/-! ## Runs -/

/-- The task holds the latest path, or none yet. -/
def Tidy (s : Except Stop PathState) : Prop :=
  ∃ t, s = .ok t ∧ Holds t.task (t.latest.getD [])

theorem tidy_created : Tidy (.ok created) := by
  refine ⟨created, rfl, ?_⟩
  show Holds created.task []
  constructor
  · exact List.not_mem_nil
  · exact Nat.zero_le _
  · rfl
  · rfl

/-- A call of `forward_request` on a tidy task does what it should exactly when the path fits. -/
theorem Tidy.stores_iff {t : PathState} {path : List UInt8} {s' : Except Stop PathState}
    (h : Tidy (.ok t)) (hstep : step (.ok t) (.forwardRequest path) = some s') :
    (Stores t path s' ↔ PathFits (.ok t) (.forwardRequest path)) ∧
      (PathFits (.ok t) (.forwardRequest path) → Tidy s') := by
  obtain ⟨t, he, hholds⟩ := h
  obtain rfl := Except.ok.inj he
  simp only [step] at hstep
  split at hstep
  · cases hstep
  · next hpath =>
    obtain rfl := Option.some.inj hstep
    have hused := hholds.usedPath
    have hfits : PathFits (.ok t) (.forwardRequest path) →
        ∃ t', copyPath t.task path = .ok t' ∧ Holds t' path ∧ t'.fields = t.task.fields := by
      intro hok
      obtain ⟨hlen, hle⟩ := hok t path rfl rfl
      exact hholds.copy hpath (hused ▸ hlen) hle
    refine ⟨⟨?_, ?_⟩, ?_⟩
    · rintro ⟨s', hok, huse, hfields⟩ u path' hu hpath'
      obtain rfl := Except.ok.inj hu
      cases hpath'
      cases hcopy : copyPath t.task path with
      | error e =>
        rw [hcopy] at hok
        cases hok
      | ok t' =>
        rw [hcopy] at hok
        obtain rfl := Except.ok.inj hok
        rw [hused]
        exact hholds.fits_of_stores hpath hcopy huse hfields
    · intro hok
      obtain ⟨t', hcopy, hholds', hfields⟩ := hfits hok
      rw [hcopy]
      exact ⟨_, rfl, hholds'.usedPath, hfields⟩
    · intro hok
      obtain ⟨t', hcopy, hholds', -⟩ := hfits hok
      rw [hcopy]
      exact ⟨_, rfl, hholds'⟩

/-- Writing the other fields leaves a tidy task tidy. -/
theorem Tidy.write {t : PathState} {fields : List UInt8} {s' : Except Stop PathState}
    (h : Tidy (.ok t)) (hstep : step (.ok t) (.write fields) = some s') : Tidy s' := by
  obtain ⟨t, he, hholds⟩ := h
  obtain rfl := Except.ok.inj he
  simp only [step] at hstep
  split at hstep
  · next hlen =>
    split at hstep
    · next hparams =>
      obtain rfl := Option.some.inj hstep
      have harray : t.task.path.length = maxPathName := by
        rw [hholds.path, List.length_append, List.length_replicate]
        have := hholds.fits
        omega
      refine ⟨_, rfl, hholds.nonzero, hholds.fits, ?_, ?_⟩
      · show (t.task.path ++ fields).take maxPathName = _
        rw [List.take_left' harray]
        exact hholds.path
      · show ((t.task.path ++ fields).drop maxPathName).head? = some 0
        rw [List.drop_left' harray]
        have hhead := congrArg List.head? hparams
        rw [List.head?_take, List.head?_take] at hhead
        exact hhead.trans hholds.params
    · cases hstep
  · cases hstep

theorem Tidy.step {s s' : Except Stop PathState} {a : PathAction} (h : Tidy s)
    (hok : PathFits s a) (hstep : PathState.step s a = some s') : Tidy s' := by
  obtain ⟨t, rfl, hholds⟩ := h
  cases a with
  | forwardRequest path => exact (Tidy.stores_iff ⟨t, rfl, hholds⟩ hstep).2 hok
  | write fields => exact Tidy.write ⟨t, rfl, hholds⟩ hstep

/-- In every run in which no path is shorter than the one before it or longer than the array,
the path of the latest call is used; and a call then stores its path, and changes nothing else,
exactly when it keeps to this. -/
theorem path_runs {s : Except Stop PathState} (h : RunsTo step PathFits (.ok created) s) :
    ∃ t, s = .ok t ∧ (∀ path ∈ t.latest, t.task.usedPath = path) ∧
      ∀ path s', step s (.forwardRequest path) = some s' →
        (Stores t path s' ↔ PathFits s (.forwardRequest path)) := by
  have htidy : Tidy s := h.invariant Tidy tidy_created fun _ _ _ _ hs hok hstep => hs.step hok hstep
  obtain ⟨t, rfl, hholds⟩ := id htidy
  refine ⟨t, rfl, fun path hpath => ?_, fun path s' hstep => (htidy.stores_iff hstep).1⟩
  rw [hholds.usedPath, Option.mem_def.mp hpath]
  rfl

theorem path_runs_abc : ∃ s, RunsTo step PathFits (.ok created) s ∧
    ∃ t, s = .ok t ∧ (∀ path ∈ t.latest, t.task.usedPath = path) ∧
      ∀ path s', step s (.forwardRequest path) = some s' →
        (Stores t path s' ↔ PathFits s (.forwardRequest path)) := by
  have hfits : PathFits (.ok created) (.forwardRequest (asciiBytes "/abc")) := by
    intro t path ht hpath
    obtain rfl := Except.ok.inj ht
    cases hpath
    decide +kernel
  have hsome : (step (.ok created) (.forwardRequest (asciiBytes "/abc"))).isSome := by
    decide +kernel
  obtain ⟨s, hstep⟩ := Option.isSome_iff_exists.mp hsome
  exact ⟨s, .next .start hfits hstep, path_runs (.next .start hfits hstep)⟩

/-- The path used in a state. -/
def used : Except Stop PathState → Option (List UInt8)
  | .ok t => some t.task.usedPath
  | .error _ => none

/-- After a path of four bytes and one of two, the end of the first one is still there. -/
theorem not_path_runs_shorter :
    ∃ t, Reachable step (.ok created) (.ok t) ∧ ∃ path ∈ t.latest, t.task.usedPath ≠ path := by
  obtain ⟨s | t, hs, he⟩ := Option.map_eq_some_iff.mp
    (show (exec step (.ok created) [.forwardRequest (asciiBytes "/abc"),
      .forwardRequest (asciiBytes "/x")]).map (fun s => (s.toOption.map PathState.latest, used s)) =
        some (some (some (asciiBytes "/x")), some (asciiBytes "/xbc")) by
      decide +kernel)
  · cases he
  · obtain ⟨hlatest, hused⟩ := Prod.mk.inj he
    refine ⟨t, reachable_of_exec hs, asciiBytes "/x", Option.some.inj hlatest, ?_⟩
    rw [show t.task.usedPath = _ from Option.some.inj hused]
    decide

end PathState

end NgxRpc
