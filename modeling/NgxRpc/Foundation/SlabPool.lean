import Mathlib.Algebra.Group.Int.Defs
import Mathlib.Algebra.Group.Nat.Defs
import Mathlib.Data.Finset.Lattice.Fold
import Mathlib.Order.Lattice.Nat
import Mathlib.Data.List.Perm.Basic

/-!
# Slab pools

A pool is the set of base addresses of its live blocks together with the record
of everything that was done to it. An allocator chooses the address of a new
block, or fails, in any way that depends on this record, and it never hands out a
live block. Since refused allocations are recorded too, it may fail in any pattern.
Programs over a pool may stop, at a `NULL` dereference or a failed assertion. Freeing
an address that is no live base and touching a dead block do not stop a program: they
are recorded as faults.

## Main definitions

- `Pool`, `Slab`, `SlabM` — pools, allocators and programs
- `alloc`, `free`, `access` — the operations
- `Pool.Safe` — no fault was recorded
- `wp` — weakest preconditions, for any set of permitted stops
- `Pool.Owns` — no fault so far, and distinct live blocks
- `Pool.Grew` — the blocks allocated since an earlier pool
- `Pool.Holds` — a number of live blocks
- `Pool.Untouched` — the blocks nothing was done to since an earlier pool
-/

namespace SlabPool

/-- Why a program stops: it used a `NULL` pointer, failed an assertion, copied past the
end of an object, or entered a loop that does not end. -/
inductive Stop where
  | nullDereference
  | assertion
  | badCopy
  | endlessLoop
deriving DecidableEq

/-- The record of one operation; `live` tells whether the address was the base of a
live block. -/
inductive Event where
  | alloc (a : ℤ)
  | refused (n : ℕ)
  | free (a : ℤ) (live : Bool)
  | access (a : ℤ) (live : Bool)
deriving DecidableEq

/-- The operation was on a live block. -/
def Event.ok : Event → Bool
  | .alloc _ => true
  | .refused _ => true
  | .free _ live => live
  | .access _ live => live

/-- The live blocks and the record of all operations, the last one first. -/
structure Pool where
  live : Finset ℤ
  log : List Event

/-- Every free and every access was of a live block. -/
def Pool.Safe (p : Pool) : Prop := ∀ e ∈ p.log, e.ok = true

instance (p : Pool) : Decidable p.Safe := inferInstanceAs (Decidable (∀ e ∈ p.log, e.ok = true))

namespace Pool

/-- The pool after a block was allocated at `a`. -/
def allocated (p : Pool) (a : ℤ) : Pool := ⟨insert a p.live, .alloc a :: p.log⟩

/-- The pool after `n` bytes were asked for in vain. -/
def refused (p : Pool) (n : ℕ) : Pool := ⟨p.live, .refused n :: p.log⟩

/-- The pool after `a` was freed. -/
def freed (p : Pool) (a : ℤ) : Pool :=
  ⟨p.live.erase a, .free a (decide (a ∈ p.live)) :: p.log⟩

/-- The pool after the block at `a` was touched. -/
def accessed (p : Pool) (a : ℤ) : Pool := ⟨p.live, .access a (decide (a ∈ p.live)) :: p.log⟩

@[simp] theorem live_allocated (p : Pool) (a : ℤ) : (p.allocated a).live = insert a p.live := rfl

@[simp] theorem live_refused (p : Pool) (n : ℕ) : (p.refused n).live = p.live := rfl

@[simp] theorem live_freed (p : Pool) (a : ℤ) : (p.freed a).live = p.live.erase a := rfl

@[simp] theorem live_accessed (p : Pool) (a : ℤ) : (p.accessed a).live = p.live := rfl

end Pool

/-- An allocator: the base address of a new block of `n` bytes, or `none` when there
is no room, and the bytes the block holds before anything is written to it. -/
structure Slab where
  pick : Pool → ℕ → Option ℤ
  fresh : ∀ p n a, pick p n = some a → a ∉ p.live
  pos : ∀ p n a, pick p n = some a → 0 < a
  stale : Pool → ℕ → List UInt8
  stale_length : ∀ p n, (stale p n).length = n

namespace Slab

/-- The allocator never fails. -/
def Unlimited (S : Slab) : Prop := ∀ p n, S.pick p n ≠ none

/-- An allocator that puts every block far above all live ones, filled with byte `c`. -/
def unlimited (c : UInt8) : Slab where
  pick p _ := some ((p.live.sup Int.toNat : ℕ) + 2 ^ 32)
  fresh p n a h hlive := by
    obtain rfl := Option.some.inj h
    have hle : Int.toNat _ ≤ p.live.sup Int.toNat := Finset.le_sup hlive
    omega
  pos p n a h := by
    obtain rfl := Option.some.inj h
    omega
  stale _ n := List.replicate n c
  stale_length _ n := List.length_replicate

/-- The allocator that fails where `fails` says so. -/
def failing (S : Slab) (fails : Pool → ℕ → Bool) : Slab where
  pick p n := if fails p n then none else S.pick p n
  fresh p n a h := by
    split at h
    · cases h
    · exact S.fresh p n a h
  pos p n a h := by
    split at h
    · cases h
    · exact S.pos p n a h
  stale := S.stale
  stale_length := S.stale_length

theorem unlimited_unlimited (c : UInt8) : (unlimited c).Unlimited := by
  simp [Unlimited, unlimited]

end Slab

/-- Programs over a pool. A program that stops leaves the pool as it is then. -/
abbrev SlabM := ExceptT Stop (StateM Pool)

/-- Allocate a block of `n` bytes. -/
def alloc (S : Slab) (n : ℕ) : SlabM (Option (ℤ × List UInt8)) := fun p =>
  match S.pick p n with
  | none => (.ok none, p.refused n)
  | some a => (.ok (some (a, S.stale p n)), p.allocated a)

/-- Free the block based at `a`. -/
def free (a : ℤ) : SlabM Unit := fun p =>
  (.ok (), p.freed a)

/-- Read or write a field of the block based at `a`. -/
def access (a : ℤ) : SlabM Unit := fun p =>
  (.ok (), p.accessed a)

/-- Read or write a field of the block based at `a`, which may be `NULL`. -/
def accessAt (a : ℤ) : SlabM Unit :=
  if a = 0 then throw .nullDereference else access a

/-- Use the target of a pointer. -/
def deref {α : Type} : Option α → SlabM α
  | none => throw .nullDereference
  | some a => pure a

/-- `assert`. -/
def assert (b : Bool) : SlabM Unit :=
  if b then pure () else throw .assertion

/-! ## Weakest preconditions -/

section Wp

variable {α β : Type} {E : Stop → Pool → Prop} {Q Q' : α → Pool → Prop} {p : Pool}

/-- From pool `p`, program `m` ends in a result that satisfies `Q`, or stops for a
reason and in a pool that satisfy `E`. -/
def wp (E : Stop → Pool → Prop) (m : SlabM α) (Q : α → Pool → Prop) (p : Pool) : Prop :=
  match m p with
  | (.ok a, p') => Q a p'
  | (.error e, p') => E e p'

/-- The program may stop for the reasons in `E`, in any pool. -/
abbrev wpStop (E : Stop → Prop) (m : SlabM α) (Q : α → Pool → Prop) (p : Pool) : Prop :=
  wp (fun e _ => E e) m Q p

theorem wp_mono {m : SlabM α} (hQ : ∀ a p', Q a p' → Q' a p') (h : wp E m Q p) :
    wp E m Q' p := by
  rw [wp] at h ⊢
  split
  · next a p' hm =>
    rw [hm] at h
    exact hQ a p' h
  · next e p' hm =>
    rw [hm] at h
    exact h

theorem wp_and {m : SlabM α} (h : wp E m Q p) (h' : wp E m Q' p) :
    wp E m (fun a p' => Q a p' ∧ Q' a p') p := by
  rw [wp] at h h' ⊢
  split
  · next a p' hm =>
    rw [hm] at h h'
    exact ⟨h, h'⟩
  · next e p' hm =>
    rw [hm] at h
    exact h

/-- Nothing is asked of the program. -/
theorem wp_any {m : SlabM α} (hE : ∀ e p, E e p) (hQ : ∀ a p, Q a p) : wp E m Q p := by
  rw [wp]
  split
  · exact hQ _ _
  · exact hE _ _

@[simp] theorem wp_pure (a : α) : wp E (pure a) Q p ↔ Q a p := Iff.rfl

@[simp] theorem wp_throw (e : Stop) : wp E (throw e : SlabM α) Q p ↔ E e p := Iff.rfl

@[simp] theorem wp_bind (m : SlabM α) (f : α → SlabM β) (Q : β → Pool → Prop) :
    wp E (m >>= f) Q p ↔ wp E m (fun a => wp E (f a) Q) p := by
  have hrun : (m >>= f) p = ExceptT.bindCont f (m p).1 (m p).2 := rfl
  unfold wp
  rw [hrun]
  rcases m p with ⟨e | a, p'⟩ <;> rfl

@[simp] theorem wp_free (a : ℤ) (Q : Unit → Pool → Prop) :
    wp E (free a) Q p ↔ Q () (p.freed a) := Iff.rfl

@[simp] theorem wp_access (a : ℤ) (Q : Unit → Pool → Prop) :
    wp E (access a) Q p ↔ Q () (p.accessed a) := Iff.rfl

@[simp] theorem wp_accessAt (a : ℤ) (Q : Unit → Pool → Prop) :
    wp E (accessAt a) Q p ↔ if a = 0 then E .nullDereference p else Q () (p.accessed a) := by
  rw [accessAt]
  split <;> rfl

@[simp] theorem wp_deref_some (a : α) : wp E (deref (some a)) Q p ↔ Q a p := Iff.rfl

@[simp] theorem wp_deref_none :
    wp E (deref (none : Option α)) Q p ↔ E .nullDereference p := Iff.rfl

@[simp] theorem wp_assert (b : Bool) (Q : Unit → Pool → Prop) :
    wp E (assert b) Q p ↔ if b then Q () p else E .assertion p := by
  cases b <;> rfl

/-- An allocation fails, or yields the base of a block that was not live. -/
theorem wp_alloc {S : Slab} {n : ℕ} {Q : Option (ℤ × List UInt8) → Pool → Prop}
    (hnone : S.pick p n = none → Q none (p.refused n))
    (hsome : ∀ a, S.pick p n = some a → a ∉ p.live → 0 < a →
      Q (some (a, S.stale p n)) (p.allocated a)) :
    wp E (alloc S n) Q p := by
  rw [wp, alloc]
  cases h : S.pick p n with
  | none => exact hnone h
  | some a => exact hsome a h (S.fresh p n a h) (S.pos p n a h)

/-- Running a program that satisfies its weakest precondition. -/
theorem wp_iff {m : SlabM α} : wp E m Q p ↔
    (∀ a p', m p = (.ok a, p') → Q a p') ∧ ∀ e p', m p = (.error e, p') → E e p' := by
  rw [wp]
  obtain ⟨e | a, p'⟩ := m p
  · refine ⟨fun h => ⟨fun _ _ he => ?_, fun e' p'' he => ?_⟩, fun h => h.2 e p' rfl⟩
    · cases he
    · cases he
      exact h
  · refine ⟨fun h => ⟨fun a' p'' he => ?_, fun _ _ he => ?_⟩, fun h => h.1 a p' rfl⟩
    · cases he
      exact h
    · cases he

end Wp

/-- Two facts about a program that does not stop hold of one result. -/
theorem exists_of_wp {α : Type} {E : Stop → Pool → Prop} {Q Q' : α → Pool → Prop} {p : Pool}
    {m : SlabM α} (h : wp (fun _ _ => False) m Q p) (h' : wp E m Q' p) :
    ∃ a p', Q a p' ∧ Q' a p' := by
  revert h h'
  unfold wp
  obtain ⟨e | a, p'⟩ := m p
  · intro h _
    exact False.elim h
  · intro h h'
    exact ⟨a, p', h, h'⟩

/-- What is made of the result of a program and the pool it leaves, unless it stops. -/
def outcome {α β : Type} (m : SlabM α) (f : α → Pool → β) (p : Pool) : Except Stop β :=
  match m p with
  | (.ok a, p') => .ok (f a p')
  | (.error e, _) => .error e

/-- A property of the outcome is one of the program. -/
theorem outcome_iff {α β : Type} {m : SlabM α} {f : α → Pool → β} {p : Pool}
    (R : Except Stop β → Prop) :
    R (outcome m f p) ↔ wp (fun e _ => R (.error e)) m (fun a p' => R (.ok (f a p'))) p := by
  rw [outcome, wp]
  obtain ⟨e | a, p'⟩ := m p
  · rfl
  · rfl

/-- A program ends in a result with a property exactly when it establishes the property
without stopping. -/
theorem ends_iff {α : Type} {m : SlabM α} {Q : α → Pool → Prop} {p : Pool} :
    (∃ a p', m p = (.ok a, p') ∧ Q a p') ↔ wp (fun _ _ => False) m Q p := by
  rw [wp]
  obtain ⟨e | a, p'⟩ := m p
  · refine iff_of_false ?_ id
    rintro ⟨a, p'', h, -⟩
    cases h
  · constructor
    · rintro ⟨a', p'', h, hQ⟩
      cases h
      exact hQ
    · intro hQ
      exact ⟨a, p', rfl, hQ⟩

/-- What holds of the pool however the program ends. -/
theorem wp_pool {α : Type} {m : SlabM α} {I : Pool → Prop} {p : Pool} :
    wp (fun _ => I) m (fun _ => I) p ↔ I (m p).2 := by
  rw [wp]
  obtain ⟨e | a, p'⟩ := m p
  · rfl
  · rfl

/-- What a program establishes holds of its outcome. -/
theorem outcome_ok {α β : Type} {m : SlabM α} {f : α → Pool → β} {p : Pool} {b : β}
    {E : Stop → Pool → Prop} {Q : β → Prop} (h : outcome m f p = .ok b)
    (hwp : wp E m (fun a p' => Q (f a p')) p) : Q b := by
  revert h hwp
  rw [outcome, wp]
  obtain ⟨e | a, p'⟩ := m p
  · intro h
    cases h
  · intro h hwp
    obtain rfl := Except.ok.inj h
    exact hwp

/-- `I` is kept by touching the blocks `xs`, and permits every stop. -/
structure Stable (E : Stop → Pool → Prop) (I : Pool → Prop) (xs : List ℤ) : Prop where
  stop : ∀ e p, I p → E e p
  access : ∀ a ∈ xs, ∀ p, I p → I (p.accessed a)

/-- `I` follows the list of blocks a program allocates; it may also touch the blocks `rs`. -/
structure Tracks (I : List ℤ → Pool → Prop) (rs : List ℤ) : Prop where
  perm : ∀ {xs ys p}, I xs p → xs.Perm ys → I ys p
  alloc : ∀ {xs p a}, I xs p → a ∉ p.live → I (a :: xs) (p.allocated a)
  refused : ∀ {xs p} n, I xs p → I xs (p.refused n)
  access : ∀ {xs p a}, I xs p → a ∈ rs ++ xs → I xs (p.accessed a)

theorem Tracks.and {I J : List ℤ → Pool → Prop} {rs : List ℤ} (hI : Tracks I rs)
    (hJ : Tracks J rs) : Tracks (fun xs p => I xs p ∧ J xs p) rs where
  perm h hperm := ⟨hI.perm h.1 hperm, hJ.perm h.2 hperm⟩
  alloc h ha := ⟨hI.alloc h.1 ha, hJ.alloc h.2 ha⟩
  refused n h := ⟨hI.refused n h.1, hJ.refused n h.2⟩
  access h ha := ⟨hI.access h.1 ha, hJ.access h.2 ha⟩

/-- `I` is kept by every operation but a refused allocation. -/
structure Lasting (I : Pool → Prop) : Prop where
  alloc : ∀ {p} a, I p → I (p.allocated a)
  free : ∀ {p} a, I p → I (p.freed a)
  access : ∀ {p} a, I p → I (p.accessed a)

/-- `I` is also kept by a refused allocation of no bytes that comes right after a block was
touched. -/
structure Sparing (I : Pool → Prop) : Prop extends Lasting I where
  empty : ∀ {p} a, I p → I ((p.accessed a).refused 0)

/-- `I` is kept by every operation. -/
structure Permanent (I : Pool → Prop) : Prop extends Lasting I where
  refused : ∀ {p} n, I p → I (p.refused n)

/-! ## Ownership -/

/-- A stop before which nothing was misused. -/
def SafeStop (_ : Stop) (p : Pool) : Prop := p.Safe

/-- No fault was recorded, and `xs` are distinct live blocks. -/
structure Pool.Owns (p : Pool) (xs : List ℤ) : Prop where
  safe : p.Safe
  nodup : xs.Nodup
  live : ∀ x ∈ xs, x ∈ p.live

namespace Pool.Owns

variable {p : Pool} {xs ys : List ℤ} {a : ℤ}

theorem perm (h : p.Owns xs) (hp : xs.Perm ys) : p.Owns ys :=
  ⟨h.safe, hp.nodup_iff.mp h.nodup, fun y hy => h.live y (hp.mem_iff.mpr hy)⟩

/-- Blocks may be forgotten. -/
theorem sublist (h : p.Owns ys) (hs : xs.Sublist ys) : p.Owns xs :=
  ⟨h.safe, h.nodup.sublist hs, fun x hx => h.live x (hs.subset hx)⟩

theorem alloc (h : p.Owns xs) (ha : a ∉ p.live) :
    (p.allocated a).Owns (a :: xs) := by
  refine ⟨?_, List.nodup_cons.mpr ⟨fun hx => ha (h.live a hx), h.nodup⟩, ?_⟩
  · intro e he
    obtain rfl | he := List.mem_cons.mp he
    · rfl
    · exact h.safe e he
  · intro x hx
    obtain rfl | hx := List.mem_cons.mp hx
    · exact Finset.mem_insert_self x p.live
    · exact Finset.mem_insert_of_mem (h.live x hx)

theorem refused (h : p.Owns xs) (n : ℕ) : (p.refused n).Owns xs := by
  refine ⟨?_, h.nodup, h.live⟩
  intro e he
  obtain rfl | he := List.mem_cons.mp he
  · rfl
  · exact h.safe e he

theorem access (h : p.Owns xs) (ha : a ∈ xs) : (p.accessed a).Owns xs := by
  refine ⟨?_, h.nodup, h.live⟩
  intro e he
  obtain rfl | he := List.mem_cons.mp he
  · simpa [Event.ok] using h.live a ha
  · exact h.safe e he

theorem stable : Stable SafeStop (fun p => p.Owns xs) xs :=
  ⟨fun _ _ h => h.safe, fun _ ha _ h => h.access ha⟩

theorem free (h : p.Owns (a :: xs)) : (p.freed a).Owns xs := by
  obtain ⟨hnot, hnodup⟩ := List.nodup_cons.mp h.nodup
  refine ⟨?_, hnodup, ?_⟩
  · intro e he
    obtain rfl | he := List.mem_cons.mp he
    · simpa [Event.ok] using h.live a (by simp)
    · exact h.safe e he
  · intro x hx
    refine Finset.mem_erase.mpr ⟨?_, h.live x (List.mem_cons_of_mem a hx)⟩
    rintro rfl
    exact hnot hx

/-- Blocks owned together with `rs`. -/
theorem tracks (rs : List ℤ) : Tracks (fun xs p => p.Owns (rs ++ xs)) rs where
  perm h hp := h.perm (hp.append_left rs)
  alloc h ha := (h.alloc ha).perm List.perm_middle.symm
  refused n h := h.refused n
  access h ha := h.access ha

end Pool.Owns

/-! ## Growth -/

/-- Since pool `p` the blocks `xs` were allocated, and nothing was freed. -/
structure Pool.Grew (p : Pool) (xs : List ℤ) (p' : Pool) : Prop where
  nodup : xs.Nodup
  fresh : ∀ x ∈ xs, x ∉ p.live
  live : ∀ a, a ∈ p'.live ↔ a ∈ xs ∨ a ∈ p.live

namespace Pool.Grew

variable {p p' : Pool} {xs ys : List ℤ} {a : ℤ}

theorem refl (p : Pool) : p.Grew [] p :=
  ⟨List.nodup_nil, by simp, by simp⟩

theorem alloc (h : p.Grew xs p') (ha : a ∉ p'.live) : p.Grew (a :: xs) (p'.allocated a) := by
  rw [h.live, not_or] at ha
  refine ⟨List.nodup_cons.mpr ⟨ha.1, h.nodup⟩, ?_, ?_⟩
  · intro x hx
    obtain rfl | hx := List.mem_cons.mp hx
    · exact ha.2
    · exact h.fresh x hx
  · intro x
    rw [live_allocated, Finset.mem_insert, h.live, List.mem_cons, or_assoc]

theorem tracks (p : Pool) (rs : List ℤ) : Tracks p.Grew rs where
  perm h hp := ⟨hp.nodup_iff.mp h.nodup, fun y hy => h.fresh y (hp.mem_iff.mpr hy),
    fun a => by rw [h.live, hp.mem_iff]⟩
  alloc h ha := h.alloc ha
  refused _ h := ⟨h.nodup, h.fresh, h.live⟩
  access h _ := ⟨h.nodup, h.fresh, h.live⟩

end Pool.Grew

/-! ## Counting -/

/-- A stop for any reason. -/
def AnyStop (_ : Stop) (_ : Pool) : Prop := True

theorem wp_anyStop {α : Type} {E : Stop → Pool → Prop} {m : SlabM α} {Q : α → Pool → Prop}
    {p : Pool} (h : wp E m Q p) : wp AnyStop m Q p :=
  wp_iff.mpr ⟨(wp_iff.mp h).1, fun _ _ _ => trivial⟩

theorem Lasting.stable {I : Pool → Prop} (hI : Lasting I) (xs : List ℤ) : Stable AnyStop I xs :=
  ⟨fun _ _ _ => trivial, fun a _ _ h => hI.access a h⟩

/-- At least `c` blocks are live. Only those count whose address may be handed out. -/
def Pool.Holds (p : Pool) (c : ℤ) : Prop := c ≤ (p.live.filter (0 < ·)).card

namespace Pool.Holds

variable {p : Pool} {c c' a : ℤ}

theorem mono (h : p.Holds c) (hle : c' ≤ c) : p.Holds c' := hle.trans h

theorem alloc (h : p.Holds c) (ha : a ∉ p.live) (hpos : 0 < a) : (p.allocated a).Holds (c + 1) := by
  have hnot : a ∉ p.live.filter (0 < ·) := fun hmem => ha (Finset.mem_filter.mp hmem).1
  rw [Holds] at h ⊢
  rw [live_allocated, Finset.filter_insert, if_pos hpos, Finset.card_insert_of_notMem hnot]
  push_cast
  omega

theorem refused (h : p.Holds c) (n : ℕ) : (p.refused n).Holds c := h

theorem free (h : p.Holds c) (a : ℤ) : (p.freed a).Holds (c - 1) := by
  have herase := Finset.pred_card_le_card_erase (s := p.live.filter (0 < ·)) (a := a)
  rw [Holds] at h ⊢
  rw [live_freed, Finset.filter_erase]
  omega

/-- No block that counts is based at `NULL` or below. -/
theorem free_nonpos (h : p.Holds c) (ha : a ≤ 0) : (p.freed a).Holds c := by
  have hnot : a ∉ p.live.filter (0 < ·) := fun hmem =>
    absurd (Finset.mem_filter.mp hmem).2 (not_lt.mpr ha)
  rw [Holds] at h ⊢
  rw [live_freed, Finset.filter_erase, Finset.erase_eq_of_notMem hnot]
  exact h

theorem access (h : p.Holds c) (a : ℤ) : (p.accessed a).Holds c := h

theorem stable (xs : List ℤ) : Stable AnyStop (fun p => p.Holds c) xs :=
  ⟨fun _ _ _ => trivial, fun a _ _ h => h.access a⟩

end Pool.Holds

/-! ## Reading the record -/

/-- The allocation was refused. -/
def Event.isRefused : Event → Bool
  | .refused _ => true
  | _ => false

/-- The allocation was refused, and it was not one of no bytes. -/
def Event.isDenied : Event → Bool
  | .refused n => n != 0
  | _ => false

namespace Pool

/-- How many allocations were refused so far. -/
def refusals (p : Pool) : ℕ := p.log.countP Event.isRefused

@[simp] theorem refusals_allocated (p : Pool) (a : ℤ) : (p.allocated a).refusals = p.refusals :=
  List.countP_cons_of_neg Bool.false_ne_true

@[simp] theorem refusals_refused (p : Pool) (n : ℕ) :
    (p.refused n).refusals = p.refusals + 1 :=
  List.countP_cons_of_pos rfl

@[simp] theorem refusals_freed (p : Pool) (a : ℤ) : (p.freed a).refusals = p.refusals :=
  List.countP_cons_of_neg Bool.false_ne_true

@[simp] theorem refusals_accessed (p : Pool) (a : ℤ) : (p.accessed a).refusals = p.refusals :=
  List.countP_cons_of_neg Bool.false_ne_true

theorem refusals_mono {p p' : Pool} (h : p.log <:+ p'.log) : p.refusals ≤ p'.refusals :=
  h.sublist.countP_le

/-- How many allocations of at least one byte were refused so far. -/
def denials (p : Pool) : ℕ := p.log.countP Event.isDenied

@[simp] theorem denials_allocated (p : Pool) (a : ℤ) : (p.allocated a).denials = p.denials :=
  List.countP_cons_of_neg Bool.false_ne_true

@[simp] theorem denials_refused_zero (p : Pool) : (p.refused 0).denials = p.denials :=
  List.countP_cons_of_neg Bool.false_ne_true

@[simp] theorem denials_freed (p : Pool) (a : ℤ) : (p.freed a).denials = p.denials :=
  List.countP_cons_of_neg Bool.false_ne_true

@[simp] theorem denials_accessed (p : Pool) (a : ℤ) : (p.accessed a).denials = p.denials :=
  List.countP_cons_of_neg Bool.false_ne_true

theorem denials_refused {n : ℕ} (p : Pool) (hn : n ≠ 0) :
    (p.refused n).denials = p.denials + 1 :=
  List.countP_cons_of_pos (by simpa [Event.isDenied] using hn)

theorem denials_mono {p p' : Pool} (h : p.log <:+ p'.log) : p.denials ≤ p'.denials :=
  h.sublist.countP_le

/-- What is denied is refused. -/
theorem refusals_lt {p p' : Pool} (h : p.log <:+ p'.log) (hlt : p.denials < p'.denials) :
    p.refusals < p'.refusals := by
  obtain ⟨es, hes⟩ := h
  have hle : es.countP Event.isDenied ≤ es.countP Event.isRefused := by
    refine List.countP_mono_left fun e _ he => ?_
    cases e <;> simp_all [Event.isDenied, Event.isRefused]
  rw [denials, denials, ← hes, List.countP_append] at hlt
  rw [refusals, refusals, ← hes, List.countP_append]
  omega

/-- Where the blocks allocated so far were, the last one first. -/
def allocs (p : Pool) : List ℤ := p.log.filterMap fun
  | .alloc a => some a
  | _ => none

/-- The addresses freed so far, the last one first. -/
def frees (p : Pool) : List ℤ := p.log.filterMap fun
  | .free a _ => some a
  | _ => none

@[simp] theorem allocs_allocated (p : Pool) (a : ℤ) :
    (p.allocated a).allocs = a :: p.allocs := rfl

@[simp] theorem allocs_refused (p : Pool) (n : ℕ) : (p.refused n).allocs = p.allocs := rfl

@[simp] theorem allocs_freed (p : Pool) (a : ℤ) : (p.freed a).allocs = p.allocs := rfl

@[simp] theorem allocs_accessed (p : Pool) (a : ℤ) : (p.accessed a).allocs = p.allocs := rfl

@[simp] theorem frees_allocated (p : Pool) (a : ℤ) : (p.allocated a).frees = p.frees := rfl

@[simp] theorem frees_refused (p : Pool) (n : ℕ) : (p.refused n).frees = p.frees := rfl

@[simp] theorem frees_freed (p : Pool) (a : ℤ) : (p.freed a).frees = a :: p.frees := rfl

@[simp] theorem frees_accessed (p : Pool) (a : ℤ) : (p.accessed a).frees = p.frees := rfl

/-- What was recorded stays recorded. -/
theorem permanent_suffix (es : List Event) : Permanent fun p => es <:+ p.log where
  alloc _ h := h.trans (List.suffix_cons _ _)
  free _ h := h.trans (List.suffix_cons _ _)
  access _ h := h.trans (List.suffix_cons _ _)
  refused _ h := h.trans (List.suffix_cons _ _)

theorem permanent_refusals (r : ℕ) : Permanent fun p => r < p.refusals where
  alloc a h := by rwa [refusals_allocated]
  free a h := by rwa [refusals_freed]
  access a h := by rwa [refusals_accessed]
  refused n h := by
    rw [refusals_refused]
    exact Nat.lt_succ_of_lt h

end Pool

/-- The block an operation was on. -/
def Event.block : Event → Option ℤ
  | .alloc a => some a
  | .refused _ => none
  | .free a _ => some a
  | .access a _ => some a

/-- Nothing was done to the block based at `a` since pool `p`. -/
def Pool.Untouched (p : Pool) (a : ℤ) (p' : Pool) : Prop :=
  ∃ es, p'.log = es ++ p.log ∧ ∀ e ∈ es, e.block ≠ some a

namespace Pool.Untouched

variable {p p' p'' : Pool} {a b : ℤ}

theorem refl (p : Pool) (a : ℤ) : p.Untouched a p := ⟨[], rfl, by simp⟩

theorem trans (h : p.Untouched a p') (h' : p'.Untouched a p'') : p.Untouched a p'' := by
  obtain ⟨es, hlog, hes⟩ := h
  obtain ⟨es', hlog', hes'⟩ := h'
  refine ⟨es' ++ es, by rw [hlog', hlog, List.append_assoc], fun e he => ?_⟩
  obtain he | he := List.mem_append.mp he
  · exact hes' e he
  · exact hes e he

theorem step (h : p.Untouched a p') {e : Event} (hlog : p''.log = e :: p'.log)
    (he : e.block ≠ some a) : p.Untouched a p'' :=
  h.trans ⟨[e], hlog, by simpa using he⟩

theorem free (h : p.Untouched a p') (hne : b ≠ a) : p.Untouched a (p'.freed b) :=
  h.step rfl (by simpa [Event.block] using hne)

theorem access (h : p.Untouched a p') (hne : b ≠ a) : p.Untouched a (p'.accessed b) :=
  h.step rfl (by simpa [Event.block] using hne)

/-- A program touches what it allocates and what it may touch anyway. -/
theorem tracks (p : Pool) (rs : List ℤ) :
    Tracks (fun xs p' => ∀ a ∉ rs ++ xs, p.Untouched a p') rs where
  perm h hperm a ha := h a (mt (hperm.append_left rs).mem_iff.mp ha)
  alloc {xs p' b} h _ a ha := by
    simp only [List.mem_append, List.mem_cons, not_or] at ha
    refine (h a ?_).step rfl ?_
    · simp only [List.mem_append, not_or]
      exact ⟨ha.1, ha.2.2⟩
    · simpa [Event.block] using Ne.symm ha.2.1
  refused n h a ha := (h a ha).step rfl (by simp [Event.block])
  access {xs p' b} h hb a ha := (h a ha).access fun heq => ha (heq ▸ hb)

end Pool.Untouched

end SlabPool
