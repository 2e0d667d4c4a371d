import Mathlib.Data.List.Nodup
import Mathlib.Logic.Function.Iterate

/-!
# Intrusive circular doubly linked lists

A heap of list nodes is a pair of maps `next` and `prev` over an arbitrary type
of node addresses. A list is rooted at a sentinel node `h`; the nodes linked
into it are described by `Ring L h xs`, which says that following `next` from
`h` visits `xs` in order and returns to `h`, and that `prev` inverts `next`
along the way.

## Main results

- `Ring.pushFront`, `Ring.pushBack`, `Ring.popFront` — the pointer operations
  act on the visited list as `cons`, append at the end, and tail
- `Ring.next_iterate`, `Ring.prev_iterate` — the ring is what a traversal sees
- `Links.Reaches` — what a traversal meets when the links need not form a ring
- `Forest` — several disjoint rings in one heap, and the same operations on it
-/

namespace CircularList

/-- The link fields of every node. -/
structure Links (α : Type*) where
  next : α → α
  prev : α → α

namespace Links

variable {α : Type*}

/-- Every node linked to itself only. -/
def isolated : Links α := ⟨id, id⟩

variable [DecidableEq α]

/-- The assignment `x->next = y`. -/
def setNext (L : Links α) (x y : α) : Links α :=
  { L with next := Function.update L.next x y }

/-- The assignment `x->prev = y`. -/
def setPrev (L : Links α) (x y : α) : Links α :=
  { L with prev := Function.update L.prev x y }

@[simp] theorem setNext_next (L : Links α) (x y z : α) :
    (L.setNext x y).next z = if z = x then y else L.next z := by
  simp [setNext, Function.update_apply]

@[simp] theorem setNext_prev (L : Links α) (x y z : α) :
    (L.setNext x y).prev z = L.prev z := rfl

@[simp] theorem setPrev_prev (L : Links α) (x y z : α) :
    (L.setPrev x y).prev z = if z = x then y else L.prev z := by
  simp [setPrev, Function.update_apply]

@[simp] theorem setPrev_next (L : Links α) (x y z : α) :
    (L.setPrev x y).next z = L.next z := rfl

/-- Link `x` right after the sentinel `h`. -/
def pushFront (L : Links α) (h x : α) : Links α :=
  let L := L.setNext x (L.next h)
  let L := L.setPrev (L.next x) x
  let L := L.setPrev x h
  L.setNext h x

/-- Link `x` right before the sentinel `h`. -/
def pushBack (L : Links α) (h x : α) : Links α :=
  let L := L.setPrev x (L.prev h)
  let L := L.setNext (L.prev x) x
  let L := L.setNext x h
  L.setPrev h x

/-- Unlink the node right after the sentinel `h`. -/
def popFront (L : Links α) (h : α) : Links α :=
  let L := L.setNext h (L.next (L.next h))
  L.setPrev (L.next h) h

end Links

variable {α : Type*} {L L' : Links α} {a b h x y : α} {xs ys : List α}

/-- `next` leads from `a` through `xs` to `b`, and `prev` leads back. -/
def Seg (L : Links α) : α → List α → α → Prop
  | a, [], b => L.next a = b ∧ L.prev b = a
  | a, x :: xs, b => L.next a = x ∧ L.prev x = a ∧ Seg L x xs b

theorem seg_append : Seg L a (xs ++ x :: ys) b ↔ Seg L a xs x ∧ Seg L x ys b := by
  induction xs generalizing a with
  | nil => simp only [List.nil_append, Seg, and_assoc]
  | cons y xs ih => simp only [List.cons_append, Seg, ih, and_assoc]

/-- A segment only depends on the links between its own nodes. -/
theorem Seg.congr (hs : Seg L a xs b) (hn : ∀ y ∈ a :: xs, L'.next y = L.next y)
    (hp : ∀ y ∈ xs ++ [b], L'.prev y = L.prev y) : Seg L' a xs b := by
  induction xs generalizing a with
  | nil =>
    exact ⟨(hn a (by simp)).trans hs.1, (hp b (by simp)).trans hs.2⟩
  | cons x xs ih =>
    obtain ⟨h1, h2, h3⟩ := hs
    refine ⟨(hn a (by simp)).trans h1, (hp x (by simp)).trans h2, ih h3 ?_ ?_⟩
    · intro y hy
      exact hn y (List.mem_cons_of_mem _ hy)
    · intro y hy
      exact hp y (List.mem_cons_of_mem _ hy)

/-- A well-formed circular list with sentinel `h` and linked nodes `xs`. -/
structure Ring (L : Links α) (h : α) (xs : List α) : Prop where
  seg : Seg L h xs h
  nodup : (h :: xs).Nodup

theorem ring_isolated : Ring (Links.isolated : Links α) h [] :=
  ⟨⟨rfl, rfl⟩, List.nodup_singleton h⟩

/-- Writes outside a ring do not touch it. -/
theorem Ring.congr (hr : Ring L h xs) (hn : ∀ y ∈ h :: xs, L'.next y = L.next y)
    (hp : ∀ y ∈ h :: xs, L'.prev y = L.prev y) : Ring L' h xs := by
  refine ⟨hr.seg.congr hn ?_, hr.nodup⟩
  intro y hy
  apply hp y
  simp only [List.mem_append, List.mem_singleton] at hy
  simp only [List.mem_cons]
  exact hy.symm

theorem Ring.next_head (hr : Ring L h xs) : L.next h = xs.headD h := by
  cases xs with
  | nil => exact hr.seg.1
  | cons x xs => exact hr.seg.1

/-- The test `h == h->prev` decides whether nothing is linked. -/
theorem Ring.prev_head_eq_iff (hr : Ring L h xs) : L.prev h = h ↔ xs = [] := by
  obtain rfl | ⟨ys, z, rfl⟩ := List.eq_nil_or_concat xs
  · simpa using hr.seg.2
  · rw [List.concat_eq_append] at hr ⊢
    have hz : L.prev h = z := (seg_append.mp hr.seg).2.2
    have hne : z ≠ h := by
      have hnd := hr.nodup
      simp only [List.nodup_cons, List.mem_append, List.mem_singleton, not_or] at hnd
      exact Ne.symm hnd.1.2
    simp [hz, hne]

private theorem seg_next_iterate (hs : Seg L a xs b) :
    (∀ i, (hi : i < xs.length) → L.next^[i + 1] a = xs[i]) ∧
      L.next^[xs.length + 1] a = b := by
  induction xs generalizing a with
  | nil => exact ⟨fun i hi => absurd hi (Nat.not_lt_zero i), hs.1⟩
  | cons x xs ih =>
    obtain ⟨h1, -, h3⟩ := hs
    obtain ⟨hi, hl⟩ := ih h3
    refine ⟨?_, ?_⟩
    · intro i hlt
      cases i with
      | zero => simpa using h1
      | succ i =>
        rw [Function.iterate_succ_apply, h1]
        exact hi i (by simpa using hlt)
    · rw [List.length_cons, Function.iterate_succ_apply, h1]
      exact hl

/-- Following `next` from the sentinel visits the linked nodes in order. -/
theorem Ring.next_iterate (hr : Ring L h xs) (i : ℕ) (hi : i < xs.length) :
    L.next^[i + 1] h = xs[i] :=
  (seg_next_iterate hr.seg).1 i hi

/-- After all linked nodes the traversal is back at the sentinel. -/
theorem Ring.next_iterate_length (hr : Ring L h xs) : L.next^[xs.length + 1] h = h :=
  (seg_next_iterate hr.seg).2

private theorem seg_prev_next (hs : Seg L a xs b) : ∀ y ∈ a :: xs, L.prev (L.next y) = y := by
  induction xs generalizing a with
  | nil =>
    intro y hy
    obtain rfl : y = a := by simpa using hy
    rw [hs.1, hs.2]
  | cons x xs ih =>
    obtain ⟨h1, h2, h3⟩ := hs
    intro y hy
    obtain rfl | hy := List.mem_cons.mp hy
    · rw [h1, h2]
    · exact ih h3 y hy

/-- On a ring `prev` undoes `next`. -/
theorem Ring.prev_next (hr : Ring L h xs) : ∀ y ∈ h :: xs, L.prev (L.next y) = y :=
  seg_prev_next hr.seg

/-- A ring read backwards. -/
def Links.reverse (L : Links α) : Links α := ⟨L.prev, L.next⟩

theorem Seg.reverse (hs : Seg L a xs b) : Seg L.reverse b xs.reverse a := by
  induction xs generalizing a with
  | nil => exact ⟨hs.2, hs.1⟩
  | cons x xs ih =>
    obtain ⟨h1, h2, h3⟩ := hs
    rw [List.reverse_cons]
    exact seg_append.mpr ⟨ih h3, h2, h1⟩

theorem Ring.reverse (hr : Ring L h xs) : Ring L.reverse h xs.reverse := by
  refine ⟨hr.seg.reverse, ?_⟩
  obtain ⟨hnot, hnd⟩ := List.nodup_cons.mp hr.nodup
  exact List.nodup_cons.mpr ⟨by simpa using hnot, List.nodup_reverse.mpr hnd⟩

/-- Following `prev` from the sentinel visits the linked nodes in reverse order. -/
theorem Ring.prev_iterate (hr : Ring L h xs) (i : ℕ) (hi : i < xs.reverse.length) :
    L.prev^[i + 1] h = xs.reverse[i] :=
  hr.reverse.next_iterate i hi

theorem Ring.prev_iterate_length (hr : Ring L h xs) : L.prev^[xs.length + 1] h = h := by
  have hback := hr.reverse.next_iterate_length
  rwa [List.length_reverse] at hback

private theorem Ring.length_le (hr : Ring L h xs) (hr' : Ring L h ys) : ys.length ≤ xs.length := by
  by_contra hlt
  -- the shorter ring is back at the sentinel where the longer one is at a node
  have hnode := hr'.next_iterate xs.length (by omega)
  rw [hr.next_iterate_length] at hnode
  apply (List.nodup_cons.mp hr'.nodup).1
  rw [hnode]
  exact List.getElem_mem _

/-- The links determine what is linked. -/
theorem Ring.unique (hr : Ring L h xs) (hr' : Ring L h ys) : xs = ys := by
  apply List.ext_getElem (Nat.le_antisymm (hr'.length_le hr) (hr.length_le hr'))
  intro i hi hi'
  rw [← hr.next_iterate i hi, ← hr'.next_iterate i hi']

section Operations

variable [DecidableEq α]

theorem Ring.pushFront (hr : Ring L h xs) (hx : x ∉ h :: xs) :
    Ring (L.pushFront h x) h (x :: xs) := by
  have hxh : x ≠ h := fun e => hx (by simp [e])
  have hnd := List.nodup_cons.mp hr.nodup
  refine ⟨?_, ?_⟩
  · cases xs with
    | nil =>
      obtain ⟨h1, -⟩ := hr.seg
      simp [Seg, Links.pushFront, h1, hxh, Ne.symm hxh]
    | cons y ys =>
      obtain ⟨h1, -, h3⟩ := hr.seg
      have hyx : y ≠ x := fun e => hx (by simp [e])
      have hyh : y ≠ h := fun e => hnd.1 (by simp [e])
      -- the writes go to `h`, `x` and the old first node `y` only
      have htail : Seg (L.pushFront h x) y ys h := by
        refine h3.congr ?_ ?_
        · intro z hz
          have hzx : z ≠ x := fun e => hx (List.mem_cons_of_mem _ (e ▸ hz))
          have hzh : z ≠ h := fun e => hnd.1 (e ▸ hz)
          simp [Links.pushFront, hzx, hzh]
        · intro z hz
          have hzx : z ≠ x := by
            rintro rfl
            simp only [List.mem_append, List.mem_singleton] at hz
            exact hz.elim (fun hm => hx (by simp [hm])) hxh
          have hzy : z ≠ y := by
            rintro rfl
            simp only [List.mem_append, List.mem_singleton] at hz
            exact hz.elim (List.nodup_cons.mp hnd.2).1 hyh
          simp [Links.pushFront, h1, hzx, hzy]
      refine ⟨?_, ?_, ?_, ?_, htail⟩
      · simp [Links.pushFront]
      · simp [Links.pushFront]
      · simp [Links.pushFront, h1, hxh]
      · simp [Links.pushFront, h1, hyx]
  · simp only [List.nodup_cons, List.mem_cons, not_or] at hx ⊢
    exact ⟨⟨Ne.symm hxh, hnd.1⟩, hx.2, hnd.2⟩

theorem Ring.pushBack (hr : Ring L h xs) (hx : x ∉ h :: xs) :
    Ring (L.pushBack h x) h (xs ++ [x]) := by
  have hxh : x ≠ h := fun e => hx (by simp [e])
  have hnd := List.nodup_cons.mp hr.nodup
  refine ⟨?_, ?_⟩
  · obtain rfl | ⟨ys, z, rfl⟩ := List.eq_nil_or_concat xs
    · obtain ⟨-, h2⟩ := hr.seg
      simp [Seg, Links.pushBack, h2, hxh, Ne.symm hxh]
    · rw [List.concat_eq_append] at hr hx hnd ⊢
      obtain ⟨h1, -, h2⟩ := seg_append.mp hr.seg
      have hzx : z ≠ x := fun e => hx (by simp [e])
      have hzh : z ≠ h := fun e => hnd.1 (by simp [e])
      -- up to the old last node `z` nothing is written but `h.prev`
      have hfront : Seg (L.pushBack h x) h ys z := by
        refine h1.congr ?_ ?_
        · intro y hy
          have hyx : y ≠ x := by
            rintro rfl
            obtain rfl | hy := List.mem_cons.mp hy
            · exact hxh rfl
            · exact hx (by simp [hy])
          have hyz : y ≠ z := by
            rintro rfl
            obtain rfl | hy := List.mem_cons.mp hy
            · exact hzh rfl
            · exact (List.nodup_append.mp hnd.2).2.2 y hy y (by simp) rfl
          simp [Links.pushBack, h2, hyx, hyz]
        · intro y hy
          have hyx : y ≠ x := fun e => hx (List.mem_cons_of_mem _ (e ▸ hy))
          have hyh : y ≠ h := fun e => hnd.1 (e ▸ hy)
          simp [Links.pushBack, hyx, hyh]
      rw [List.append_assoc]
      refine seg_append.mpr ⟨hfront, ?_, ?_, ?_, ?_⟩
      · simp [Links.pushBack, h2, hzx]
      · simp [Links.pushBack, h2, hxh]
      · simp [Links.pushBack]
      · simp [Links.pushBack]
  · have hne : x ∉ xs := fun hm => hx (List.mem_cons_of_mem _ hm)
    simp only [List.nodup_cons, List.mem_append, List.mem_singleton, not_or]
    refine ⟨⟨hnd.1, Ne.symm hxh⟩, ?_⟩
    exact List.nodup_append.mpr ⟨hnd.2, List.nodup_singleton x,
      fun y hy z hz e => hne (by simp only [List.mem_singleton] at hz; rwa [← hz, ← e])⟩

theorem Ring.popFront (hr : Ring L h (x :: xs)) : Ring (L.popFront h) h xs := by
  obtain ⟨h1, -, h3⟩ := hr.seg
  have hnd := hr.nodup
  simp only [List.nodup_cons, List.mem_cons, not_or] at hnd
  refine ⟨?_, by simpa using ⟨hnd.1.2, hnd.2.2⟩⟩
  cases xs with
  | nil =>
    simp [Seg, Links.popFront, h1, h3.1]
  | cons y ys =>
    obtain ⟨h4, -, h6⟩ := h3
    refine ⟨?_, ?_, h6.congr ?_ ?_⟩
    · simp [Links.popFront, h1, h4]
    · simp [Links.popFront, h1, h4]
    · intro z hz
      have hzh : z ≠ h := fun e => hnd.1.2 (e ▸ hz)
      simp [Links.popFront, hzh]
    · intro z hz
      have hzy : z ≠ y := by
        rintro rfl
        simp only [List.mem_append, List.mem_singleton] at hz
        obtain hz | rfl := hz
        · exact (List.nodup_cons.mp hnd.2.2).1 hz
        · exact hnd.1.2 (by simp)
      simp [Links.popFront, h1, h4, hzy]

theorem Links.pushBack_of_ne (hy : y ≠ h) (hyx : y ≠ x) (hyp : y ≠ L.prev h) :
    (L.pushBack h x).next y = L.next y ∧ (L.pushBack h x).prev y = L.prev y := by
  simp [Links.pushBack, hy, hyx, hyp]

theorem Links.popFront_of_ne (hy : y ≠ h) (hyn : y ≠ L.next (L.next h)) :
    (L.popFront h).next y = L.next y ∧ (L.popFront h).prev y = L.prev y := by
  simp [Links.popFront, hy, hyn]

end Operations

theorem Ring.prev_head_mem (hr : Ring L h xs) : L.prev h ∈ h :: xs := by
  obtain rfl | ⟨ys, z, rfl⟩ := List.eq_nil_or_concat xs
  · rw [hr.seg.2]
    simp
  · rw [List.concat_eq_append] at hr ⊢
    rw [(seg_append.mp hr.seg).2.2]
    simp

theorem Ring.next_mem (hr : Ring L h xs) (hy : y ∈ h :: xs) : L.next y ∈ h :: xs := by
  -- every node of the ring is reached by some number of steps from `h`
  obtain ⟨i, hi, rfl⟩ : ∃ i, i < xs.length + 1 ∧ L.next^[i] h = y := by
    obtain rfl | hy := List.mem_cons.mp hy
    · exact ⟨0, by omega, rfl⟩
    · obtain ⟨i, hi, rfl⟩ := List.getElem_of_mem hy
      exact ⟨i + 1, by omega, hr.next_iterate i hi⟩
  rw [← Function.iterate_succ_apply' L.next i h]
  by_cases hlt : i < xs.length
  · rw [hr.next_iterate i hlt]
    simp
  · obtain rfl : i = xs.length := by omega
    rw [hr.next_iterate_length]
    simp

/-- A traversal never leaves the ring. -/
theorem Ring.next_iterate_mem (hr : Ring L h xs) (k : ℕ) : L.next^[k] h ∈ h :: xs := by
  induction k with
  | zero => simp
  | succ k ih =>
    rw [Function.iterate_succ_apply']
    exact hr.next_mem ih

/-- Node `x` is met when `next` is followed from `h`, in a ring or not. -/
def Links.Reaches (L : Links α) (h x : α) : Prop :=
  ∃ k, L.next^[k] h = x

theorem Links.Reaches.refl (L : Links α) (h : α) : L.Reaches h h := ⟨0, rfl⟩

theorem Links.Reaches.next (hx : L.Reaches h x) : L.Reaches h (L.next x) := by
  obtain ⟨k, rfl⟩ := hx
  exact ⟨k + 1, Function.iterate_succ_apply' L.next k h⟩

/-- A set that contains `h` and is closed under `next` contains all that is met. -/
theorem Links.Reaches.induct {S : α → Prop} (hx : L.Reaches h x) (hh : S h)
    (hnext : ∀ y, S y → S (L.next y)) : S x := by
  obtain ⟨k, rfl⟩ := hx
  induction k with
  | zero => exact hh
  | succ k ih =>
    rw [Function.iterate_succ_apply']
    exact hnext _ ih

theorem Links.not_reaches_isolated (hx : x ≠ h) : ¬(Links.isolated : Links α).Reaches h x := by
  intro hr
  exact hx (hr.induct (S := (· = h)) rfl fun y hy => hy)

theorem Ring.reaches_iff (hr : Ring L h xs) : L.Reaches h x ↔ x ∈ h :: xs := by
  constructor
  · rintro ⟨k, rfl⟩
    exact hr.next_iterate_mem k
  · intro hx
    obtain rfl | hx := List.mem_cons.mp hx
    · exact .refl L x
    · obtain ⟨i, hi, rfl⟩ := List.getElem_of_mem hx
      exact ⟨i + 1, hr.next_iterate i hi⟩

section Decidable
variable [DecidableEq α]

/-- Unlinking makes nothing reachable, whatever the links are. -/
theorem Links.Reaches.of_popFront (hx : (L.popFront h).Reaches h x) : L.Reaches h x := by
  apply hx.induct (.refl L h)
  intro y hy
  by_cases hyh : y = h
  · subst hyh
    simpa [Links.popFront] using hy.next.next
  · simpa [Links.popFront, hyh] using hy.next

/-- Linking `y` makes nothing else reachable, whatever the links are. -/
theorem Links.Reaches.of_pushFront (hx : (L.pushFront h y).Reaches h x) :
    x = y ∨ L.Reaches h x := by
  refine hx.induct (S := fun x => x = y ∨ L.Reaches h x) (Or.inr (.refl L h)) ?_
  intro z hz
  by_cases hzh : z = h
  · subst hzh
    exact Or.inl (by simp [Links.pushFront])
  · by_cases hzy : z = y
    · subst hzy
      exact Or.inr (by simpa [Links.pushFront, hzh] using (Links.Reaches.refl L h).next)
    · obtain rfl | hz := hz
      · exact absurd rfl hzy
      · exact Or.inr (by simpa [Links.pushFront, hzh, hzy] using hz.next)

end Decidable

/-- Disjoint rings in one heap, one for every index. -/
structure Forest {ι : Type*} (L : Links α) (head : ι → α) (lists : ι → List α) : Prop where
  ring : ∀ i, Ring L (head i) (lists i)
  disjoint : ∀ i j y, y ∈ head i :: lists i → y ∈ head j :: lists j → i = j

namespace Forest

variable {ι : Type*} {head : ι → α} {lists : ι → List α}

theorem isolated (hinj : Function.Injective head) :
    Forest (Links.isolated : Links α) head (fun _ => []) := by
  refine ⟨fun _ => ring_isolated, ?_⟩
  intro i j y hi hj
  simp only [List.mem_singleton] at hi hj
  exact hinj (hi.symm.trans hj)

variable [DecidableEq α] [DecidableEq ι]

/-- Appending a node that no ring links extends one ring and leaves the others. -/
theorem pushBack (hf : Forest L head lists) (i : ι) (hx : ∀ j, x ∉ head j :: lists j) :
    Forest (L.pushBack (head i) x) head (Function.update lists i (lists i ++ [x])) := by
  refine ⟨?_, ?_⟩
  · intro j
    by_cases hij : j = i
    · subst hij
      rw [Function.update_self]
      exact (hf.ring j).pushBack (hx j)
    · rw [Function.update_of_ne hij]
      -- the other rings share no node with this one
      have hframe : ∀ y ∈ head j :: lists j,
          (L.pushBack (head i) x).next y = L.next y ∧
            (L.pushBack (head i) x).prev y = L.prev y := by
        intro y hy
        have hout : ∀ z ∈ head i :: lists i, y ≠ z := by
          rintro z hz rfl
          exact hij (hf.disjoint j i y hy hz)
        refine Links.pushBack_of_ne (hout _ (by simp)) ?_ (hout _ (hf.ring i).prev_head_mem)
        rintro rfl
        exact hx j hy
      exact (hf.ring j).congr (fun y hy => (hframe y hy).1) fun y hy => (hframe y hy).2
  · have hmem : ∀ j y, y ∈ head j :: Function.update lists i (lists i ++ [x]) j →
        y ∈ head j :: lists j ∨ (y = x ∧ j = i) := by
      intro j y hy
      by_cases hij : j = i
      · subst hij
        rw [Function.update_self] at hy
        simp only [List.mem_cons, List.mem_append, List.not_mem_nil, or_false] at hy ⊢
        tauto
      · rw [Function.update_of_ne hij] at hy
        exact Or.inl hy
    intro j k y hj hk
    rcases hmem j y hj with hj | ⟨rfl, rfl⟩ <;> rcases hmem k y hk with hk | ⟨hyx, hki⟩
    · exact hf.disjoint j k y hj hk
    · exact absurd (hyx ▸ hj) (hx j)
    · exact absurd hk (hx k)
    · exact hki.symm

/-- Unlinking the front of one ring leaves the others. -/
theorem popFront (hf : Forest L head lists) (i : ι) (hi : lists i = x :: xs) :
    Forest (L.popFront (head i)) head (Function.update lists i xs) := by
  have hring := hf.ring i
  have hsub : ∀ j y, y ∈ head j :: Function.update lists i xs j → y ∈ head j :: lists j := by
    intro j y hy
    by_cases hij : j = i
    · subst hij
      rw [Function.update_self] at hy
      rw [hi]
      simp only [List.mem_cons] at hy ⊢
      tauto
    · rwa [Function.update_of_ne hij] at hy
  refine ⟨?_, fun j k y hj hk => hf.disjoint j k y (hsub j y hj) (hsub k y hk)⟩
  intro j
  by_cases hij : j = i
  · subst hij
    rw [Function.update_self]
    rw [hi] at hring
    exact hring.popFront
  · rw [Function.update_of_ne hij]
    have hframe : ∀ y ∈ head j :: lists j,
        (L.popFront (head i)).next y = L.next y ∧ (L.popFront (head i)).prev y = L.prev y := by
      intro y hy
      have hout : ∀ z ∈ head i :: lists i, y ≠ z := by
        rintro z hz rfl
        exact hij (hf.disjoint j i y hy hz)
      exact Links.popFront_of_ne (hout _ (by simp))
        (hout _ (hring.next_mem (hring.next_mem (by simp))))
    exact (hf.ring j).congr (fun y hy => (hframe y hy).1) fun y hy => (hframe y hy).2

end Forest

end CircularList
