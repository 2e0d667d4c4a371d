import NgxRpc.MemoryRuns
import Mathlib.Data.List.TakeWhile

/-!
# Filling a chain of a task again

What `ngx_http_rpc_task_set_bufs` leaves in the destination, whatever the destination and
the source hold. The loop that copies allocates the next link before it looks at the next
source link, so at a source link without a buffer it leaves an unwritten link behind. The
loop that clears the old chain frees what the `pos` of each buffer points to, which is a
block of somebody else's when the buffer was read up to the base of that block.

## Main definitions

- `Refilled` — what the call is for

## Main results

- `refilled_iff` — the calls that do it
-/

namespace NgxRpc
open SlabPool

/-- The links of a source chain before its end. -/
def sourceLinks (src : List Link) : List Link := src.takeWhile fun l => l.buf.isSome

/-- Link `l'` has a buffer of its own with the bytes of the buffer of link `l`. -/
def Link.SameBytes (l l' : Link) : Prop :=
  ∃ b c, l.buf = some b ∧ l'.buf = some c ∧ c.content = b.content ∧ c.pos = c.start ∧
    c.last = c.end_ ∧ c.start ≠ 0

/-- The chain `dest'` in pool `p'` is a copy of the source in new blocks, or in blocks of the old
chain `dest`. Of the blocks of pool `p` only those of the old chain may be gone, and nothing was
done to those of the source. -/
structure Refilled (src dest : List Link) (p : Pool) (dest' : List Link) (p' : Pool) : Prop where
  empty : sourceLinks src = [] → ∃ a, dest' = [⟨a, none⟩]
  rooted : ∀ a, Rooted a dest → Rooted a dest'
  copies : sourceLinks src ≠ [] → List.Forall₂ Link.SameBytes (sourceLinks src) dest'
  distinct : (chainBlocks dest').Nodup
  fresh : ∀ a ∈ chainBlocks dest', a ∈ p'.live ∧ (a ∈ p.live → a ∈ chainBlocks dest)
  frame : ∀ a ∈ p.live, a ∉ chainBlocks dest → a ∈ p'.live
  source : ∀ l ∈ src, ∀ a ∈ l.addr :: linkBlocks l, a ∈ p.live → a ∉ chainBlocks dest →
    ¬Rooted a dest → p.Untouched a p'

/-- Every link of the old chain behind its head has a buffer to free. -/
def Clearable (dest : List Link) : Prop := ∀ l ∈ dest.tail, l.buf.isSome

instance : DecidablePred Clearable := fun dest =>
  inferInstanceAs (Decidable (∀ l ∈ dest.tail, l.buf.isSome))

/-- No buffer of the chain was read up to the base of a block of somebody else's. -/
def FreesOwn (dest : List Link) (p : Pool) : Prop :=
  ∀ l ∈ dest, ∀ b ∈ l.buf, b.pos ∈ p.live → b.pos ∈ chainBlocks dest

instance (dest : List Link) (p : Pool) : Decidable (FreesOwn dest p) :=
  inferInstanceAs (Decidable (∀ l ∈ dest, ∀ b ∈ l.buf, b.pos ∈ p.live → b.pos ∈ chainBlocks dest))

section Spec

variable {S : Slab} {stale : StaleLink} {E : Stop → Pool → Prop} {p : Pool}

/-! ## Clearing -/

/-- The addresses that are freed when a link is cleared, but for the link itself. -/
def Link.cleared (l : Link) : List ℤ := l.buf.elim [] fun b => [b.pos, b.addr]

/-- The addresses that are freed when the chain is cleared. -/
def cleared (chain : List Link) : List ℤ :=
  chain.flatMap Link.cleared ++ chain.tail.map Link.addr

/-- The addresses `xs` were freed since pool `p`, and no block was touched but those of `ts`. -/
structure Freed (p : Pool) (ts xs : List ℤ) (p' : Pool) : Prop where
  live : ∀ a, a ∈ p'.live ↔ a ∈ p.live ∧ a ∉ xs
  untouched : ∀ a ∉ ts, p.Untouched a p'

namespace Freed

variable {ts xs ys : List ℤ} {p' : Pool} {a : ℤ}

theorem refl (p : Pool) (ts : List ℤ) : Freed p ts [] p :=
  ⟨by simp, fun a _ => Pool.Untouched.refl p a⟩

theorem free (h : Freed p ts xs p') (ha : a ∈ ts) : Freed p ts (a :: xs) (p'.freed a) := by
  refine ⟨fun b => ?_, fun b hb => (h.untouched b hb).free fun heq => hb (heq ▸ ha)⟩
  rw [Pool.live_freed, Finset.mem_erase, h.live, List.mem_cons, not_or]
  tauto

theorem access (h : Freed p ts xs p') (ha : a ∈ ts) : Freed p ts xs (p'.accessed a) :=
  ⟨h.live, fun b hb => (h.untouched b hb).access fun heq => hb (heq ▸ ha)⟩

theorem congr (h : Freed p ts xs p') (hxs : ∀ b, b ∈ xs ↔ b ∈ ys) : Freed p ts ys p' :=
  ⟨fun b => by rw [h.live, hxs], h.untouched⟩

end Freed

theorem Link.cleared_some {l : Link} {b : NgxBuf} (hb : l.buf = some b) :
    l.cleared = [b.pos, b.addr] := by
  rw [cleared, hb, Option.elim_some]

theorem wp_clearHead {head : Link} {p₀ : Pool} {ts xs : List ℤ} (h : Freed p₀ ts xs p)
    (hhead : head.addr ∈ ts) (hts : ∀ a ∈ head.cleared, a ∈ ts) :
    wp E (clearHead head) (fun _ p' => Freed p₀ ts (head.cleared ++ xs) p') p := by
  simp only [clearHead, wp_bind, wp_access]
  cases hb : head.buf with
  | none =>
    have hnil : head.cleared = [] := by rw [Link.cleared, hb, Option.elim_none]
    rw [wp_pure, hnil]
    exact h.access hhead
  | some b =>
    rw [Link.cleared_some hb] at hts ⊢
    have haddr := hts b.addr (by simp)
    simp only [wp_bind, wp_access, wp_free]
    have hpos := ((h.access hhead).access haddr).free (hts b.pos (by simp))
    refine (((hpos.access hhead).free haddr).access hhead).congr fun a => ?_
    simp only [List.cons_append, List.nil_append, List.mem_cons]
    tauto

theorem wp_clearRest {ls : List Link} {p₀ : Pool} {ts xs : List ℤ} (h : Freed p₀ ts xs p)
    (hls : ∀ l ∈ ls, l.buf.isSome ∧ l.addr ∈ ts ∧ ∀ a ∈ l.cleared, a ∈ ts) :
    wp E (clearRest ls) (fun _ p' =>
      Freed p₀ ts (ls.flatMap Link.cleared ++ ls.map Link.addr ++ xs) p') p := by
  induction ls generalizing p xs with
  | nil => exact h
  | cons l ls ih =>
    obtain ⟨hsome, hlink, hts⟩ := hls l List.mem_cons_self
    obtain ⟨b, hb⟩ := Option.isSome_iff_exists.mp hsome
    have hcleared := Link.cleared_some hb
    rw [hcleared] at hts
    have haddr := hts b.addr (by simp)
    simp only [clearRest, hb, wp_bind, wp_access, wp_deref_some, wp_free]
    have hpos := ((h.access hlink).access haddr).free (hts b.pos (by simp))
    have hbuf := ((hpos.access hlink).free haddr).access hlink
    refine wp_mono (fun _ p' hp' => hp'.congr fun a => ?_)
      (ih ((hbuf.free hlink).access hlink) fun k hk => hls k (List.mem_cons_of_mem l hk))
    simp only [hcleared, List.flatMap_cons, List.map_cons, List.mem_append, List.mem_cons,
      List.not_mem_nil, or_false]
    tauto

/-- The loop stops at a link without a buffer. -/
theorem wp_clearRest_none {ls : List Link} (hls : ¬∀ l ∈ ls, l.buf.isSome) :
    wp (fun _ _ => True) (clearRest ls) (fun _ _ => False) p := by
  induction ls generalizing p with
  | nil => exact absurd (by simp) hls
  | cons l ls ih =>
    simp only [clearRest, wp_bind, wp_access]
    cases hb : l.buf with
    | none => trivial
    | some b =>
      simp only [wp_deref_some, wp_bind, wp_access, wp_free]
      apply ih
      intro hall
      apply hls
      intro k hk
      obtain rfl | hk := List.mem_cons.mp hk
      · rw [hb, Option.isSome_some]
      · exact hall k hk

/-! ## Copying -/

theorem Link.FullCopyOf.sameBytes {l l' : Link} (h : l.FullCopyOf S l') (hroom : S.Unlimited)
    (hl : ∀ b ∈ l.buf, b.InMemory ∧ b.last - b.pos < 2 ^ 64) : l.SameBytes l' := by
  obtain ⟨b, c, hb, hc, hcopy, hend, hdata⟩ := h
  obtain ⟨hmem, hsize⟩ := hl b hb
  exact ⟨b, c, hb, hc, hcopy.content_eq hmem hsize, hcopy.pos, hend, hdata hroom⟩

/-- At a source link without a buffer the loop leaves a link too many. -/
theorem wp_copyBufs_misended {src : List Link} {ptr : RawLink} (hsrc : ¬∀ l ∈ src, l.buf.isSome)
    (hroom : S.Unlimited) (hptr : ptr.isSome) :
    wp (fun _ _ => True) (copyBufs S stale ptr src)
      (fun chain _ => (sourceLinks src).length < chain.length) p := by
  induction src generalizing ptr p with
  | nil => exact absurd (by simp) hsrc
  | cons l ls ih =>
    obtain ⟨⟨a, buf, next⟩, rfl⟩ := Option.isSome_iff_exists.mp hptr
    cases hb : l.buf with
    | none =>
      simp only [copyBufs, hb, wp_pure, RawLink.chain, sourceLinks, List.takeWhile_cons,
        Option.isSome_none, List.length_cons]
      exact Nat.succ_pos _
    | some b =>
      have hrest : ¬∀ k ∈ ls, k.buf.isSome := by
        intro hall
        apply hsrc
        intro k hk
        obtain rfl | hk := List.mem_cons.mp hk
        · rw [hb, Option.isSome_some]
        · exact hall k hk
      have hne : ls ≠ [] := by
        rintro rfl
        exact hrest (by simp)
      simp only [copyBufs, hb, wp_bind, wp_deref_some, if_neg hne]
      have htracks : Tracks (fun _ _ => True) [a] :=
        ⟨fun _ _ => trivial, fun _ _ => trivial, fun _ _ => trivial, fun _ _ => trivial⟩
      have hmem : a ∈ [a] ++ [] := List.mem_cons_self
      refine tracks_copyBuf htracks (Or.inl hroom) hmem trivial b fun c p' _ _ _ _ => ?_
      simp only [wp_bind]
      refine wp_alloc (fun hnone => absurd hnone (hroom _ _)) fun next _ _ _ => ?_
      simp only [wp_bind, wp_access, Option.map_some]
      refine wp_mono (fun chain _ hlen => ?_) (ih hrest rfl)
      simp only [wp_pure, sourceLinks, List.takeWhile_cons, hb, Option.isSome_some, if_true,
        List.length_cons]
      exact Nat.succ_lt_succ hlen

/-! ## The whole call -/

theorem wp_taskSetBufs_head {head : Link} {rest src : List Link} {Q : List Link → Pool → Prop}
    (hrest : ∀ p', Freed p (head.addr :: cleared (head :: rest)) head.cleared p' →
      wp E (clearRest rest) (fun _ p₂ => wp E (copyBufs S stale (some (head.addr, none, [])) src) Q
        (p₂.accessed head.addr)) p') :
    wp E (taskSetBufs S stale (head :: rest) src) Q p := by
  have hcleared : ∀ a ∈ head.cleared, a ∈ head.addr :: cleared (head :: rest) := fun a ha =>
    List.mem_cons_of_mem _ (List.mem_append_left _ (List.mem_append_left _ ha))
  simp only [taskSetBufs, wp_bind]
  refine wp_mono (fun _ p₁ h₁ => ?_)
    (wp_clearHead (Freed.refl p _) List.mem_cons_self hcleared)
  rw [List.append_nil] at h₁
  simp only [wp_bind]
  exact hrest p₁ h₁

/-- The call clears the whole chain before it copies. -/
theorem wp_taskSetBufs_clear {head : Link} {rest src : List Link} (hrest : Clearable (head :: rest))
    {Q : List Link → Pool → Prop} (hcopy : ∀ p', Freed p (head.addr :: cleared (head :: rest))
      (cleared (head :: rest)) p' → wp E (copyBufs S stale (some (head.addr, none, [])) src) Q p') :
    wp E (taskSetBufs S stale (head :: rest) src) Q p := by
  have hmem : ∀ l ∈ rest, ∀ a ∈ l.addr :: l.cleared, a ∈ head.addr :: cleared (head :: rest) := by
    intro l hl a ha
    simp only [cleared, List.flatMap_cons, List.tail_cons, List.mem_cons, List.mem_append,
      List.mem_flatMap, List.mem_map]
    obtain rfl | ha := List.mem_cons.mp ha
    · exact Or.inr (Or.inr ⟨l, hl, rfl⟩)
    · exact Or.inr (Or.inl (Or.inr ⟨l, hl, ha⟩))
  refine wp_taskSetBufs_head fun p₁ h₁ => ?_
  refine wp_mono (fun _ p₂ h₂ => hcopy _ ((h₂.congr fun a => ?_).access List.mem_cons_self))
    (wp_clearRest h₁ fun l hl => ⟨hrest l hl, hmem l hl _ List.mem_cons_self,
      fun a ha => hmem l hl a (List.mem_cons_of_mem _ ha)⟩)
  simp only [cleared, List.flatMap_cons, List.tail_cons, List.mem_append]
  tauto

theorem sourceLinks_eq_self {src : List Link} (h : ∀ l ∈ src, l.buf.isSome) :
    sourceLinks src = src := by
  rw [sourceLinks, List.takeWhile_eq_self_iff]
  exact h

theorem sameBytes_copies {src chain : List Link} (h : List.Forall₂ (Link.FullCopyOf S) src chain)
    (hroom : S.Unlimited)
    (hsrc : ∀ l ∈ src, ∀ b ∈ l.buf, b.InMemory ∧ b.last - b.pos < 2 ^ 64) :
    List.Forall₂ Link.SameBytes src chain := by
  induction h with
  | nil => exact .nil
  | cons hcopy _ ih =>
    apply List.Forall₂.cons
    · exact hcopy.sameBytes hroom (hsrc _ List.mem_cons_self)
    · exact ih fun l hl => hsrc l (List.mem_cons_of_mem _ hl)

/-- The chain `dest'` is a copy of the source, in the blocks that were allocated after the old
chain was cleared. -/
structure Recopied (src : List Link) (head : Link) (rest : List Link) (p : Pool)
    (dest' : List Link) (p' : Pool) : Prop where
  empty : sourceLinks src = [] → ∃ a, dest' = [⟨a, none⟩]
  rooted : Rooted head.addr dest'
  copies : sourceLinks src ≠ [] → List.Forall₂ Link.SameBytes (sourceLinks src) dest'
  steps : ∃ p₁, Freed p (head.addr :: cleared (head :: rest)) (cleared (head :: rest)) p₁ ∧
    p₁.Grew (chainBlocks dest') p' ∧ ∀ a ∉ [head.addr] ++ chainBlocks dest', p₁.Untouched a p'

theorem wp_taskSetBufs_recopied (hroom : S.Unlimited) {head : Link} {rest src : List Link}
    (hsrc : ∀ l ∈ src, ∀ b ∈ l.buf, b.InMemory ∧ b.last - b.pos < 2 ^ 64)
    (hrest : Clearable (head :: rest)) (hended : MemoryOp.Ended src) :
    wp E (taskSetBufs S stale (head :: rest) src)
      (fun dest' p' => Recopied src head rest p dest' p') p := by
  refine wp_taskSetBufs_clear hrest fun p₁ hfreed => ?_
  have hnone : sourceLinks src = [] → Recopied src head rest p [⟨head.addr, none⟩] p₁ := fun hnil =>
    ⟨fun _ => ⟨head.addr, rfl⟩, rfl, fun hne => absurd hnil hne, p₁, hfreed, Pool.Grew.refl p₁,
      fun a _ => Pool.Untouched.refl p₁ a⟩
  cases src with
  | nil => exact hnone rfl
  | cons k ks =>
    cases hk : k.buf with
    | none =>
      have hnil : sourceLinks (k :: ks) = [] := by simp [sourceLinks, hk]
      simp only [copyBufs, hk, wp_pure, RawLink.chain]
      exact hnone hnil
    | some b =>
      have hall : ∀ l ∈ k :: ks, l.buf.isSome := hended (by simp [hk])
      have hmem : head.addr ∈ [head.addr] ++ [] := List.mem_cons_self
      have hstart : p₁.Grew [] p₁ ∧ ∀ a ∉ [head.addr] ++ [], p₁.Untouched a p₁ :=
        ⟨Pool.Grew.refl p₁, fun a _ => Pool.Untouched.refl p₁ a⟩
      refine tracks_copyBufs ((Pool.Grew.tracks p₁ [head.addr]).and
        (Pool.Untouched.tracks p₁ [head.addr])) (Or.inl hroom) (by simp) hall hmem hstart _
          fun chain p' hroot hcopy hsteps => ?_
      rw [List.nil_append] at hsteps
      refine ⟨fun hnil => ?_, hroot, fun _ => ?_, p₁, hfreed, hsteps⟩
      · rw [sourceLinks_eq_self hall] at hnil
        cases hnil
      · rw [sourceLinks_eq_self hall]
        exact sameBytes_copies hcopy hroom hsrc

/-- Where the old chain frees its own blocks only, all others are left alone. -/
theorem Recopied.refilled {src dest' : List Link} {head : Link} {rest : List Link} {p' : Pool}
    (h : Recopied src head rest p dest' p') (hown : FreesOwn (head :: rest) p) :
    Refilled src (head :: rest) p dest' p' := by
  obtain ⟨p₁, hfreed, hgrew, huntouched⟩ := h.steps
  have hothers : ∀ a ∈ p.live, a ∉ chainBlocks (head :: rest) → a ∉ cleared (head :: rest) := by
    intro a hlive hnot hcleared
    apply hnot
    obtain hmem | hmem := List.mem_append.mp hcleared
    · obtain ⟨l, hl, hal⟩ := List.mem_flatMap.mp hmem
      cases hb : l.buf with
      | none => simp [Link.cleared, hb] at hal
      | some b =>
        rw [Link.cleared_some hb] at hal
        obtain rfl | hal := List.mem_cons.mp hal
        · exact hown l hl b hb hlive
        · obtain rfl := List.mem_singleton.mp hal
          exact mem_chainBlocks hl (by simp [linkBlocks_some hb])
    · exact List.mem_append_left _ hmem
  have hkept : ∀ a ∈ p.live, a ∉ chainBlocks (head :: rest) → a ∈ p₁.live :=
    fun a hlive hnot => (hfreed.live a).mpr ⟨hlive, hothers a hlive hnot⟩
  refine ⟨h.empty, ?_, h.copies, hgrew.nodup, fun a ha => ⟨(hgrew.live a).mpr (Or.inl ha), ?_⟩,
    fun a ha hnot => (hgrew.live a).mpr (Or.inr (hkept a ha hnot)), ?_⟩
  · intro a ha
    obtain rfl : head.addr = a := Option.some.inj ha
    exact h.rooted
  · intro hlive
    by_contra hnot
    exact hgrew.fresh a ha (hkept a hlive hnot)
  · intro l _ a _ hlive hnot hroot
    have hne : a ≠ head.addr := fun heq => hroot (congrArg some heq.symm)
    have hnew : a ∉ chainBlocks dest' := fun hmem => hgrew.fresh a hmem (hkept a hlive hnot)
    refine (hfreed.untouched a ?_).trans (huntouched a ?_)
    · rw [List.mem_cons, not_or]
      exact ⟨hne, hothers a hlive hnot⟩
    · rw [List.singleton_append, List.mem_cons, not_or]
      exact ⟨hne, hnew⟩

/-- A block of somebody else's is freed: then it is gone, or the copy is in it. -/
theorem Recopied.freesOwn {src dest' : List Link} {head : Link} {rest : List Link} {p' : Pool}
    (h : Recopied src head rest p dest' p') (hrefilled : Refilled src (head :: rest) p dest' p') :
    FreesOwn (head :: rest) p := by
  intro l hl b hb hlive
  by_contra hnot
  obtain ⟨p₁, hfreed, hgrew, -⟩ := h.steps
  have hcleared : b.pos ∈ cleared (head :: rest) := by
    refine List.mem_append_left _ (List.mem_flatMap.mpr ⟨l, hl, ?_⟩)
    rw [Link.cleared_some (Option.mem_def.mp hb)]
    exact List.mem_cons_self
  obtain hnew | hold := (hgrew.live b.pos).mp (hrefilled.frame b.pos hlive hnot)
  · exact hnot ((hrefilled.fresh b.pos hnew).2 hlive)
  · exact ((hfreed.live b.pos).mp hold).2 hcleared

/-- A source that ends at a link without a buffer, behind others, is not copied right. -/
theorem not_refilled_misended (hroom : S.Unlimited) {head : Link} {rest src : List Link}
    (hrest : Clearable (head :: rest)) (hnot : ¬MemoryOp.Ended src) :
    ¬∃ dest' p', taskSetBufs S stale (head :: rest) src p = (.ok dest', p') ∧
      Refilled src (head :: rest) p dest' p' := by
  rw [ends_iff]
  intro h
  obtain ⟨hhead, hall⟩ := Classical.not_imp.mp hnot
  have hlong : wp (fun _ _ => True) (taskSetBufs S stale (head :: rest) src)
      (fun dest' _ => (sourceLinks src).length < dest'.length) p :=
    wp_taskSetBufs_clear hrest fun p' _ => wp_copyBufs_misended hall hroom rfl
  obtain ⟨dest', p', hrefilled, hlen⟩ := exists_of_wp h hlong
  have hne : sourceLinks src ≠ [] := by
    cases src with
    | nil => cases hhead
    | cons k ks =>
      have hk : k.buf.isSome := hhead
      simp [sourceLinks, hk]
  have heq := (hrefilled.copies hne).length_eq
  omega

/-- A call that cannot clear the old chain stops. -/
theorem not_refilled_unclearable {head : Link} {rest src : List Link}
    (hnot : ¬Clearable (head :: rest)) :
    ¬∃ dest' p', taskSetBufs S stale (head :: rest) src p = (.ok dest', p') ∧
      Refilled src (head :: rest) p dest' p' := by
  rw [ends_iff]
  intro h
  have hstops : wp (fun _ _ => True) (taskSetBufs S stale (head :: rest) src)
      (fun _ _ => False) p := by
    refine wp_taskSetBufs_head fun p₁ _ => ?_
    exact wp_mono (fun _ _ hfalse => hfalse.elim) (wp_clearRest_none hnot)
  obtain ⟨_, _, -, hfalse⟩ := exists_of_wp h hstops
  exact hfalse

/-- With room in the pool, a call leaves the copy of the source, and all else as it was, exactly
when the old chain can be cleared and frees no block but its own, and the source is ended by a
`NULL` link or has no links before its end. -/
theorem refilled_iff (hroom : S.Unlimited) {head : Link} {rest src : List Link}
    (hsrc : ∀ l ∈ src, ∀ b ∈ l.buf, b.InMemory ∧ b.last - b.pos < 2 ^ 64) :
    (∃ dest' p', taskSetBufs S stale (head :: rest) src p = (.ok dest', p') ∧
      Refilled src (head :: rest) p dest' p') ↔
      Clearable (head :: rest) ∧ FreesOwn (head :: rest) p ∧ MemoryOp.Ended src := by
  constructor
  · intro h
    have hrest : Clearable (head :: rest) := by
      by_contra hnot
      exact not_refilled_unclearable hnot h
    have hended : MemoryOp.Ended src := by
      by_contra hnot
      exact not_refilled_misended hroom hrest hnot h
    refine ⟨hrest, ?_, hended⟩
    obtain ⟨dest', p', hrefilled, hrecopied⟩ := exists_of_wp (ends_iff.mp h)
      (wp_taskSetBufs_recopied (E := fun _ _ => True) hroom hsrc hrest hended)
    exact hrecopied.freesOwn hrefilled
  · rintro ⟨hrest, hown, hended⟩
    exact ends_iff.mpr (wp_mono (fun _ _ h => h.refilled hown)
      (wp_taskSetBufs_recopied hroom hsrc hrest hended))

theorem exists_of_sameBytes {src chain : List Link}
    (h : List.Forall₂ Link.SameBytes src chain) :
    ∀ l ∈ chain, ∃ b, l.buf = some b ∧ b.pos = b.start ∧ b.start ≠ 0 := by
  induction h with
  | nil => simp
  | cons hsame _ ih =>
    obtain ⟨b, c, -, hc, -, hpos, -, hdata⟩ := hsame
    intro l hl
    obtain rfl | hl := List.mem_cons.mp hl
    · exact ⟨c, hc, hpos, hdata⟩
    · exact ih l hl

/-- What a call leaves can be cleared by the next one. -/
theorem Refilled.clearable {src dest dest' : List Link} {p' : Pool}
    (h : Refilled src dest p dest' p') : Clearable dest' := by
  intro l hl
  by_cases hnil : sourceLinks src = []
  · obtain ⟨a, rfl⟩ := h.empty hnil
    cases hl
  · obtain ⟨b, hb, -⟩ := exists_of_sameBytes (h.copies hnil) l (List.mem_of_mem_tail hl)
    rw [hb, Option.isSome_some]

/-- As long as nothing is read from it, it frees its own blocks only. -/
theorem Refilled.freesOwn {src dest dest' : List Link} {p' : Pool}
    (h : Refilled src dest p dest' p') : FreesOwn dest' p' := by
  intro l hl b hb _
  by_cases hnil : sourceLinks src = []
  · obtain ⟨a, rfl⟩ := h.empty hnil
    rw [List.mem_singleton.mp hl] at hb
    cases hb
  · obtain ⟨c, hc, hpos, hdata⟩ := exists_of_sameBytes (h.copies hnil) l hl
    obtain rfl := Option.some.inj (hc.symm.trans hb)
    refine mem_chainBlocks hl ?_
    rw [linkBlocks_some hc, hpos]
    exact List.mem_cons_of_mem _ (c.mem_dataBlock hdata)

end Spec

/-- A source of two buffers. -/
def twoBuffers : List Link := [⟨0, some (bufferOf [1, 2])⟩, ⟨0, some (bufferOf [3])⟩]

theorem inMemory_bufferOf (bytes : List UInt8) : (bufferOf bytes).InMemory := by
  refine ⟨rfl, le_rfl, ?_, ?_⟩
  · exact Int.natCast_nonneg _
  · show (bytes.length : ℤ) ≤ 0 + bytes.length
    omega

theorem twoBuffers_inMemory :
    ∀ l ∈ twoBuffers, ∀ b ∈ l.buf, b.InMemory ∧ b.last - b.pos < 2 ^ 64 := by
  simp only [twoBuffers, List.forall_mem_cons, List.not_mem_nil, false_implies, implies_true,
    and_true, Option.mem_some_iff, forall_eq']
  exact ⟨⟨inMemory_bufferOf _, by decide⟩, inMemory_bufferOf _, by decide⟩

/-- A new task is filled, and what the call leaves is filled again in the pool that it leaves. -/
theorem refilled_iff_twoBuffers : ∃ head rest p₁,
    taskSetBufs (Slab.unlimited 0) (fun _ => (none, [])) [⟨1, none⟩] twoBuffers ⟨{1}, []⟩ =
        (.ok (head :: rest), p₁) ∧
      ∃ dest' p', taskSetBufs (Slab.unlimited 0) (fun _ => (none, [])) (head :: rest) twoBuffers
          p₁ = (.ok dest', p') ∧
        Refilled twoBuffers (head :: rest) p₁ dest' p' := by
  have hroom := Slab.unlimited_unlimited 0
  have hnew : Clearable [⟨1, none⟩] ∧ FreesOwn [⟨1, none⟩] ⟨{1}, []⟩ ∧
      MemoryOp.Ended twoBuffers := by
    decide
  obtain ⟨dest, p₁, hrun, hfirst⟩ := (refilled_iff hroom twoBuffers_inMemory).mpr hnew
  obtain ⟨head, rest, rfl, -⟩ := (hfirst.rooted 1 rfl).exists_cons
  exact ⟨head, rest, p₁, hrun, (refilled_iff hroom twoBuffers_inMemory).mpr
    ⟨hfirst.clearable, hfirst.freesOwn, by decide⟩⟩

/-- One buffer and an empty link: the copy has a second link that was never written. -/
theorem not_refilled_empty_link :
    (∀ l ∈ twoBuffers.take 1 ++ [⟨0, none⟩], ∀ b ∈ l.buf,
      b.InMemory ∧ b.last - b.pos < 2 ^ 64) ∧
      ¬∃ dest' p', taskSetBufs (Slab.unlimited 0) (fun _ => (none, [])) [⟨1, none⟩]
        (twoBuffers.take 1 ++ [⟨0, none⟩]) ⟨∅, []⟩ = (.ok dest', p') ∧
          Refilled (twoBuffers.take 1 ++ [⟨0, none⟩]) [⟨1, none⟩] ⟨∅, []⟩ dest' p' := by
  constructor
  · intro l hl b hb
    obtain hl | hl := List.mem_append.mp hl
    · exact twoBuffers_inMemory l (List.mem_of_mem_take hl) b hb
    · rw [List.mem_singleton.mp hl] at hb
      cases hb
  · exact not_refilled_misended (Slab.unlimited_unlimited 0) (by decide) (by decide)

end NgxRpc
