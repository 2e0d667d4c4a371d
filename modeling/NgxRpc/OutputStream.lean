import NgxRpc.Serialize

/-!
# Output streams and their callers

Both writers implement `google::protobuf::io::ZeroCopyOutputStream`. A caller asks for
regions with `Next` and stores bytes in them; directly after a `Next` it may give the end of
the region back with `BackUp`. A session is a stream together with what its caller did.

## Main definitions

- `OutputStream` — the calls of a stream
- `OutputStream.step` — one call of a caller that keeps to the contract
- `OutputStream.Faithful` — the chain holds what was kept, and `ByteCount` is its length
-/

namespace NgxRpc
open SlabPool

/-- The calls of a `ZeroCopyOutputStream`, the chain behind it, and the copy of bytes to
the front of the region that `Next` returned last. -/
structure OutputStream (W : Type) where
  next : W → SlabM (W × Region)
  backUp : W → ℤ → SlabM W
  byteCount : W → ℤ
  chain : W → List Link
  store : W → ℤ → List UInt8 → SlabM W

/-- A call of the user of a stream. With `next` it fills the region it gets. -/
inductive StreamCall where
  | next (fill : ℕ → UInt8)
  | backUp (count : ℤ)

/-- A stream in use. -/
structure Session (W : Type) where
  writer : W
  pool : Pool
  /-- the size of the region in hand, directly after a `Next` -/
  inHand : Option ℤ
  /-- history: the regions so far, each less what was backed up -/
  kept : List UInt8

/-- The bytes a caller stores in a region of the given size. -/
def filled (size : ℤ) (fill : ℕ → UInt8) : List UInt8 := (List.range size.toNat).map fill

@[simp] theorem length_filled (size : ℤ) (fill : ℕ → UInt8) :
    (filled size fill).length = size.toNat := by
  simp [filled]

namespace OutputStream

variable {W : Type}

/-- `Next`, and the copy of the caller. -/
def fillNext (O : OutputStream W) (w : W) (fill : ℕ → UInt8) : SlabM (W × Region) := do
  let (w, region) ← O.next w
  let w ← O.store w region.data (filled region.size fill)
  pure (w, region)

/-- The session after a call of `Next`. -/
def sessionNext (O : OutputStream W) (s : Session W) (fill : ℕ → UInt8) :
    Except Stop (Session W) :=
  outcome (O.fillNext s.writer fill)
    (fun r pool => ⟨r.1, pool, some r.2.size, s.kept ++ filled r.2.size fill⟩) s.pool

/-- The session after a call of `BackUp`. -/
def sessionBackUp (O : OutputStream W) (s : Session W) (count : ℤ) : Except Stop (Session W) :=
  outcome (O.backUp s.writer count)
    (fun w pool => ⟨w, pool, none, s.kept.take (s.kept.length - count.toNat)⟩) s.pool

/-- The contract allows `BackUp(count)` after a `Next` that returned at least `count` bytes. -/
def MayBackUp (s : Session W) (count : ℤ) : Prop :=
  0 ≤ count ∧ ∃ size ∈ s.inHand, count ≤ size

instance (s : Session W) (count : ℤ) : Decidable (MayBackUp s count) :=
  inferInstanceAs (Decidable (_ ∧ ∃ size ∈ s.inHand, count ≤ size))

/-- One call; a stream that stopped is not called again. -/
def step (O : OutputStream W) :
    Except Stop (Session W) → StreamCall → Option (Except Stop (Session W))
  | .ok s, .next fill => some (O.sessionNext s fill)
  | .ok s, .backUp count => if MayBackUp s count then some (O.sessionBackUp s count) else none
  | .error _, _ => none

/-- A stream that is not in use yet. -/
def start (w : W) (pool : Pool) : Except Stop (Session W) := .ok ⟨w, pool, none, []⟩

/-- The stream did not stop, its chain holds the kept parts of the regions, and `ByteCount`
is their length. -/
def Faithful (O : OutputStream W) : Except Stop (Session W) → Prop
  | .ok s => content (O.chain s.writer) = s.kept ∧ O.byteCount s.writer = s.kept.length
  | .error _ => False

instance (O : OutputStream W) : DecidablePred O.Faithful
  | .ok s => inferInstanceAs (Decidable (content (O.chain s.writer) = s.kept ∧ _))
  | .error _ => inferInstanceAs (Decidable False)

/-- Everything a call can be. -/
theorem step_cases {O : OutputStream W} {s s' : Except Stop (Session W)} {c : StreamCall}
    (h : O.step s c = some s') : ∃ t, s = .ok t ∧
      ((∃ fill, c = .next fill ∧ s' = O.sessionNext t fill) ∨
        ∃ count, c = .backUp count ∧ MayBackUp t count ∧ s' = O.sessionBackUp t count) := by
  cases s with
  | error e => cases h
  | ok t =>
    refine ⟨t, rfl, ?_⟩
    cases c with
    | next fill =>
      cases h
      exact Or.inl ⟨fill, rfl, rfl⟩
    | backUp count =>
      simp only [step] at h
      split at h
      · next hmay =>
        cases h
        exact Or.inr ⟨count, rfl, hmay, rfl⟩
      · cases h

end OutputStream

/-- Bytes stored in all of `[pos, last)` are what the buffer then holds. -/
theorem NgxBuf.content_store {b : NgxBuf} {bytes : List UInt8}
    (hlen : (b.last - b.pos).toNat = bytes.length) (hmem : (b.pos - b.start).toNat ≤ b.mem.length) :
    (b.store b.pos bytes).content = bytes := by
  rw [NgxBuf.store, NgxBuf.content, NgxBuf.at_]
  have hfront : (b.mem.take (b.pos - b.start).toNat).length = (b.pos - b.start).toNat :=
    List.length_take_of_le hmem
  dsimp only
  rw [hlen, List.append_assoc, List.drop_left' hfront, List.take_left' rfl]

/-- Giving the end of a buffer back takes the end off its bytes. -/
theorem NgxBuf.content_backUp (b : NgxBuf) {count : ℤ} (h0 : 0 ≤ count) :
    ({ b with last := b.last - count } : NgxBuf).content =
      b.content.take ((b.last - b.pos).toNat - count.toNat) := by
  unfold NgxBuf.content NgxBuf.at_
  dsimp only
  rw [List.take_take]
  congr 1
  omega

end NgxRpc
