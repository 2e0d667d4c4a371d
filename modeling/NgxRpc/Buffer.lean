import NgxRpc.Foundation.CInt
import Mathlib.Data.List.Basic
import Mathlib.Tactic.Common

/-!
# Buffers and chains

`ngx_buf_t` and `ngx_chain_t`, as far as the readers and writers of this module
use them. Pointers are integers. A buffer carries the memory its `start` points
to, and a chain is the list of its links, so a `NULL` chain is the empty list.
-/

namespace NgxRpc

/-- `ngx_buf_t`, at address `addr`. -/
structure NgxBuf where
  addr : ℤ
  start : ℤ
  pos : ℤ
  last : ℤ
  end_ : ℤ
  inFile : Bool
  lastBuf : Bool
  temporary : Bool
  memory : Bool
  /-- the bytes from `start` on -/
  mem : List UInt8
deriving DecidableEq

namespace NgxBuf

/-- The memory from address `p` on. -/
def at_ (b : NgxBuf) (p : ℤ) : List UInt8 := b.mem.drop (p - b.start).toNat

/-- The bytes in `[pos, last)`. -/
def content (b : NgxBuf) : List UInt8 := (b.at_ b.pos).take (b.last - b.pos).toNat

/-- A buffer whose bytes are in memory. -/
structure InMemory (b : NgxBuf) : Prop where
  inFile : b.inFile = false
  start_le : b.start ≤ b.pos
  pos_le : b.pos ≤ b.last
  last_le : b.last ≤ b.start + b.mem.length

theorem InMemory.length_content {b : NgxBuf} (h : b.InMemory) :
    (b.content.length : ℤ) = b.last - b.pos := by
  obtain ⟨-, hstart, hpos, hlast⟩ := h
  simp only [content, at_, List.length_take, List.length_drop]
  omega

/-- The first bytes of a buffer may be read. -/
theorem InMemory.advance {b : NgxBuf} {k : ℤ} (h : b.InMemory) (h0 : 0 ≤ k)
    (hle : k ≤ b.last - b.pos) : ({ b with pos := b.pos + k } : NgxBuf).InMemory := by
  obtain ⟨hin, hstart, -, hlast⟩ := h
  refine ⟨hin, ?_, ?_, hlast⟩
  · show b.start ≤ b.pos + k
    omega
  · show b.pos + k ≤ b.last
    omega

theorem content_eq_nil {b : NgxBuf} (h : b.pos = b.last) : b.content = [] := by
  simp [content, h]

end NgxBuf

/-- A buffer that holds the given bytes, all unread. -/
def bufferOf (bytes : List UInt8) : NgxBuf :=
  ⟨0, 0, 0, bytes.length, bytes.length, false, false, false, true, bytes⟩

/-- `ngx_chain_t`, at address `addr`, without its `next` field. -/
structure Link where
  addr : ℤ
  buf : Option NgxBuf
deriving DecidableEq

/-- The bytes in `[pos, last)` of a link. -/
def Link.content (l : Link) : List UInt8 := l.buf.elim [] NgxBuf.content

/-- The bytes in `[pos, last)` of all links, in order. -/
def content (chain : List Link) : List UInt8 := chain.flatMap Link.content

@[simp] theorem content_nil : content [] = [] := rfl

@[simp] theorem content_cons (l : Link) (ls : List Link) :
    content (l :: ls) = l.content ++ content ls := rfl

@[simp] theorem content_append (ls ls' : List Link) :
    content (ls ++ ls') = content ls ++ content ls' :=
  List.flatMap_append

/-- Every link has a buffer, and its bytes are in memory. -/
def InMemory (chain : List Link) : Prop := ∀ l ∈ chain, ∃ b, l.buf = some b ∧ b.InMemory

end NgxRpc
