import Mathlib.Data.Int.Notation
import Mathlib.Data.List.Basic

/-!
# The Content-Length header

`ngx_http_header_modify_content_length`, which gives a sub-request the length of its
new body. The headers are an `ngx_list_t`: a chain of parts, each an array.
-/

namespace NgxRpc

/-- `ngx_table_elt_t`. -/
structure TableElt where
  hash : ℕ
  key : List UInt8
  value : List UInt8
deriving DecidableEq

/-- The fields of `r->headers_in` that the function uses. `contentLength` is the
position of the header it points to, or `none` for `NULL`. -/
structure HeadersIn where
  headers : List (List TableElt)
  contentLength : Option (ℕ × ℕ)
  contentLengthN : ℤ
deriving DecidableEq

/-- The case folding of `ngx_strncasecmp`. -/
def asciiLower (c : UInt8) : UInt8 := if 65 ≤ c && c ≤ 90 then c ||| 0x20 else c

/-- Whether `ngx_strncasecmp(s1, s2, n)` returns `0`, for the first `n` bytes `s1` and
a string `s2` that ends with a `NUL`. -/
def strncasecmpZero : List UInt8 → List UInt8 → Bool
  | [], _ => true
  | c₁ :: s₁, s₂ =>
    if asciiLower c₁ = asciiLower (s₂.headD 0) then
      if asciiLower c₁ = 0 then true else strncasecmpZero s₁ s₂.tail
    else false

/-- The bytes of an ASCII string. -/
def asciiBytes (s : String) : List UInt8 := s.toList.map fun c => c.toNat.toUInt8

/-- The test of the loop on one header. -/
def TableElt.isContentLength (h : TableElt) : Bool :=
  h.hash != 0 && strncasecmpZero h.key (asciiBytes "Content-Length:")

/-- The position of the header at which the loop stops, in the part with number `i`
and those after it. -/
def findContentLength (i : ℕ) : List (List TableElt) → Option (ℕ × ℕ)
  | [] => none
  | part :: parts =>
    match part.findIdx? TableElt.isContentLength with
    | some j => some (i, j)
    | none => findContentLength (i + 1) parts

/-- The 32 bytes of the new value: what `snprintf` writes with format `%ld`, its `NUL`,
and the rest of the block as it was allocated. -/
def contentLengthValue (block : List UInt8) (value : ℤ) : List UInt8 :=
  let text := asciiBytes (toString value) ++ [0]
  text ++ (block.drop text.length).take (32 - text.length)

/-- Give the header at a position a new value. -/
def setValue (headers : List (List TableElt)) (pos : ℕ × ℕ) (value : List UInt8) :
    List (List TableElt) :=
  headers.modify pos.1 fun part => part.modify pos.2 fun h => { h with value := value }

/-- `ngx_http_header_modify_content_length`, with the block that `ngx_palloc` returns.
The result tells whether it returned `NGX_OK`; it is `none` when
`headers_in.content_length` is dereferenced as `NULL`. -/
def headerModifyContentLength (block : List UInt8) (h : HeadersIn) (value : ℤ) :
    Option (HeadersIn × Bool) :=
  let h := { h with contentLengthN := value }
  match findContentLength 0 h.headers with
  | none => some (h, false)
  | some pos =>
    let text := contentLengthValue block value
    h.contentLength.map fun pos' =>
      ({ h with headers := setValue (setValue h.headers pos text) pos' text }, true)

/-- The number is set whatever the headers are. -/
theorem headerModifyContentLength_contentLengthN {block : List UInt8} {h h' : HeadersIn}
    {value : ℤ} {ok : Bool} (hm : headerModifyContentLength block h value = some (h', ok)) :
    h'.contentLengthN = value := by
  simp only [headerModifyContentLength] at hm
  split at hm
  · obtain ⟨rfl, -⟩ := Prod.mk.inj (Option.some.inj hm)
    rfl
  · obtain ⟨pos', -, he⟩ := Option.map_eq_some_iff.mp hm
    obtain ⟨rfl, -⟩ := Prod.mk.inj he
    rfl

end NgxRpc
