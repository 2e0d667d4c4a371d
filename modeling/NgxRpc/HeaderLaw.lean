import NgxRpc.Header

/-!
# Which header gets the new length

`ngx_http_header_modify_content_length` compares the name of each header with
`Content-Length:`, as many bytes as the header's own name has, so it stops at the first name
that is a prefix of this. The new value always has 32 bytes, of which the text and its `NUL`
are the first. The content length of the request is set before the headers are searched.

## Main definitions

- `ModifyLaw` — what the function is for

## Main results

- `isContentLength_iff` — the names at which the loop stops
- `modifyLaw_iff` — the requests for which it does it
-/

namespace NgxRpc

/-- The header at a position. -/
def eltAt (headers : List (List TableElt)) (pos : ℕ × ℕ) : Option TableElt :=
  headers[pos.1]?.bind fun part => part[pos.2]?

/-- A header that is in use and is named `Content-Length`, up to ASCII case. -/
def TableElt.NamedContentLength (e : TableElt) : Prop :=
  e.hash ≠ 0 ∧ e.key.map asciiLower = asciiBytes "content-length"

instance : DecidablePred TableElt.NamedContentLength := fun e =>
  inferInstanceAs (Decidable (e.hash ≠ 0 ∧ e.key.map asciiLower = asciiBytes "content-length"))

/-- The first header of that name. -/
structure FirstContentLength (headers : List (List TableElt)) (pos : ℕ × ℕ) : Prop where
  named : ∃ e ∈ eltAt headers pos, e.NamedContentLength
  first : ∀ pos', pos'.1 < pos.1 ∨ pos'.1 = pos.1 ∧ pos'.2 < pos.2 →
    ∀ e ∈ eltAt headers pos', ¬e.NamedContentLength

/-- The decimal text of a number. -/
def decimal (value : ℤ) : List UInt8 := asciiBytes (toString value)

/-- The header at a position has the text for its value. -/
def HasValue (headers : List (List TableElt)) (pos : ℕ × ℕ) (value : ℤ) : Prop :=
  ∃ e ∈ eltAt headers pos, e.value = decimal value

/-- `NGX_OK` exactly when there is a header of that name. Then the first one has the text of
the number, the content length points to a header with this text, and all other headers are as
before. On `NGX_ERROR` nothing has changed. -/
structure Modified (h h' : HeadersIn) (value : ℤ) (ok : Bool) : Prop where
  found : ok = true ↔ ∃ part ∈ h.headers, ∃ e ∈ part, e.NamedContentLength
  text : ∀ pos, FirstContentLength h.headers pos → HasValue h'.headers pos value
  agrees : ok = true → ∃ pos ∈ h'.contentLength, HasValue h'.headers pos value
  others : ∀ pos, FirstContentLength h.headers pos →
    ∀ pos', pos' ≠ pos → eltAt h'.headers pos' = eltAt h.headers pos'
  kept : ok = false → h'.headers = h.headers ∧ h'.contentLengthN = h.contentLengthN

/-- The function returns, and leaves the request modified. -/
def ModifyLaw (block : List UInt8) (h : HeadersIn) (value : ℤ) : Prop :=
  ∃ h' ok, headerModifyContentLength block h value = some (h', ok) ∧ Modified h h' value ok

/-! ## The names -/

theorem asciiLower_eq_zero_iff (c : UInt8) : asciiLower c = 0 ↔ c = 0 := by
  have h : ∀ i : Fin 256, asciiLower (.ofFin i) = 0 ↔ UInt8.ofFin i = 0 := by decide +kernel
  exact h c.toFin

/-- A name without a `NUL` matches when it is a prefix, up to case. -/
theorem strncasecmpZero_iff {s t : List UInt8} (hs : 0 ∉ s) :
    strncasecmpZero s t = true ↔ s.map asciiLower <+: t.map asciiLower := by
  induction s generalizing t with
  | nil => simp [strncasecmpZero]
  | cons c s ih =>
    rw [List.mem_cons, not_or] at hs
    obtain ⟨hc, hs⟩ := hs
    have hlower : asciiLower c ≠ 0 := fun h => hc ((asciiLower_eq_zero_iff c).mp h).symm
    cases t with
    | nil =>
      have hzero : asciiLower 0 = 0 := rfl
      simp [strncasecmpZero, hzero, hlower]
    | cons d t =>
      simp only [strncasecmpZero, List.headD_cons, List.tail_cons, hlower, if_false, List.map_cons,
        List.cons_prefix_cons]
      by_cases hcd : asciiLower c = asciiLower d
      · rw [if_pos hcd, ih hs]
        simp [hcd]
      · rw [if_neg hcd]
        simp [hcd]

/-- The loop stops at a header in use whose name is a prefix of `Content-Length:`. -/
theorem isContentLength_iff {e : TableElt} (hkey : 0 ∉ e.key) :
    e.isContentLength = true ↔
      e.hash ≠ 0 ∧ e.key.map asciiLower <+: asciiBytes "content-length:" := by
  have hlower : (asciiBytes "Content-Length:").map asciiLower = asciiBytes "content-length:" := by
    decide +kernel
  simp only [TableElt.isContentLength, Bool.and_eq_true, bne_iff_ne, strncasecmpZero_iff hkey,
    hlower]

theorem TableElt.NamedContentLength.isContentLength {e : TableElt} (h : e.NamedContentLength) :
    e.isContentLength = true := by
  obtain ⟨hhash, hkey⟩ := h
  have hzero : 0 ∉ e.key := by
    intro hmem
    have hmap : asciiLower 0 ∈ e.key.map asciiLower := List.mem_map_of_mem hmem
    rw [hkey] at hmap
    revert hmap
    decide +kernel
  rw [isContentLength_iff hzero, hkey]
  exact ⟨hhash, by decide +kernel⟩

/-! ## The search -/

/-- The loop gets to the end when no header stops it. -/
theorem findContentLength_eq_none_iff {headers : List (List TableElt)} {i : ℕ} :
    findContentLength i headers = none ↔
      ∀ part ∈ headers, ∀ e ∈ part, e.isContentLength = false := by
  induction headers generalizing i with
  | nil => simp [findContentLength]
  | cons part parts ih =>
    simp only [findContentLength, List.forall_mem_cons]
    cases hfind : part.findIdx? TableElt.isContentLength with
    | none =>
      rw [List.findIdx?_eq_none_iff] at hfind
      simp only [ih]
      exact ⟨fun h => ⟨hfind, h⟩, fun h => h.2⟩
    | some j =>
      apply iff_of_false
      · intro h
        cases h
      · rintro ⟨hpart, -⟩
        rw [List.findIdx?_eq_none_iff.mpr hpart] at hfind
        cases hfind

/-! ## The value -/

theorem eltAt_setValue_self {headers : List (List TableElt)} {pos : ℕ × ℕ} {text : List UInt8}
    {e : TableElt} (he : e ∈ eltAt (setValue headers pos text) pos) : e.value = text := by
  simp only [eltAt, setValue, List.getElem?_modify, if_true, Option.mem_def] at he
  obtain ⟨part, hpart, he⟩ := Option.bind_eq_some_iff.mp he
  obtain ⟨part', -, rfl⟩ := Option.map_eq_some_iff.mp hpart
  simp only [List.getElem?_modify, if_true] at he
  obtain ⟨e', -, rfl⟩ := Option.map_eq_some_iff.mp he
  rfl

/-- The text is followed by a `NUL`. -/
theorem contentLengthValue_ne (block : List UInt8) (value : ℤ) :
    contentLengthValue block value ≠ decimal value := by
  intro h
  have hlen := congrArg List.length h
  simp only [contentLengthValue, decimal, List.length_append, List.length_singleton] at hlen
  omega

/-- When the loop stops at a header, the content length does not agree with the number. -/
theorem not_modifyLaw_of_found {block : List UInt8} {h : HeadersIn} {value : ℤ} {pos : ℕ × ℕ}
    (hfound : findContentLength 0 h.headers = some pos) : ¬ModifyLaw block h value := by
  rintro ⟨h', ok, hrun, hlaw⟩
  simp only [headerModifyContentLength, hfound] at hrun
  obtain ⟨pos', hpos', he⟩ := Option.map_eq_some_iff.mp hrun
  obtain ⟨rfl, rfl⟩ := Prod.mk.inj he
  obtain ⟨pos₂, hpos₂, e, heltAt, hvalue⟩ := hlaw.agrees rfl
  obtain rfl : pos' = pos₂ := Option.some.inj (hpos'.symm.trans hpos₂)
  rw [eltAt_setValue_self heltAt] at hvalue
  exact contentLengthValue_ne block value hvalue

/-- The function does what it is for exactly when the request has no header at which it stops,
and the content length is the number already. -/
theorem modifyLaw_iff (block : List UInt8) (h : HeadersIn) (value : ℤ) :
    ModifyLaw block h value ↔
      (∀ part ∈ h.headers, ∀ e ∈ part, e.isContentLength = false) ∧ h.contentLengthN = value := by
  rw [← findContentLength_eq_none_iff (i := 0)]
  cases hfind : findContentLength 0 h.headers with
  | some pos => exact iff_of_false (not_modifyLaw_of_found hfind) (fun hand => by cases hand.1)
  | none =>
    have hrun : headerModifyContentLength block h value =
        some ({ h with contentLengthN := value }, false) := by
      simp only [headerModifyContentLength, hfind]
    have hnone : ∀ part ∈ h.headers, ∀ e ∈ part, ¬e.NamedContentLength := by
      intro part hpart e he hnamed
      have hstop := findContentLength_eq_none_iff.mp hfind part hpart e he
      rw [hnamed.isContentLength] at hstop
      cases hstop
    constructor
    · rintro ⟨h', ok, hrun', hlaw⟩
      rw [hrun] at hrun'
      obtain ⟨rfl, rfl⟩ := Prod.mk.inj (Option.some.inj hrun')
      exact ⟨rfl, (hlaw.kept rfl).2.symm⟩
    · rintro ⟨-, hvalue⟩
      have hno : ∀ pos, ¬FirstContentLength h.headers pos := by
        rintro pos ⟨⟨e, he, hnamed⟩, -⟩
        obtain ⟨part, hpart, he⟩ := Option.bind_eq_some_iff.mp he
        exact hnone part (List.mem_of_getElem? hpart) e (List.mem_of_getElem? he) hnamed
      refine ⟨_, _, hrun, ⟨?_, ?_, ?_, ?_, ?_⟩⟩
      · refine iff_of_false Bool.false_ne_true ?_
        rintro ⟨part, hpart, e, he, hnamed⟩
        exact hnone part hpart e he hnamed
      · intro pos hpos
        exact absurd hpos (hno pos)
      · intro hok
        cases hok
      · intro pos hpos
        exact absurd hpos (hno pos)
      · intro _
        exact ⟨rfl, hvalue.symm⟩

/-- A request with a body of three bytes, and what `Content-Length: 5` comes to. -/
theorem not_modifyLaw_content_length :
    ¬ModifyLaw (List.replicate 32 0)
      ⟨[[⟨1, asciiBytes "Host", asciiBytes "a"⟩, ⟨2, asciiBytes "Content-Length", asciiBytes "3"⟩]],
        some (0, 1), 3⟩ 5 :=
  not_modifyLaw_of_found (show _ = some (0, 1) by decide +kernel)

end NgxRpc
