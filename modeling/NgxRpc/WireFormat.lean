import NgxRpc.CodedReads
import Mathlib.Tactic.IntervalCases

/-!
# The wire format

A message on the wire is a row of fields: a tag, which holds the number of the field and how its
value is written, and the value. A field that the message type does not know is kept as an
`UnknownField` by `WireFormat::SkipField`; a group holds a row of fields itself, up to a depth.
`Wire` says which bytes are a row of fields, apart from how they are read.

## Main definitions

- `skipField`, `skipMessage` — reading one field, and all of them
- `Wire` — the bytes of a row of fields

## Main results

- `skipMessage_sound`, `Wire.skipMessage_eq` — `skipMessage` reads exactly such bytes
-/

namespace NgxRpc
open Varint CodedInputStream

/-! ## Tags -/

inductive WireType where
  | varint
  | fixed64
  | lengthDelimited
  | startGroup
  | endGroup
  | fixed32
deriving DecidableEq

def WireType.code : WireType → UInt32
  | .varint => 0
  | .fixed64 => 1
  | .lengthDelimited => 2
  | .startGroup => 3
  | .endGroup => 4
  | .fixed32 => 5

/-- `WireFormatLite::MakeTag`. -/
def makeTag (number : UInt32) (type : WireType) : UInt32 := number <<< 3 ||| type.code

/-- `WireFormatLite::GetTagFieldNumber`. -/
def getTagFieldNumber (tag : UInt32) : UInt32 := tag >>> 3

/-- `WireFormatLite::GetTagWireType`. Two values of the three bits are no type. -/
def getTagWireType (tag : UInt32) : Option WireType :=
  match (tag &&& 7).toNat with
  | 0 => some .varint
  | 1 => some .fixed64
  | 2 => some .lengthDelimited
  | 3 => some .startGroup
  | 4 => some .endGroup
  | 5 => some .fixed32
  | _ => none

theorem getTagWireType_eq_some_iff {tag : UInt32} {type : WireType} :
    getTagWireType tag = some type ↔ tag &&& 7 = type.code := by
  have hlt : (tag &&& 7).toNat < 8 := by
    rw [UInt32.toNat_and]
    exact Nat.and_lt_two_pow _ (show (7 : UInt32).toNat < 2 ^ 3 by decide)
  have hcode : tag &&& 7 = type.code ↔ (tag &&& 7).toNat = type.code.toNat :=
    UInt32.toNat_inj.symm
  rw [hcode, getTagWireType]
  generalize (tag &&& 7).toNat = n at hlt ⊢
  cases type <;> interval_cases n <;> decide

theorem toNat_shiftLeft_three (number : UInt32) :
    (number <<< 3).toNat = 2 ^ 3 * (number.toNat % 2 ^ 29) := by
  rw [UInt32.toNat_shiftLeft, Nat.shiftLeft_eq]
  simp only [UInt32.reduceToNat, Nat.reduceMod, Nat.reducePow]
  omega

theorem toNat_makeTag (number : UInt32) (type : WireType) :
    (makeTag number type).toNat = 8 * (number.toNat % 2 ^ 29) + type.code.toNat := by
  have hcode : type.code.toNat < 2 ^ 3 := by cases type <;> decide
  rw [makeTag, UInt32.toNat_or, toNat_shiftLeft_three, ← Nat.two_pow_add_eq_or_of_lt hcode]

theorem getTagWireType_makeTag (number : UInt32) (type : WireType) :
    getTagWireType (makeTag number type) = some type := by
  have hcode : type.code.toNat < 8 := by cases type <;> decide
  have hand : (makeTag number type &&& 7).toNat = (makeTag number type).toNat % 8 := by
    rw [UInt32.toNat_and]
    exact Nat.and_two_pow_sub_one_eq_mod _ 3
  rw [getTagWireType_eq_some_iff, ← UInt32.toNat_inj, hand, toNat_makeTag]
  omega

/-- A tag is made from its number and its type. -/
theorem makeTag_getTagFieldNumber {tag : UInt32} {type : WireType}
    (h : getTagWireType tag = some type) : makeTag (getTagFieldNumber tag) type = tag := by
  have hand : (tag &&& 7).toNat = tag.toNat % 8 := by
    rw [UInt32.toNat_and]
    exact Nat.and_two_pow_sub_one_eq_mod _ 3
  have hlt := tag.toNat_lt
  have hcode := congrArg UInt32.toNat (getTagWireType_eq_some_iff.mp h)
  have hnumber : (getTagFieldNumber tag).toNat = tag.toNat / 8 := by
    rw [getTagFieldNumber, UInt32.toNat_shiftRight, Nat.shiftRight_eq_div_pow]
    rfl
  rw [← UInt32.toNat_inj, toNat_makeTag, hnumber, ← hcode, hand]
  omega

theorem makeTag_endGroup_ne_zero (number : UInt32) : makeTag number .endGroup ≠ 0 := by
  intro h
  have hzero := congrArg getTagWireType h
  rw [getTagWireType_makeTag] at hzero
  cases hzero

/-! ## Reading fields -/

/-- `google::protobuf::UnknownField`. -/
inductive UnknownField where
  | varint (number : UInt32) (value : UInt64)
  | fixed32 (number : UInt32) (value : UInt32)
  | fixed64 (number : UInt32) (value : UInt64)
  | lengthDelimited (number : UInt32) (value : List UInt8)
  | group (number : UInt32) (fields : List UnknownField)

/-- `ReadBytes`, and what `SkipField` does for such a field: the length is taken for an `int`. -/
def readBytes (s : CodedInputStream) : Option (List UInt8) × CodedInputStream :=
  match s.readVarint32 with
  | (none, s) => (none, s)
  | (some length, s) => s.readString (CInt.int length.toNat)

/-- The bytes that a stream has not given to its reader. -/
def CodedInputStream.left (s : CodedInputStream) : ℕ := s.buffer.length + s.input.flatten.length

/-- The tag ends a row of fields: it is that of the end of a group, or 0 at the end of the
stream and where there is no number. -/
def IsEnd (tag : UInt32) : Prop := tag = 0 ∨ getTagWireType tag = some .endGroup

instance (tag : UInt32) : Decidable (IsEnd tag) := inferInstanceAs (Decidable (_ ∨ _))

/-- `WireFormat::SkipMessage`, at most `n` rounds. -/
def skipMessage (skipField : UInt32 → CodedInputStream → Option UnknownField × CodedInputStream) :
    ℕ → CodedInputStream → Option (List UnknownField) × CodedInputStream
  | 0, s => (none, s)
  | n + 1, s =>
    if IsEnd s.readTag.1 then (some [], s.readTag.2)
    else
      match skipField s.readTag.1 s.readTag.2 with
      | (none, s) => (none, s)
      | (some field, s) =>
        match skipMessage skipField n s with
        | (none, s) => (none, s)
        | (some fields, s) => (some (field :: fields), s)

/-- `WireFormat::SkipField`, when `levels` more groups may be opened. Every round of
`SkipMessage` takes a byte. -/
def skipField : ℕ → UInt32 → CodedInputStream → Option UnknownField × CodedInputStream
  | levels, tag, s =>
    match getTagWireType tag with
    | some .varint =>
      match s.readVarint64 with
      | (none, s) => (none, s)
      | (some value, s) => (some (.varint (getTagFieldNumber tag) value), s)
    | some .fixed64 =>
      match s.readLittleEndian 8 with
      | (none, s) => (none, s)
      | (some value, s) => (some (.fixed64 (getTagFieldNumber tag) (.ofNat value)), s)
    | some .lengthDelimited =>
      match readBytes s with
      | (none, s) => (none, s)
      | (some value, s) => (some (.lengthDelimited (getTagFieldNumber tag) value), s)
    | some .startGroup =>
      match levels with
      | 0 => (none, s)
      | levels + 1 =>
        match skipMessage (skipField levels) (s.left + 1) s with
        | (none, s) => (none, s)
        | (some group, s) =>
          if s.lastTag = makeTag (getTagFieldNumber tag) .endGroup then
            (some (.group (getTagFieldNumber tag) group), s)
          else (none, s)
    | some .endGroup => (none, s)
    | some .fixed32 =>
      match s.readLittleEndian 4 with
      | (none, s) => (none, s)
      | (some value, s) => (some (.fixed32 (getTagFieldNumber tag) (.ofNat value)), s)
    | none => (none, s)

/-! ## What a row of fields looks like -/

/-- The bytes are the tag. -/
def TagBytes (tag : UInt32) (bytes : List UInt8) : Prop :=
  ∃ n, Whole 10 bytes n ∧ UInt32.ofNat n = tag

/-- The bytes of a value with its length in front. -/
def LengthBytes (value bytes : List UInt8) : Prop :=
  ∃ length n, Whole 10 length n ∧ n % 2 ^ 32 = value.length ∧ value.length < 2 ^ 31 ∧
    bytes = length ++ value

/-- The bytes of the value of a field that is no group, behind its tag. -/
def ValueBytes (tag : UInt32) : UnknownField → List UInt8 → Prop
  | .varint _ value, bytes => getTagWireType tag = some .varint ∧
      ∃ n, Whole 10 bytes n ∧ UInt64.ofNat n = value
  | .fixed32 _ value, bytes => getTagWireType tag = some .fixed32 ∧ bytes.length = 4 ∧
      UInt32.ofNat (Nat.ofDigits 256 (bytes.map UInt8.toNat)) = value
  | .fixed64 _ value, bytes => getTagWireType tag = some .fixed64 ∧ bytes.length = 8 ∧
      UInt64.ofNat (Nat.ofDigits 256 (bytes.map UInt8.toNat)) = value
  | .lengthDelimited _ value, bytes => getTagWireType tag = some .lengthDelimited ∧
      LengthBytes value bytes
  | .group _ _, _ => False

def UnknownField.number : UnknownField → UInt32
  | .varint number _ | .fixed32 number _ | .fixed64 number _ | .lengthDelimited number _
  | .group number _ => number

/-- The bytes are a row of fields, with groups at most so deep. -/
inductive Wire : ℕ → List UnknownField → List UInt8 → Prop where
  | nil (levels : ℕ) : Wire levels [] []
  | value {levels tag t field v fields rest} (htag : TagBytes tag t) (hne : tag ≠ 0)
      (hnumber : field.number = getTagFieldNumber tag) (hvalue : ValueBytes tag field v)
      (hrest : Wire levels fields rest) : Wire levels (field :: fields) (t ++ (v ++ rest))
  | group {levels tag t number group g e fields rest} (htag : TagBytes tag t)
      (htype : getTagWireType tag = some .startGroup) (hnumber : number = getTagFieldNumber tag)
      (hgroup : Wire levels group g) (hend : TagBytes (makeTag number .endGroup) e)
      (hrest : Wire (levels + 1) fields rest) :
      Wire (levels + 1) (.group number group :: fields) (t ++ (g ++ (e ++ rest)))

theorem Wire.append {levels : ℕ} {fields fields' : List UnknownField} {bytes bytes' : List UInt8}
    (h : Wire levels fields bytes) (h' : Wire levels fields' bytes') :
    Wire levels (fields ++ fields') (bytes ++ bytes') := by
  induction h with
  | nil levels => exact h'
  | value htag hne hnumber hvalue _ ih =>
    rw [List.cons_append, List.append_assoc, List.append_assoc]
    exact .value htag hne hnumber hvalue (ih h')
  | group htag htype hnumber hgroup hend _ _ ih =>
    rw [List.cons_append, List.append_assoc, List.append_assoc, List.append_assoc]
    exact .group htag htype hnumber hgroup hend (ih h')

/-- Some of the fields of a row. -/
theorem Wire.filter {levels : ℕ} {fields : List UnknownField} {bytes : List UInt8}
    (h : Wire levels fields bytes) (p : UnknownField → Bool) :
    ∃ bytes', Wire levels (fields.filter p) bytes' := by
  induction h with
  | nil levels => exact ⟨[], .nil levels⟩
  | @value levels tag t field v fields rest htag hne hnumber hvalue _ ih =>
    obtain ⟨bytes', hwire⟩ := ih
    cases hp : p field with
    | true =>
      rw [List.filter_cons_of_pos hp]
      exact ⟨_, .value htag hne hnumber hvalue hwire⟩
    | false =>
      rw [List.filter_cons_of_neg (by simp [hp])]
      exact ⟨bytes', hwire⟩
  | @group levels tag t number group g e fields rest htag htype hnumber hgroup hend _ _ ih =>
    obtain ⟨bytes', hwire⟩ := ih
    cases hp : p (.group number group) with
    | true =>
      rw [List.filter_cons_of_pos hp]
      exact ⟨_, .group htag htype hnumber hgroup hend hwire⟩
    | false =>
      rw [List.filter_cons_of_neg (by simp [hp])]
      exact ⟨bytes', hwire⟩

/-- The length of a value on the wire is a positive `int`. -/
theorem Wire.length_lt {levels : ℕ} {fields : List UnknownField} {bytes : List UInt8}
    (h : Wire levels fields bytes) {number : UInt32} {value : List UInt8}
    (hmem : .lengthDelimited number value ∈ fields) : value.length < 2 ^ 31 := by
  induction h with
  | nil => cases hmem
  | value _ _ _ hvalue _ ih =>
    cases hmem with
    | head =>
      obtain ⟨-, _, _, -, -, hlt, -⟩ := hvalue
      exact hlt
    | tail _ hmem => exact ih hmem
  | group _ _ _ _ _ _ _ ih =>
    cases hmem with
    | tail _ hmem => exact ih hmem

/-! ## Reading a row of fields -/

/-- `s'` is the same stream as `s` at a later point, where no message has ended. -/
structure Later (s s' : CodedInputStream) : Prop where
  sound : s'.Sound
  size : s'.size = s.size
  legitimate : s'.legitimateMessageEnd = false

theorem CodedInputStream.Follows.later {s s' : CodedInputStream} (h : s.Follows s')
    (hl : s.legitimateMessageEnd = false) : Later s s' :=
  ⟨h.sound, h.size, h.legitimate.trans hl⟩

theorem Later.trans {s s' s'' : CodedInputStream} (h : Later s s') (h' : Later s' s'') :
    Later s s'' :=
  ⟨h'.sound, h'.size.trans h.size, h'.legitimate⟩

theorem takeBytes_eq_some_iff {n : ℕ} {bytes front rest : List UInt8} :
    takeBytes n bytes = some (front, rest) ↔ bytes = front ++ rest ∧ front.length = n := by
  rw [takeBytes]
  constructor
  · intro h
    split at h
    · next hle =>
      obtain ⟨rfl, rfl⟩ := Prod.mk.inj (Option.some.inj h)
      exact ⟨(List.take_append_drop n bytes).symm, List.length_take_of_le hle⟩
    · cases h
  · rintro ⟨rfl, rfl⟩
    simp

theorem varint_eq_some_iff {α : Type} {ofNat : ℕ → α} {bytes rest : List UInt8} {a : α} :
    CodedInputStream.varint ofNat bytes = some (a, rest) ↔
      ∃ front n, bytes = front ++ rest ∧ Whole 10 front n ∧ ofNat n = a := by
  rw [CodedInputStream.varint]
  rw [Option.map_eq_some_iff]
  constructor
  · rintro ⟨⟨n, rest'⟩, hread, he⟩
    obtain ⟨rfl, rfl⟩ := Prod.mk.inj he
    obtain ⟨front, rfl, hwhole⟩ := read_eq_some_iff.mp hread
    exact ⟨front, n, rfl, hwhole, rfl⟩
  · rintro ⟨front, n, rfl, hwhole, rfl⟩
    exact ⟨(n, rest), hwhole.read_front rest, rfl⟩

/-- A length and so many bytes. -/
def lengthAndBytes (bytes : List UInt8) : Option (List UInt8 × List UInt8) :=
  match CodedInputStream.varint UInt32.ofNat bytes with
  | none => none
  | some (length, rest) => if length.toNat < 2 ^ 31 then takeBytes length.toNat rest else none

theorem readBytes_reads {s : CodedInputStream} (h : s.Sound) :
    s.Reads (readBytes s) lengthAndBytes := by
  obtain ⟨hf, hread⟩ := readVarint32_reads h
  rw [readBytes]
  split
  · next s' hs' =>
    rw [hs'] at hf hread
    refine ⟨hf, ?_⟩
    rw [lengthAndBytes, hread]
    rfl
  · next length s' hs' =>
    rw [hs'] at hf hread
    have hflat : lengthAndBytes s.rest =
        if length.toNat < 2 ^ 31 then takeBytes length.toNat s'.rest else none := by
      rw [lengthAndBytes, hread]
      rfl
    by_cases hlt : length.toNat < 2 ^ 31
    · have hint : CInt.int length.toNat = length.toNat :=
        CInt.int_of_range (by omega) (by omega)
      obtain ⟨hf', hread'⟩ := readString_reads hf.sound (Int.natCast_nonneg length.toNat)
      rw [hint]
      refine ⟨hf.trans hf', ?_⟩
      rw [hflat, if_pos hlt, ← hread', Int.toNat_natCast]
    · -- the length is negative as an `int`
      have hbound := length.toNat_lt
      have hint : CInt.int length.toNat = length.toNat - 2 ^ 32 :=
        CInt.int_of_ge (by omega) (by omega)
      rw [hint, readString, if_pos (by omega)]
      exact ⟨hf, by rw [hflat, if_neg hlt]; rfl⟩

theorem lengthAndBytes_eq_some_iff {bytes value rest : List UInt8} :
    lengthAndBytes bytes = some (value, rest) ↔
      ∃ front, bytes = front ++ rest ∧ LengthBytes value front := by
  constructor
  · intro h
    rw [lengthAndBytes] at h
    split at h
    · cases h
    · next length tail hread =>
      split at h
      · next hlt =>
        obtain ⟨front, n, rfl, hwhole, rfl⟩ := varint_eq_some_iff.mp hread
        obtain ⟨rfl, hlen⟩ := takeBytes_eq_some_iff.mp h
        rw [UInt32.toNat_ofNat'] at hlen hlt
        refine
          ⟨front ++ value, (List.append_assoc _ _ _).symm, front, n, hwhole, hlen.symm, ?_, rfl⟩
        omega
      · cases h
  · rintro ⟨front, rfl, length, n, hwhole, hlen, hlt, rfl⟩
    have hread : CodedInputStream.varint UInt32.ofNat (length ++ (value ++ rest)) =
        some (UInt32.ofNat n, value ++ rest) :=
      varint_eq_some_iff.mpr ⟨length, n, rfl, hwhole, rfl⟩
    have htoNat : (UInt32.ofNat n).toNat = value.length := by
      rw [UInt32.toNat_ofNat', hlen]
    rw [List.append_assoc, lengthAndBytes, hread]
    simp only [htoNat, if_pos hlt]
    exact takeBytes_eq_some_iff.mpr ⟨rfl, rfl⟩

/-- The field at the front of the bytes behind its tag, when it is no group. -/
def valueField (tag : UInt32) (bytes : List UInt8) : Option (UnknownField × List UInt8) :=
  match getTagWireType tag with
  | some .varint => (CodedInputStream.varint UInt64.ofNat bytes).map fun r =>
      (.varint (getTagFieldNumber tag) r.1, r.2)
  | some .fixed64 => (takeBytes 8 bytes).map fun r =>
      (.fixed64 (getTagFieldNumber tag) (.ofNat (Nat.ofDigits 256 (r.1.map UInt8.toNat))), r.2)
  | some .lengthDelimited => (lengthAndBytes bytes).map fun r =>
      (.lengthDelimited (getTagFieldNumber tag) r.1, r.2)
  | some .fixed32 => (takeBytes 4 bytes).map fun r =>
      (.fixed32 (getTagFieldNumber tag) (.ofNat (Nat.ofDigits 256 (r.1.map UInt8.toNat))), r.2)
  | _ => none

theorem CodedInputStream.Reads.map {α β : Type} {s : CodedInputStream}
    {r : Option α × CodedInputStream} {f : List UInt8 → Option (α × List UInt8)}
    (h : s.Reads r f) (g : α → β) :
    s.Reads (r.1.map g, r.2) fun bytes => (f bytes).map fun q => (g q.1, q.2) := by
  refine ⟨h.follows, ?_⟩
  rw [h.reads, Option.map_map, Option.map_map]
  rfl

theorem skipField_reads {s : CodedInputStream} (h : s.Sound) (levels : ℕ) {tag : UInt32}
    (htype : getTagWireType tag ≠ some .startGroup) :
    s.Reads (skipField levels tag s) (valueField tag) := by
  unfold skipField
  cases ht : getTagWireType tag with
  | none => exact ⟨h.follows, by rw [valueField, ht]; rfl⟩
  | some type =>
    cases type with
    | varint =>
      have hread := (readVarint64_reads h).map (UnknownField.varint (getTagFieldNumber tag))
      rcases hv : s.readVarint64 with ⟨_ | value, s'⟩
      all_goals
        rw [hv] at hread
        exact ⟨hread.follows, by rw [valueField, ht]; exact hread.reads⟩
    | fixed64 =>
      have hread := (readLittleEndian_reads h 8).map fun value =>
        UnknownField.fixed64 (getTagFieldNumber tag) (.ofNat value)
      rcases hv : s.readLittleEndian 8 with ⟨_ | value, s'⟩
      all_goals
        rw [hv] at hread
        refine ⟨hread.follows, ?_⟩
        rw [valueField, ht]
        simpa [Option.map_map] using hread.reads
    | lengthDelimited =>
      have hread := (readBytes_reads h).map
        (UnknownField.lengthDelimited (getTagFieldNumber tag))
      rcases hv : readBytes s with ⟨_ | value, s'⟩
      all_goals
        rw [hv] at hread
        exact ⟨hread.follows, by rw [valueField, ht]; exact hread.reads⟩
    | startGroup => exact absurd ht htype
    | endGroup => exact ⟨h.follows, by rw [valueField, ht]; rfl⟩
    | fixed32 =>
      have hread := (readLittleEndian_reads h 4).map fun value =>
        UnknownField.fixed32 (getTagFieldNumber tag) (.ofNat value)
      rcases hv : s.readLittleEndian 4 with ⟨_ | value, s'⟩
      all_goals
        rw [hv] at hread
        refine ⟨hread.follows, ?_⟩
        rw [valueField, ht]
        simpa [Option.map_map] using hread.reads

/-- What `valueField` takes from the front is the value of the field. -/
theorem valueField_eq_some_iff {tag : UInt32} {bytes rest : List UInt8} {field : UnknownField} :
    valueField tag bytes = some (field, rest) ↔ ∃ v, bytes = v ++ rest ∧
      field.number = getTagFieldNumber tag ∧ ValueBytes tag field v := by
  constructor
  · intro h
    rw [valueField] at h
    split at h
    · next ht =>
      obtain ⟨⟨value, rest'⟩, hread, he⟩ := Option.map_eq_some_iff.mp h
      obtain ⟨rfl, rfl⟩ := Prod.mk.inj he
      obtain ⟨v, n, rfl, hwhole, hn⟩ := varint_eq_some_iff.mp hread
      exact ⟨v, rfl, rfl, ht, n, hwhole, hn⟩
    · next ht =>
      obtain ⟨⟨value, rest'⟩, hread, he⟩ := Option.map_eq_some_iff.mp h
      obtain ⟨rfl, rfl⟩ := Prod.mk.inj he
      obtain ⟨rfl, hlen⟩ := takeBytes_eq_some_iff.mp hread
      exact ⟨value, rfl, rfl, ht, hlen, rfl⟩
    · next ht =>
      obtain ⟨⟨value, rest'⟩, hread, he⟩ := Option.map_eq_some_iff.mp h
      obtain ⟨rfl, rfl⟩ := Prod.mk.inj he
      obtain ⟨v, rfl, hbytes⟩ := lengthAndBytes_eq_some_iff.mp hread
      exact ⟨v, rfl, rfl, ht, hbytes⟩
    · next ht =>
      obtain ⟨⟨value, rest'⟩, hread, he⟩ := Option.map_eq_some_iff.mp h
      obtain ⟨rfl, rfl⟩ := Prod.mk.inj he
      obtain ⟨rfl, hlen⟩ := takeBytes_eq_some_iff.mp hread
      exact ⟨value, rfl, rfl, ht, hlen, rfl⟩
    · cases h
  · rintro ⟨v, rfl, hnumber, hvalue⟩
    cases field with
    | varint number value =>
      obtain ⟨ht, n, hwhole, hn⟩ := hvalue
      rw [valueField, ht, ← hnumber]
      exact Option.map_eq_some_iff.mpr
        ⟨(value, rest), varint_eq_some_iff.mpr ⟨v, n, rfl, hwhole, hn⟩, rfl⟩
    | fixed32 number value =>
      obtain ⟨ht, hlen, hn⟩ := hvalue
      rw [valueField, ht, ← hnumber]
      exact Option.map_eq_some_iff.mpr
        ⟨(v, rest), takeBytes_eq_some_iff.mpr ⟨rfl, hlen⟩, by rw [hn]; rfl⟩
    | fixed64 number value =>
      obtain ⟨ht, hlen, hn⟩ := hvalue
      rw [valueField, ht, ← hnumber]
      exact Option.map_eq_some_iff.mpr
        ⟨(v, rest), takeBytes_eq_some_iff.mpr ⟨rfl, hlen⟩, by rw [hn]; rfl⟩
    | lengthDelimited number value =>
      obtain ⟨ht, hbytes⟩ := hvalue
      rw [valueField, ht, ← hnumber]
      exact Option.map_eq_some_iff.mpr
        ⟨(value, rest), lengthAndBytes_eq_some_iff.mpr ⟨v, rfl, hbytes⟩, rfl⟩
    | group number group => exact hvalue.elim

/-! ## Rows of fields are read -/

/-- A tag that does not end the row was read. -/
theorem CodedInputStream.ReadsTag.of_not_isEnd {s s' : CodedInputStream} {tag : UInt32}
    (h : s.ReadsTag tag s') (hend : ¬IsEnd tag) :
    Later s s' ∧ ∃ t, s.rest = t ++ s'.rest ∧ TagBytes tag t := by
  obtain ⟨hread, hl⟩ | ⟨-, hzero, -⟩ := h.reads
  · obtain ⟨t, n, hrest, hwhole, hn⟩ := varint_eq_some_iff.mp hread
    exact ⟨⟨h.sound, h.size, hl⟩, t, hrest, n, hwhole, hn⟩
  · exact absurd (Or.inl hzero) hend

/-- What it means for a field to be read right: the bytes taken are its value. -/
def SkipsSoundly (levels : ℕ)
    (skip : UInt32 → CodedInputStream → Option UnknownField × CodedInputStream) : Prop :=
  ∀ s tag field s', s.Sound → s.legitimateMessageEnd = false → ¬IsEnd tag →
    skip tag s = (some field, s') → Later s s' ∧ ∃ v, s.rest = v ++ s'.rest ∧
      ∀ t fields more, TagBytes tag t → Wire levels fields more →
        Wire levels (field :: fields) (t ++ (v ++ more))

/-- The fields that are read stand in the bytes, up to the tag that ended the row. -/
theorem skipMessage_sound {levels : ℕ}
    {skip : UInt32 → CodedInputStream → Option UnknownField × CodedInputStream}
    (hskip : SkipsSoundly levels skip) {n : ℕ} {s s' : CodedInputStream}
    {fields : List UnknownField} (h : s.Sound) (hl : s.legitimateMessageEnd = false)
    (hs : skipMessage skip n s = (some fields, s')) :
    ∃ bytes s₁, s.rest = bytes ++ s₁.rest ∧ Wire levels fields bytes ∧ Later s s₁ ∧
      s₁.ReadsTag s'.lastTag s' ∧ IsEnd s'.lastTag := by
  induction n generalizing s fields with
  | zero => cases hs
  | succ n ih =>
    obtain ⟨hread, hlast⟩ := readTag_reads h hl
    rw [skipMessage] at hs
    split at hs
    · next hend =>
      obtain ⟨hfields, rfl⟩ := Prod.mk.inj hs
      obtain rfl := Option.some.inj hfields
      rw [hlast]
      exact ⟨[], s, rfl, .nil levels, h.follows.later hl, hread, hend⟩
    · next hend =>
      obtain ⟨hlater, t, hrest, htag⟩ := hread.of_not_isEnd hend
      split at hs
      · cases hs
      · next field s₂ hfield =>
        obtain ⟨hlater₂, v, hrest₂, hwire⟩ :=
          hskip _ _ _ _ hlater.sound hlater.legitimate hend hfield
        split at hs
        · cases hs
        · next fields' s₃ hfields =>
          obtain ⟨he, rfl⟩ := Prod.mk.inj hs
          obtain rfl := Option.some.inj he
          obtain ⟨bytes, s₁, hrest₁, hwire₁, hlater₁, htag₁, hend₁⟩ :=
            ih hlater₂.sound hlater₂.legitimate hfields
          refine ⟨t ++ (v ++ bytes), s₁, ?_, hwire t fields' bytes htag hwire₁,
            (hlater.trans hlater₂).trans hlater₁, htag₁, hend₁⟩
          rw [hrest, hrest₂, hrest₁]
          simp

theorem skipField_sound (levels : ℕ) : SkipsSoundly levels (skipField levels) := by
  have hvalue (levels : ℕ) {s s' : CodedInputStream} {tag : UInt32} {field : UnknownField}
      (h : s.Sound) (hl : s.legitimateMessageEnd = false) (hend : ¬IsEnd tag)
      (htype : getTagWireType tag ≠ some .startGroup)
      (hs : skipField levels tag s = (some field, s')) : Later s s' ∧ ∃ v, s.rest = v ++ s'.rest ∧
        ∀ t fields more, TagBytes tag t → Wire levels fields more →
          Wire levels (field :: fields) (t ++ (v ++ more)) := by
    obtain ⟨hf, hread⟩ := skipField_reads h levels htype
    rw [hs] at hf hread
    obtain ⟨v, hrest, hnumber, hv⟩ := valueField_eq_some_iff.mp hread
    exact ⟨hf.later hl, v, hrest, fun t fields more htag hwire =>
      .value htag (fun hzero => hend (Or.inl hzero)) hnumber hv hwire⟩
  induction levels with
  | zero =>
    intro s tag field s' h hl hend hs
    by_cases htype : getTagWireType tag = some .startGroup
    · simp only [skipField, htype] at hs
      cases hs
    · exact hvalue 0 h hl hend htype hs
  | succ levels ih =>
    intro s tag field s' h hl hend hs
    by_cases htype : getTagWireType tag = some .startGroup
    · simp only [skipField, htype] at hs
      split at hs
      · cases hs
      · next group s₂ hgroup =>
        obtain ⟨bytes, s₁, hrest, hwire, hlater, htag, -⟩ := skipMessage_sound ih h hl hgroup
        split at hs
        · next hlast =>
          obtain ⟨he, rfl⟩ := Prod.mk.inj hs
          obtain rfl := Option.some.inj he
          rw [hlast] at htag
          -- the end tag was read, since it is not 0
          obtain ⟨hread, hleg⟩ | ⟨-, hzero, -⟩ := htag.reads
          · obtain ⟨e, n, hrest₁, hwhole, hn⟩ := varint_eq_some_iff.mp hread
            refine ⟨hlater.trans ⟨htag.sound, htag.size, hleg⟩, bytes ++ e, ?_, ?_⟩
            · rw [hrest, hrest₁, List.append_assoc]
            · intro t fields more ht hmore
              rw [List.append_assoc]
              exact .group ht htype rfl hwire ⟨n, hwhole, hn⟩ hmore
          · exact absurd hzero (makeTag_endGroup_ne_zero _)
        · cases hs
    · exact hvalue (levels + 1) h hl hend htype hs

/-! ## All rows of fields are read -/

theorem rest_length_le_left (s : CodedInputStream) : s.rest.length ≤ s.left := by
  rw [CodedInputStream.rest, CodedInputStream.left, List.length_append, List.length_take]
  omega

theorem ValueBytes.not_isEnd {tag : UInt32} {field : UnknownField} {v : List UInt8}
    (hne : tag ≠ 0) (h : ValueBytes tag field v) :
    ¬IsEnd tag ∧ getTagWireType tag ≠ some .startGroup := by
  have htype : ∃ type, getTagWireType tag = some type ∧ type ≠ .endGroup ∧ type ≠ .startGroup := by
    cases field with
    | varint | fixed32 | fixed64 | lengthDelimited => exact ⟨_, h.1, by decide⟩
    | group => exact h.elim
  obtain ⟨type, ht, hend, hstart⟩ := htype
  constructor
  · rintro (hzero | hend')
    · exact hne hzero
    · exact hend (Option.some.inj (ht.symm.trans hend'))
  · intro hstart'
    exact hstart (Option.some.inj (ht.symm.trans hstart'))

theorem TagBytes.length_pos {tag : UInt32} {bytes : List UInt8} (h : TagBytes tag bytes) :
    0 < bytes.length := by
  obtain ⟨n, hwhole, -⟩ := h
  exact hwhole.length_pos

/-- The tag at the front of the bytes is read. -/
theorem TagBytes.readTag {s : CodedInputStream} {tag : UInt32} {t more : List UInt8}
    (htag : TagBytes tag t) (h : s.Sound) (hl : s.legitimateMessageEnd = false)
    (hrest : s.rest = t ++ more) :
    s.readTag.1 = tag ∧ s.readTag.2.rest = more ∧ Later s s.readTag.2 ∧
      s.readTag.2.lastTag = tag := by
  obtain ⟨n, hwhole, hn⟩ := htag
  obtain ⟨hread, hlast⟩ := readTag_reads h hl
  have hflat := varint_eq_some_iff.mpr ⟨t, n, hrest, hwhole, hn⟩
  obtain ⟨hsome, hleg⟩ | ⟨hnone, -⟩ := hread.reads
  · obtain ⟨htag, hmore⟩ := Prod.mk.inj (Option.some.inj (hsome.symm.trans hflat))
    exact ⟨htag, hmore, ⟨hread.sound, hread.size, hleg⟩, hlast.trans htag⟩
  · cases hnone.symm.trans hflat

/-- `skipMessage` with some fields before those it finds. -/
def prepend (fields : List UnknownField)
    (r : Option (List UnknownField) × CodedInputStream) :
    Option (List UnknownField) × CodedInputStream :=
  (r.1.map (fields ++ ·), r.2)

@[simp] theorem prepend_nil (r : Option (List UnknownField) × CodedInputStream) :
    prepend [] r = r := by
  simp [prepend]

@[simp] theorem prepend_prepend (fields fields' : List UnknownField)
    (r : Option (List UnknownField) × CodedInputStream) :
    prepend fields (prepend fields' r) = prepend (fields ++ fields') r := by
  simp [prepend, Function.comp_def]

section Rounds

variable {skip : UInt32 → CodedInputStream → Option UnknownField × CodedInputStream} {n : ℕ}
  {s s' : CodedInputStream} {field : UnknownField}

/-- A round that reads a field. -/
theorem skipMessage_field (hend : ¬IsEnd s.readTag.1)
    (hfield : skip s.readTag.1 s.readTag.2 = (some field, s')) :
    skipMessage skip (n + 1) s = prepend [field] (skipMessage skip n s') := by
  rw [skipMessage, if_neg hend, hfield]
  rcases hrest : skipMessage skip n s' with ⟨_ | fields, s''⟩
  · simp [hrest, prepend]
  · simp [hrest, prepend]

/-- The round that ends the row. -/
theorem skipMessage_end (hend : IsEnd s.readTag.1) :
    skipMessage skip (n + 1) s = (some [], s.readTag.2) := by
  rw [skipMessage, if_pos hend]

end Rounds

/-- A row of fields in front of the bytes is read, one round for each. -/
theorem Wire.skipMessage_eq {levels : ℕ} {fields : List UnknownField} {bytes : List UInt8}
    (h : Wire levels fields bytes) {s : CodedInputStream} (hs : s.Sound)
    (hl : s.legitimateMessageEnd = false) {more : List UInt8} (hrest : s.rest = bytes ++ more)
    {n : ℕ} (hn : bytes.length < n) :
    ∃ s₁ n₁, Later s s₁ ∧ s₁.rest = more ∧ n - bytes.length ≤ n₁ ∧
      skipMessage (skipField levels) n s =
        prepend fields (skipMessage (skipField levels) n₁ s₁) := by
  induction h generalizing s more n with
  | nil levels =>
    exact ⟨s, n, ⟨hs, rfl, hl⟩, hrest, Nat.sub_le _ _, (prepend_nil _).symm⟩
  | @value levels tag t field v fields rest htag hne hnumber hvalue hwire ih =>
    obtain ⟨n, rfl⟩ := Nat.exists_eq_succ_of_ne_zero (show n ≠ 0 by omega)
    obtain ⟨hend, hstart⟩ := hvalue.not_isEnd hne
    have hfront : s.rest = t ++ (v ++ (rest ++ more)) := by rw [hrest]; simp
    obtain ⟨htag', hrest', hlater, -⟩ := htag.readTag hs hl hfront
    obtain ⟨hf, hread⟩ := skipField_reads hlater.sound levels hstart
    rw [hrest', valueField_eq_some_iff.mpr ⟨v, rfl, hnumber, hvalue⟩] at hread
    rcases hskip : skipField levels tag s.readTag.2 with ⟨_ | field', s₂⟩
    · rw [hskip] at hread
      cases hread
    · rw [hskip] at hf hread
      obtain ⟨rfl, hrest₂⟩ := Prod.mk.inj (Option.some.inj hread)
      have hlater₂ := hlater.trans (hf.later hlater.legitimate)
      have hpos := htag.length_pos
      simp only [List.length_append] at hn ⊢
      obtain ⟨s₁, n₁, hlater₁, hrest₁, hn₁, hskip₁⟩ :=
        ih hlater₂.sound hlater₂.legitimate hrest₂.symm (n := n) (by omega)
      refine ⟨s₁, n₁, hlater₂.trans hlater₁, hrest₁, by omega, ?_⟩
      rw [skipMessage_field (htag' ▸ hend) (htag'.symm ▸ hskip), hskip₁, prepend_prepend]
      rfl
  | @group levels tag t number group g e fields rest htag htype hnumber hgroup hend hwire ihg ih =>
    obtain ⟨n, rfl⟩ := Nat.exists_eq_succ_of_ne_zero (show n ≠ 0 by omega)
    have hstart : ¬IsEnd tag := by
      rintro (rfl | hend')
      · cases htype
      · cases htype.symm.trans hend'
    have hfront : s.rest = t ++ (g ++ (e ++ (rest ++ more))) := by rw [hrest]; simp
    obtain ⟨htag', hrest', hlater, -⟩ := htag.readTag hs hl hfront
    have hpos := htag.length_pos
    -- the fields of the group, and the tag that ends it
    have hleft := rest_length_le_left s.readTag.2
    rw [hrest'] at hleft
    simp only [List.length_append] at hleft hn ⊢
    obtain ⟨s₂, n₂, hlater₂, hrest₂, hn₂, hskip₂⟩ :=
      ihg hlater.sound hlater.legitimate hrest' (n := s.readTag.2.left + 1) (by omega)
    obtain ⟨n₂, rfl⟩ := Nat.exists_eq_succ_of_ne_zero (show n₂ ≠ 0 by omega)
    obtain ⟨hend₂, hrest₃, hlater₃, hlast⟩ := hend.readTag hlater₂.sound hlater₂.legitimate hrest₂
    have hisEnd : IsEnd s₂.readTag.1 := by
      rw [hend₂]
      exact Or.inr (getTagWireType_makeTag number .endGroup)
    rw [skipMessage_end hisEnd] at hskip₂
    have hfield : skipField (levels + 1) tag s.readTag.2 =
        (some (.group number group), s₂.readTag.2) := by
      simp only [skipField, htype, hskip₂]
      simp [prepend, hlast, hnumber]
    have hlater₄ := (hlater.trans hlater₂).trans hlater₃
    obtain ⟨s₁, n₁, hlater₁, hrest₁, hn₁, hskip₁⟩ :=
      ih hlater₄.sound hlater₄.legitimate hrest₃ (n := n) (by omega)
    refine ⟨s₁, n₁, hlater₄.trans hlater₁, hrest₁, by omega, ?_⟩
    rw [skipMessage_field (htag' ▸ hstart) (htag'.symm ▸ hfield), hskip₁, prepend_prepend]
    rfl

end NgxRpc
