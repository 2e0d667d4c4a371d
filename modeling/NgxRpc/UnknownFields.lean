import NgxRpc.CodedOutput
import NgxRpc.WireFormat

/-!
# Writing unknown fields

`WireFormat` writes the fields it has kept to a stream, or straight to memory when their size is
known to fit, and it computes the size beforehand. The three agree, and what is written is read
back as the same fields.

## Main definitions

- `serializeUnknownFields`, `serializeUnknownFieldsToArray`, `computeUnknownFieldsSize`

## Main results

- `serializeUnknownFields_eq`, `computeUnknownFieldsSize_eq` — the agreement
- `Wire.serialize` — fields that were read are written in no more bytes, which are those fields
-/

namespace NgxRpc
open Varint

mutual

/-- One round of `WireFormat::SerializeUnknownFields`. -/
def serializeUnknownField : UnknownField → CodedOutputStream → CodedOutputStream
  | .varint number value, o => (o.writeVarint32 (makeTag number .varint)).writeVarint64 value
  | .fixed32 number value, o =>
    (o.writeVarint32 (makeTag number .fixed32)).writeLittleEndian 4 value.toNat
  | .fixed64 number value, o =>
    (o.writeVarint32 (makeTag number .fixed64)).writeLittleEndian 8 value.toNat
  | .lengthDelimited number value, o =>
    ((o.writeVarint32 (makeTag number .lengthDelimited)).writeVarint32
      (.ofNat value.length)).writeRaw value
  | .group number group, o =>
    (serializeUnknownFields group (o.writeVarint32 (makeTag number .startGroup))).writeVarint32
      (makeTag number .endGroup)

/-- `WireFormat::SerializeUnknownFields`. -/
def serializeUnknownFields : List UnknownField → CodedOutputStream → CodedOutputStream
  | [], o => o
  | field :: fields, o => serializeUnknownFields fields (serializeUnknownField field o)

end

mutual

/-- One round of `WireFormat::SerializeUnknownFieldsToArray`. -/
def serializeUnknownFieldToArray : UnknownField → List UInt8
  | .varint number value => writeTagToArray (makeTag number .varint) ++ writeVarint64ToArray value
  | .fixed32 number value =>
    writeTagToArray (makeTag number .fixed32) ++ writeLittleEndianToArray 4 value.toNat
  | .fixed64 number value =>
    writeTagToArray (makeTag number .fixed64) ++ writeLittleEndianToArray 8 value.toNat
  | .lengthDelimited number value =>
    writeTagToArray (makeTag number .lengthDelimited) ++
      (writeVarint32ToArray (.ofNat value.length) ++ value)
  | .group number group =>
    writeTagToArray (makeTag number .startGroup) ++
      (serializeUnknownFieldsToArray group ++ writeTagToArray (makeTag number .endGroup))

/-- `WireFormat::SerializeUnknownFieldsToArray`. -/
def serializeUnknownFieldsToArray : List UnknownField → List UInt8
  | [] => []
  | field :: fields => serializeUnknownFieldToArray field ++ serializeUnknownFieldsToArray fields

end

mutual

/-- One round of `WireFormat::ComputeUnknownFieldsSize`. -/
def computeUnknownFieldSize : UnknownField → ℕ
  | .varint number value => varintSize32 (makeTag number .varint) + varintSize64 value
  | .fixed32 number _ => varintSize32 (makeTag number .fixed32) + 4
  | .fixed64 number _ => varintSize32 (makeTag number .fixed64) + 8
  | .lengthDelimited number value =>
    varintSize32 (makeTag number .lengthDelimited) + varintSize32 (.ofNat value.length) +
      value.length
  | .group number group =>
    varintSize32 (makeTag number .startGroup) + computeUnknownFieldsSize group +
      varintSize32 (makeTag number .endGroup)

/-- `WireFormat::ComputeUnknownFieldsSize`. -/
def computeUnknownFieldsSize : List UnknownField → ℕ
  | [] => 0
  | field :: fields => computeUnknownFieldSize field + computeUnknownFieldsSize fields

end

/-! ## The ways of writing agree -/

mutual

theorem serializeUnknownField_eq (field : UnknownField) (o : CodedOutputStream) :
    serializeUnknownField field o = o.writeRaw (serializeUnknownFieldToArray field) := by
  cases field with
  | varint | fixed32 | fixed64 | lengthDelimited =>
    simp [serializeUnknownField, serializeUnknownFieldToArray, writeTagToArray_eq,
      writeVarint32ToArray_eq, writeVarint64ToArray_eq, CodedOutputStream.writeVarint32_eq,
      CodedOutputStream.writeVarint64_eq, CodedOutputStream.writeLittleEndian_eq,
      CodedOutputStream.writeRaw_append]
  | group number group =>
    simp [serializeUnknownField, serializeUnknownFieldToArray, writeTagToArray_eq,
      CodedOutputStream.writeVarint32_eq, CodedOutputStream.writeRaw_append,
      serializeUnknownFields_eq group]

theorem serializeUnknownFields_eq (fields : List UnknownField) (o : CodedOutputStream) :
    serializeUnknownFields fields o = o.writeRaw (serializeUnknownFieldsToArray fields) := by
  cases fields with
  | nil => simp [serializeUnknownFields, serializeUnknownFieldsToArray]
  | cons field fields =>
    rw [serializeUnknownFields, serializeUnknownFieldsToArray,
      CodedOutputStream.writeRaw_append, serializeUnknownField_eq field,
      serializeUnknownFields_eq fields]

end

mutual

theorem computeUnknownFieldSize_eq (field : UnknownField) :
    computeUnknownFieldSize field = (serializeUnknownFieldToArray field).length := by
  cases field with
  | varint | fixed32 | fixed64 | lengthDelimited =>
    simp [computeUnknownFieldSize, serializeUnknownFieldToArray, writeTagToArray_eq,
      writeVarint32ToArray_eq, writeVarint64ToArray_eq, varintSize32_eq, varintSize64_eq,
      Nat.add_assoc]
  | group number group =>
    simp [computeUnknownFieldSize, serializeUnknownFieldToArray, writeTagToArray_eq,
      varintSize32_eq, computeUnknownFieldsSize_eq group, Nat.add_assoc]

theorem computeUnknownFieldsSize_eq (fields : List UnknownField) :
    computeUnknownFieldsSize fields = (serializeUnknownFieldsToArray fields).length := by
  cases fields with
  | nil => rfl
  | cons field fields =>
    rw [computeUnknownFieldsSize, serializeUnknownFieldsToArray, List.length_append,
      computeUnknownFieldSize_eq field, computeUnknownFieldsSize_eq fields]

end

@[simp] theorem serializeUnknownFieldsToArray_append (fields fields' : List UnknownField) :
    serializeUnknownFieldsToArray (fields ++ fields') =
      serializeUnknownFieldsToArray fields ++ serializeUnknownFieldsToArray fields' := by
  induction fields with
  | nil => rfl
  | cons field fields ih =>
    rw [List.cons_append, serializeUnknownFieldsToArray, serializeUnknownFieldsToArray, ih,
      List.append_assoc]

/-! ## What is written is read again -/

/-- The shortest form of a tag. -/
theorem tagBytes_write (tag : UInt32) : TagBytes tag (write 5 tag.toNat) := by
  have hlt := tag.toNat_lt
  refine ⟨tag.toNat, ?_, UInt32.ofNat_toNat⟩
  exact (whole_write (by decide) (show tag.toNat < 128 ^ 5 by omega)).mono (by decide)

theorem TagBytes.length_write_le {tag : UInt32} {t : List UInt8} (h : TagBytes tag t) :
    (write 5 tag.toNat).length ≤ t.length := by
  obtain ⟨n, hwhole, rfl⟩ := h
  have hlt : n % 2 ^ 32 < 128 ^ 5 := by omega
  rw [UInt32.toNat_ofNat']
  exact hwhole.length_write_le (Nat.mod_le _ _) (by decide) hlt

/-- The value of a field is written in its shortest form. -/
theorem ValueBytes.serialize {tag : UInt32} {field : UnknownField} {v : List UInt8}
    (hnumber : field.number = getTagFieldNumber tag) (h : ValueBytes tag field v) :
    ∃ v', serializeUnknownFieldToArray field = write 5 tag.toNat ++ v' ∧
      ValueBytes tag field v' ∧ v'.length ≤ v.length := by
  cases field with
  | varint number value =>
    obtain ⟨ht, n, hwhole, rfl⟩ := h
    obtain rfl : number = getTagFieldNumber tag := hnumber
    have hlt := (UInt64.ofNat n).toNat_lt
    refine ⟨write 10 (UInt64.ofNat n).toNat, ?_, ⟨ht, _, ?_, UInt64.ofNat_toNat⟩, ?_⟩
    · rw [serializeUnknownFieldToArray, writeTagToArray_eq, writeVarint64ToArray_eq,
        makeTag_getTagFieldNumber ht]
    · exact whole_write (by decide) (by omega)
    · rw [UInt64.toNat_ofNat'] at hlt ⊢
      exact hwhole.length_write_le (Nat.mod_le _ _) (by decide) (by omega)
  | fixed32 number value =>
    obtain ⟨ht, hlen, -⟩ := h
    obtain rfl : number = getTagFieldNumber tag := hnumber
    have hlt : value.toNat < 256 ^ 4 := value.toNat_lt
    refine ⟨writeLittleEndianToArray 4 value.toNat, ?_, ⟨ht, ?_, ?_⟩, ?_⟩
    · rw [serializeUnknownFieldToArray, writeTagToArray_eq, makeTag_getTagFieldNumber ht]
    · exact length_writeLittleEndianToArray _ _
    · rw [ofDigits_writeLittleEndian hlt, UInt32.ofNat_toNat]
    · rw [length_writeLittleEndianToArray, hlen]
  | fixed64 number value =>
    obtain ⟨ht, hlen, -⟩ := h
    obtain rfl : number = getTagFieldNumber tag := hnumber
    have hlt : value.toNat < 256 ^ 8 := value.toNat_lt
    refine ⟨writeLittleEndianToArray 8 value.toNat, ?_, ⟨ht, ?_, ?_⟩, ?_⟩
    · rw [serializeUnknownFieldToArray, writeTagToArray_eq, makeTag_getTagFieldNumber ht]
    · exact length_writeLittleEndianToArray _ _
    · rw [ofDigits_writeLittleEndian hlt, UInt64.ofNat_toNat]
    · rw [length_writeLittleEndianToArray, hlen]
  | lengthDelimited number value =>
    obtain ⟨ht, length, n, hwhole, hn, hlt, rfl⟩ := h
    obtain rfl : number = getTagFieldNumber tag := hnumber
    have hlen : (UInt32.ofNat value.length).toNat = value.length := by
      rw [UInt32.toNat_ofNat']
      omega
    refine ⟨write 5 value.length ++ value, ?_, ⟨ht, write 5 value.length, value.length, ?_, ?_, hlt,
      rfl⟩, ?_⟩
    · rw [serializeUnknownFieldToArray, writeTagToArray_eq, writeVarint32ToArray_eq, hlen,
        makeTag_getTagFieldNumber ht]
    · exact (whole_write (by decide) (show value.length < 128 ^ 5 by omega)).mono (by decide)
    · omega
    · rw [List.length_append, List.length_append]
      have hle : value.length ≤ n := hn ▸ Nat.mod_le _ _
      have hshort := hwhole.length_write_le hle (show 0 < 5 by decide) (by omega)
      omega
  | group => exact h.elim

/-- Fields that were read are written in no more bytes, which are those fields again. -/
theorem Wire.serialize {levels : ℕ} {fields : List UnknownField} {bytes : List UInt8}
    (h : Wire levels fields bytes) : Wire levels fields (serializeUnknownFieldsToArray fields) ∧
      (serializeUnknownFieldsToArray fields).length ≤ bytes.length := by
  induction h with
  | nil levels => exact ⟨.nil levels, le_rfl⟩
  | @value levels tag t field v fields rest htag hne hnumber hvalue _ ih =>
    obtain ⟨v', hser, hvalue', hlen⟩ := hvalue.serialize hnumber
    have hlen' := htag.length_write_le
    rw [serializeUnknownFieldsToArray, hser, List.append_assoc]
    refine ⟨.value (tagBytes_write tag) hne hnumber hvalue' ih.1, ?_⟩
    simp only [List.length_append]
    omega
  | @group levels tag t number group g e fields rest htag htype hnumber _ hend _ ihg ih =>
    have hlen := htag.length_write_le
    have hlen' := hend.length_write_le
    obtain ⟨hwireg, hleng⟩ := ihg
    obtain ⟨hwire, hlenr⟩ := ih
    rw [serializeUnknownFieldsToArray, serializeUnknownFieldToArray, writeTagToArray_eq,
      writeTagToArray_eq, hnumber, makeTag_getTagFieldNumber htype, List.append_assoc,
      List.append_assoc]
    refine ⟨.group (tagBytes_write tag) htype rfl hwireg (tagBytes_write _) hwire, ?_⟩
    rw [hnumber] at hlen'
    simp only [List.length_append]
    omega

end NgxRpc
