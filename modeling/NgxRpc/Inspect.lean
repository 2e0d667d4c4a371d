import NgxRpc.UnknownFields

/-!
# The messages of the inspect service

`Request` and `Response` of `inspect.proto` have one field, `optional bytes json = 1`, and keep
what they do not know. A message is parsed from the chunks of a stream and written to its
regions. How the bytes are cut makes no difference to either.

## Main definitions

- `Inspect.Message` — either message, and the functions of its class
- `Message.ofFields`, `Message.WellFormed` — what it is made from

## Main results

- `parse_iff` — what is accepted, and the message that it is
- `serialize_iff` — what is written, and when there is room
- `parse_serialize`, `reserialize`, `parse_append` — writing and parsing
-/

namespace NgxRpc
namespace Inspect
open Varint CodedInputStream

/-- `ngxrpc::inspect::Request` and `ngxrpc::inspect::Response`. -/
structure Message where
  json : Option (List UInt8)
  unknownFields : List UnknownField

abbrev Request := Message
abbrev Response := Message

/-- `kint32max`. -/
def int32Max : ℕ := 2 ^ 31 - 1

namespace Message

def new : Message := ⟨none, []⟩

def clear (_ : Message) : Message := new

def setJson (m : Message) (value : List UInt8) : Message := { m with json := some value }

def mergeFrom (m source : Message) : Message where
  json := source.json.or m.json
  unknownFields := m.unknownFields ++ source.unknownFields

def copyFrom (m source : Message) : Message := m.clear.mergeFrom source

/-! ## Parsing -/

/-- `CodedInputStream::ExpectAtEnd`. -/
def expectAtEnd (s : CodedInputStream) : Bool × CodedInputStream :=
  if s.buffer = [] ∧ (s.bufferSizeAfterLimit ≠ 0 ∨ s.totalBytesRead = intMax) then
    (true, { s with lastTag := 0, legitimateMessageEnd := true })
  else (false, s)

/-- The loop of `MergePartialFromCodedStream`, at most `n` rounds. A failure leaves a message that
nobody reads. -/
def mergePartialFrom : ℕ → Message → CodedInputStream → Option Message × CodedInputStream
  | 0, _, s => (none, s)
  | n + 1, m, s =>
    match s.readTagWithCutoff 127 with
    | ((tag, known), s) =>
      if known ∧ getTagFieldNumber tag = 1 ∧ tag = 10 then
        match readBytes s with
        | (none, s) => (none, s)
        | (some json, s) =>
          match expectAtEnd s with
          | (true, s) => (some (m.setJson json), s)
          | (false, s) => mergePartialFrom n (m.setJson json) s
      else if IsEnd tag then (some m, s)
      else
        match skipField 100 tag s with
        | (none, s) => (none, s)
        | (some field, s) =>
          mergePartialFrom n { m with unknownFields := m.unknownFields ++ [field] } s

def mergePartialFromCodedStream (m : Message) (s : CodedInputStream) :
    Option Message × CodedInputStream :=
  mergePartialFrom (s.left + 1) m s

/-- `MessageLite::ParseFromZeroCopyStream`, on a stream that delivers the chunks `input`. No field
is required. -/
def parseFromZeroCopyStream (m : Message) (input : List (List UInt8)) : Option Message :=
  match m.clear.mergePartialFromCodedStream (CodedInputStream.new input) with
  | (none, _) => none
  | (some m, s) => if s.legitimateMessageEnd then some m else none

/-! ## Writing -/

/-- `SerializeWithCachedSizes`; a value that is too long fails a check. -/
def serializeWithCachedSizes (m : Message) (o : CodedOutputStream) : Option CodedOutputStream :=
  match m.json with
  | none => some (serializeUnknownFields m.unknownFields o)
  | some json =>
    if json.length ≤ int32Max then
      some (serializeUnknownFields m.unknownFields
        (((o.writeVarint32 (makeTag 1 .lengthDelimited)).writeVarint32
          (.ofNat json.length)).writeRaw json))
    else none

def serializeWithCachedSizesToArray (m : Message) : List UInt8 :=
  match m.json with
  | none => serializeUnknownFieldsToArray m.unknownFields
  | some json =>
    (writeTagToArray (makeTag 1 .lengthDelimited) ++
      (writeVarint32ToArray (.ofNat json.length) ++ json)) ++
        serializeUnknownFieldsToArray m.unknownFields

/-- `ByteSize`, an `int`. -/
def byteSize (m : Message) : ℤ :=
  match m.json with
  | none => CInt.int (computeUnknownFieldsSize m.unknownFields : ℕ)
  | some json =>
    CInt.int (1 + (varintSize32 (.ofNat json.length) + json.length) +
      computeUnknownFieldsSize m.unknownFields : ℕ)

/-- `MessageLite::SerializePartialToCodedStream`. Nothing is returned where a check fails, such as
`ByteSizeConsistencyError`. -/
def serializePartialToCodedStream (m : Message) (o : CodedOutputStream) :
    Option (Bool × CodedOutputStream) :=
  if m.byteSize ≤ o.bufferSize then
    let target := m.serializeWithCachedSizesToArray
    if target.length = m.byteSize then some (true, o.put target) else none
  else
    match m.serializeWithCachedSizes o with
    | none => none
    | some o' =>
      if o'.hadError then some (false, o')
      else if o'.byteCount - o.byteCount ≠ m.byteSize then none
      else some (true, o')

/-- `MessageLite::SerializeToZeroCopyStream`, to a stream with regions of the sizes `output`. -/
def serializeToZeroCopyStream (m : Message) (output : List ℕ) :
    Option (Bool × CodedOutputStream) :=
  m.serializePartialToCodedStream (CodedOutputStream.new output)

/-! ## Messages and rows of fields -/

/-- The value of `json`, if the field is that. -/
def jsonOf : UnknownField → Option (List UInt8)
  | .lengthDelimited number value => if number = 1 then some value else none
  | _ => none

/-- What a field does to a message. -/
def addField (m : Message) (field : UnknownField) : Message :=
  match jsonOf field with
  | some json => m.setJson json
  | none => { m with unknownFields := m.unknownFields ++ [field] }

def addFields (m : Message) (fields : List UnknownField) : Message := fields.foldl addField m

/-- The message that a row of fields is. -/
def ofFields (fields : List UnknownField) : Message := new.addFields fields

/-- The row of fields that a message is written as. -/
def fields (m : Message) : List UnknownField :=
  (m.json.map (.lengthDelimited 1)).toList ++ m.unknownFields

/-- The fields can be written, and `json` is no unknown one. -/
structure WellFormed (m : Message) : Prop where
  json : ∀ v, m.json = some v → v.length ≤ int32Max
  unknown : ∃ bytes, Wire 100 m.unknownFields bytes
  notJson : ∀ field ∈ m.unknownFields, jsonOf field = none

variable {m : Message} {fields fields' : List UnknownField} {s s' : CodedInputStream}

theorem jsonOf_eq_some_iff {field : UnknownField} {json : List UInt8} :
    jsonOf field = some json ↔ field = .lengthDelimited 1 json := by
  constructor
  · intro h
    unfold jsonOf at h
    split at h
    · split at h
      · next hnumber =>
        rw [hnumber, Option.some.inj h]
      · cases h
    · cases h
  · rintro rfl
    rfl

theorem addFields_cons (m : Message) (field : UnknownField) (fields : List UnknownField) :
    m.addFields (field :: fields) = (m.addField field).addFields fields := rfl

/-- A field that `SkipField` keeps is written as its tag says. -/
theorem skipField_lengthDelimited {levels : ℕ} {tag number : UInt32} {value : List UInt8}
    (h : skipField levels tag s = (some (.lengthDelimited number value), s')) :
    getTagWireType tag = some .lengthDelimited ∧ number = getTagFieldNumber tag := by
  unfold skipField at h
  split at h
  · split at h <;> cases h
  · split at h <;> cases h
  · next htype =>
    split at h
    · cases h
    · cases h
      exact ⟨htype, rfl⟩
  · split at h
    · cases h
    · split at h
      · cases h
      · split at h <;> cases h
  · cases h
  · split at h <;> cases h
  · cases h

/-- Only the tag 10 is that of `json`. -/
theorem addField_skipField {levels : ℕ} {tag : UInt32} {field : UnknownField}
    (h : skipField levels tag s = (some field, s')) (htag : tag ≠ 10) (m : Message) :
    m.addField field = { m with unknownFields := m.unknownFields ++ [field] } := by
  rw [addField]
  cases hjson : jsonOf field with
  | none => rfl
  | some json =>
    obtain rfl := jsonOf_eq_some_iff.mp hjson
    obtain ⟨htype, hnumber⟩ := skipField_lengthDelimited h
    have hmake := makeTag_getTagFieldNumber htype
    rw [← hnumber] at hmake
    exact absurd hmake.symm htag

/-- Below the limit nothing is known about the end before it is reached. -/
theorem expectAtEnd_eq (h : s.Sound) (hsize : s.size ≤ totalBytesLimit) :
    expectAtEnd s = (false, s) := by
  have hafter := h.after
  have hmax : totalBytesLimit < intMax := by decide
  rw [CodedInputStream.size] at hsize
  have hno : ¬(s.bufferSizeAfterLimit ≠ 0 ∨ s.totalBytesRead = intMax) := by omega
  rw [expectAtEnd, if_neg fun hand => hno hand.2]

theorem skipField_json (levels : ℕ) (s : CodedInputStream) : skipField levels 10 s =
    ((readBytes s).1.map (.lengthDelimited 1), (readBytes s).2) := by
  have htype : getTagWireType 10 = some .lengthDelimited := by decide
  unfold skipField
  rw [htype]
  rcases readBytes s with ⟨_ | value, s'⟩
  · rfl
  · rfl

/-- A field in front of a row. -/
theorem map_addFields_prepend (m : Message) (field : UnknownField)
    (r : Option (List UnknownField) × CodedInputStream) :
    (prepend [field] r).1.map m.addFields = r.1.map (m.addField field).addFields := by
  rw [prepend, Option.map_map]
  rfl

/-- The loop of a message is that of a row of unknown fields, with `json` set apart. -/
theorem mergePartialFrom_eq (n : ℕ) (m : Message) (h : s.Sound)
    (hl : s.legitimateMessageEnd = false) (hsize : s.size ≤ totalBytesLimit) :
    mergePartialFrom n m s = ((skipMessage (skipField 100) n s).1.map m.addFields,
      (skipMessage (skipField 100) n s).2) := by
  induction n generalizing m s with
  | zero => rfl
  | succ n ih =>
    obtain ⟨hread, -⟩ := readTag_reads h hl
    have hknown : (decide (s.readTag.1 - 1 < 127) = true ∧ getTagFieldNumber s.readTag.1 = 1 ∧
        s.readTag.1 = 10) ↔ s.readTag.1 = 10 := by
      refine ⟨fun hand => hand.2.2, fun h10 => ?_⟩
      rw [h10]
      decide
    rw [mergePartialFrom, readTagWithCutoff_eq]
    simp only [hknown]
    by_cases h10 : s.readTag.1 = 10
    · have hend : ¬IsEnd s.readTag.1 := by rw [h10]; decide
      obtain ⟨hlater, -⟩ := hread.of_not_isEnd hend
      obtain ⟨hf, -⟩ := readBytes_reads hlater.sound
      have hjson := skipField_json 100 s.readTag.2
      rw [if_pos h10]
      rcases hbytes : readBytes s.readTag.2 with ⟨_ | json, s₁⟩
      · rw [hbytes] at hjson
        rw [skipMessage, if_neg hend, h10, hjson]
        rfl
      · rw [hbytes] at hjson hf
        have hlater₁ := hf.later hlater.legitimate
        have hsize₁ : s₁.size ≤ totalBytesLimit := by
          rw [hlater₁.size, hlater.size]
          exact hsize
        rw [skipMessage_field hend (h10.symm ▸ hjson), map_addFields_prepend]
        simp only [expectAtEnd_eq hlater₁.sound hsize₁]
        exact ih _ hlater₁.sound hlater₁.legitimate hsize₁
    · rw [if_neg h10]
      by_cases hend : IsEnd s.readTag.1
      · rw [if_pos hend, skipMessage_end hend]
        rfl
      · obtain ⟨hlater, -⟩ := hread.of_not_isEnd hend
        rw [if_neg hend]
        rcases hfield : skipField 100 s.readTag.1 s.readTag.2 with ⟨_ | field, s₁⟩
        · rw [skipMessage, if_neg hend, hfield]
          rfl
        · obtain ⟨hlater₁, -⟩ :=
            skipField_sound 100 _ _ _ _ hlater.sound hlater.legitimate hend hfield
          have hsize₁ : s₁.size ≤ totalBytesLimit := by
            rw [hlater₁.size, hlater.size]
            exact hsize
          rw [skipMessage_field hend hfield, map_addFields_prepend,
            addField_skipField hfield h10]
          exact ih _ hlater₁.sound hlater₁.legitimate hsize₁

/-- The stream before anything is read. -/
theorem new_facts (input : List (List UInt8)) :
    (CodedInputStream.new input).Sound ∧ (CodedInputStream.new input).size = input.flatten.length ∧
      (CodedInputStream.new input).legitimateMessageEnd = false ∧
      (CodedInputStream.new input).rest = input.flatten.take totalBytesLimit := by
  generalize hinit : (⟨input, [], 0, 0, 0, 0, false⟩ : CodedInputStream) = init
  have hzero : init.Sound := by
    subst hinit
    exact ⟨by simp, fun hpos => absurd hpos (Nat.lt_irrefl 0)⟩
  have hsize : init.size = input.flatten.length := by
    subst hinit
    simp [CodedInputStream.size]
  have hrest : init.rest = input.flatten.take totalBytesLimit := by
    subst hinit
    simp [CodedInputStream.rest]
  have hbuffer : init.buffer = [] := by
    subst hinit
    rfl
  have hl : init.legitimateMessageEnd = false := by
    subst hinit
    rfl
  rw [CodedInputStream.new, hinit]
  rcases hr : init.refresh with ⟨_ | _, s⟩
  · obtain ⟨hf, hnil, hnil', -⟩ := refresh_false hzero hbuffer hr
    exact ⟨hf.sound, hf.size.trans hsize, hf.legitimate.trans hl, by rw [hnil', ← hnil, hrest]⟩
  · obtain ⟨hf, hsame, -⟩ := refresh_true hzero hbuffer hr
    exact ⟨hf.sound, hf.size.trans hsize, hf.legitimate.trans hl, hsame.trans hrest⟩

/-- What is accepted ends before the limit and is a row of fields. -/
theorem wire_of_parse {m m' : Message} {input : List (List UInt8)}
    (hsize : input.flatten.length ≤ totalBytesLimit)
    (hparse : m.parseFromZeroCopyStream input = some m') :
    input.flatten.length < totalBytesLimit ∧
      ∃ fields, Wire 100 fields input.flatten ∧ m' = ofFields fields := by
  obtain ⟨h, hsize', hl, hrest⟩ := new_facts input
  rw [List.take_of_length_le hsize] at hrest
  rw [parseFromZeroCopyStream, mergePartialFromCodedStream] at hparse
  rw [mergePartialFrom_eq _ _ h hl (hsize'.trans_le hsize)] at hparse
  rcases hskip : skipMessage (skipField 100) ((CodedInputStream.new input).left + 1)
    (CodedInputStream.new input) with ⟨_ | fields, s'⟩
  · rw [hskip] at hparse
    cases hparse
  · rw [hskip] at hparse
    obtain ⟨bytes, s₁, hbytes, hwire, hlater, htag, -⟩ :=
      skipMessage_sound (skipField_sound 100) h hl hskip
    simp only [Option.map_some] at hparse
    split at hparse
    · next hleg =>
      obtain rfl := Option.some.inj hparse
      obtain ⟨-, hfalse⟩ | ⟨-, -, htrue⟩ := htag.reads
      · rw [hleg] at hfalse
        cases hfalse
      · rw [hleg, eq_comm, decide_eq_true_iff, hlater.size, hsize'] at htrue
        rw [hrest, htrue.1, List.append_nil] at hbytes
        exact ⟨htrue.2, fields, hbytes ▸ hwire, rfl⟩
    · cases hparse

/-- A row of fields that ends before the limit is accepted. -/
theorem parse_of_wire (m : Message) {fields : List UnknownField} {input : List (List UInt8)}
    (hwire : Wire 100 fields input.flatten) (hlt : input.flatten.length < totalBytesLimit) :
    m.parseFromZeroCopyStream input = some (ofFields fields) := by
  obtain ⟨h, hsize', hl, hrest⟩ := new_facts input
  rw [List.take_of_length_le hlt.le] at hrest
  have hrest' : (CodedInputStream.new input).rest = input.flatten ++ [] := by
    rw [hrest, List.append_nil]
  rw [parseFromZeroCopyStream, mergePartialFromCodedStream]
  rw [mergePartialFrom_eq _ _ h hl (hsize'.trans_le hlt.le)]
  have hleft := rest_length_le_left (CodedInputStream.new input)
  rw [hrest] at hleft
  obtain ⟨s₁, n, hlater, hnil, hn, hskip⟩ := hwire.skipMessage_eq h hl hrest'
    (Nat.lt_succ_of_le hleft)
  obtain ⟨n, rfl⟩ := Nat.exists_eq_succ_of_ne_zero (show n ≠ 0 by omega)
  -- the round that finds the end
  obtain ⟨htag, -⟩ := readTag_reads hlater.sound hlater.legitimate
  obtain ⟨hsome, -⟩ | ⟨-, hzero, hleg⟩ := htag.reads
  · rw [hnil] at hsome
    cases hsome
  · have hend : s₁.readTag.2.legitimateMessageEnd = true := by
      rw [hleg, decide_eq_true_iff, hlater.size, hsize']
      exact ⟨hnil, hlt⟩
    rw [hskip, skipMessage_end (Or.inl hzero)]
    simp [prepend, hend, ofFields, clear]

/-- Whatever the chunks, a stream up to the limit is accepted exactly when it ends before the limit
and is a row of fields, and the message is what they are. -/
theorem parse_iff (m m' : Message) {input : List (List UInt8)}
    (hsize : input.flatten.length ≤ totalBytesLimit) :
    m.parseFromZeroCopyStream input = some m' ↔ input.flatten.length < totalBytesLimit ∧
      ∃ fields, Wire 100 fields input.flatten ∧ m' = ofFields fields := by
  constructor
  · exact wire_of_parse hsize
  · rintro ⟨hlt, fields, hwire, rfl⟩
    exact parse_of_wire m hwire hlt

theorem parse_iff_chunks : ∃ fields, Wire 100 fields [10, 2, 104, 105] ∧
    (⟨some [104, 105], []⟩ : Message) = ofFields fields :=
  ((@parse_iff new ⟨some [104, 105], []⟩ [[10], [2, 104], [105]] (by decide)).mp rfl).2

/-! ## Merging -/

theorem mergeFrom_assoc (a b c : Message) :
    (a.mergeFrom b).mergeFrom c = a.mergeFrom (b.mergeFrom c) := by
  simp [mergeFrom, Option.or_assoc]

@[simp] theorem mergeFrom_new (m : Message) : m.mergeFrom new = m := by
  simp [mergeFrom, new]

@[simp] theorem new_mergeFrom (m : Message) : new.mergeFrom m = m := by
  simp [mergeFrom, new]

theorem addField_eq (m : Message) (field : UnknownField) :
    m.addField field = m.mergeFrom (new.addField field) := by
  unfold addField
  cases jsonOf field <;> simp [mergeFrom, setJson, new]

theorem addFields_eq (m : Message) (fields : List UnknownField) :
    m.addFields fields = m.mergeFrom (ofFields fields) := by
  induction fields generalizing m with
  | nil => exact (mergeFrom_new m).symm
  | cons field fields ih =>
    have hofFields :
        ofFields (field :: fields) = (new.addField field).mergeFrom (ofFields fields) :=
      ih (new.addField field)
    rw [addFields_cons, ih, addField_eq, mergeFrom_assoc, hofFields]

theorem ofFields_append (fields fields' : List UnknownField) :
    ofFields (fields ++ fields') = (ofFields fields).mergeFrom (ofFields fields') := by
  rw [← addFields_eq, ofFields, ofFields, addFields, addFields, addFields, List.foldl_append]

/-- Two messages one after the other are one message: what merging them gives. -/
theorem parse_append {m a b : Message} {input input' input'' : List (List UInt8)}
    (ha : m.parseFromZeroCopyStream input = some a)
    (hb : m.parseFromZeroCopyStream input' = some b)
    (hbytes : input''.flatten = input.flatten ++ input'.flatten)
    (hsize : input''.flatten.length < totalBytesLimit) :
    m.parseFromZeroCopyStream input'' = some (a.mergeFrom b) := by
  have hlen : input''.flatten.length = input.flatten.length + input'.flatten.length := by
    rw [hbytes, List.length_append]
  obtain ⟨-, fields, hwire, rfl⟩ := wire_of_parse (by omega) ha
  obtain ⟨-, fields', hwire', rfl⟩ := wire_of_parse (by omega) hb
  rw [← ofFields_append]
  exact parse_of_wire m (hbytes ▸ hwire.append hwire') hsize

theorem parse_append_json : new.parseFromZeroCopyStream [[10, 1, 104, 10], [2, 104, 105]] =
    some ⟨some [104, 105], []⟩ :=
  @parse_append new ⟨some [104], []⟩ ⟨some [104, 105], []⟩ [[10], [1, 104]] [[10, 2], [104, 105]] _
    rfl rfl rfl (by decide)

/-! ## Well-formed messages -/

theorem ofFields_unknownFields (fields : List UnknownField) :
    (ofFields fields).unknownFields = fields.filter fun field => (jsonOf field).isNone := by
  induction fields with
  | nil => rfl
  | cons field fields ih =>
    rw [← List.singleton_append, ofFields_append, mergeFrom, List.filter_append, ih]
    cases h : jsonOf field <;> simp [ofFields, addFields, addField, h, new, setJson]

theorem ofFields_json {fields : List UnknownField} {json : List UInt8}
    (h : (ofFields fields).json = some json) : .lengthDelimited 1 json ∈ fields := by
  induction fields with
  | nil => cases h
  | cons field fields ih =>
    rw [← List.singleton_append, ofFields_append, mergeFrom, Option.or_eq_some_iff] at h
    obtain h | ⟨-, h⟩ := h
    · exact List.mem_cons_of_mem _ (ih h)
    · cases hjson : jsonOf field with
      | none => simp [ofFields, addFields, addField, hjson, new] at h
      | some v =>
        obtain rfl : v = json := by
          simpa [ofFields, addFields, addField, hjson, new, setJson] using h
        rw [jsonOf_eq_some_iff.mp hjson]
        exact List.mem_cons_self

/-- A message that was parsed can be written. -/
theorem wellFormed_ofFields {bytes : List UInt8} (h : Wire 100 fields bytes) :
    (ofFields fields).WellFormed where
  json := fun _ hjson => Nat.le_pred_of_lt (h.length_lt (ofFields_json hjson))
  unknown := by
    rw [ofFields_unknownFields]
    exact h.filter _
  notJson := by
    intro field hmem
    rw [ofFields_unknownFields, List.mem_filter, Option.isNone_iff_eq_none] at hmem
    exact hmem.2

theorem toArray_eq (m : Message) :
    m.serializeWithCachedSizesToArray = serializeUnknownFieldsToArray m.fields := by
  cases hjson : m.json with
  | none => simp [serializeWithCachedSizesToArray, fields, hjson]
  | some json =>
    simp [serializeWithCachedSizesToArray, fields, hjson, serializeUnknownFieldsToArray,
      serializeUnknownFieldToArray]

/-- The row of fields that a message is written as, on the wire. -/
theorem WellFormed.wire (h : m.WellFormed) :
    Wire 100 m.fields m.serializeWithCachedSizesToArray := by
  obtain ⟨bytes, hwire⟩ := h.unknown
  rw [toArray_eq]
  cases hjson : m.json with
  | none =>
    simp only [Message.fields, hjson, Option.map_none, Option.toList_none, List.nil_append]
    exact hwire.serialize.1
  | some json =>
    have hlt : json.length < 2 ^ 31 := Nat.lt_of_le_pred (by decide) (h.json json hjson)
    have hlength : Whole 10 (write 5 json.length) json.length :=
      (whole_write (by decide) (show json.length < 128 ^ 5 by omega)).mono (by decide)
    have hvalue : ValueBytes 10 (.lengthDelimited 1 json) (write 5 json.length ++ json) :=
      ⟨by decide, write 5 json.length, json.length, hlength, by omega, hlt, rfl⟩
    have hnumber : (UnknownField.lengthDelimited 1 json).number = getTagFieldNumber 10 :=
      show (1 : UInt32) = getTagFieldNumber 10 by decide
    have hrow := Wire.value (tagBytes_write 10) (by decide) hnumber hvalue hwire
    simp only [Message.fields, hjson, Option.map_some, Option.toList_some, List.singleton_append]
    exact hrow.serialize.1

/-- A well-formed message is what its own fields give. -/
theorem WellFormed.ofFields_fields (h : m.WellFormed) : ofFields m.fields = m := by
  have hunknown : (ofFields m.unknownFields).unknownFields = m.unknownFields := by
    rw [ofFields_unknownFields, List.filter_eq_self]
    intro field hmem
    rw [h.notJson field hmem]
    rfl
  have hjson : (ofFields m.unknownFields).json = none := by
    by_contra hsome
    obtain ⟨json, hjson⟩ := Option.ne_none_iff_exists'.mp hsome
    cases h.notJson _ (ofFields_json hjson)
  rw [Message.fields, ofFields_append, Message.mergeFrom, hunknown, hjson, Option.none_or]
  obtain ⟨_ | json, unknownFields⟩ := m
  · rfl
  · rfl

/-! ## Writing agrees -/

theorem byteSize_eq (m : Message) :
    m.byteSize = CInt.int m.serializeWithCachedSizesToArray.length := by
  rw [byteSize, serializeWithCachedSizesToArray]
  cases m.json with
  | none => simp only [computeUnknownFieldsSize_eq]
  | some json =>
    have htag : (writeTagToArray (makeTag 1 .lengthDelimited)).length = 1 := by decide
    simp only [List.length_append, htag, computeUnknownFieldsSize_eq, varintSize32_eq,
      writeVarint32ToArray_eq]

theorem json_length_le {json : List UInt8} (h : m.json = some json) :
    json.length ≤ m.serializeWithCachedSizesToArray.length := by
  simp only [serializeWithCachedSizesToArray, h, List.length_append]
  omega

/-- The stream gets the same bytes as the array. -/
theorem serializeWithCachedSizes_eq
    (hlen : ∀ json, m.json = some json → json.length ≤ int32Max) (o : CodedOutputStream) :
    m.serializeWithCachedSizes o = some (o.writeRaw m.serializeWithCachedSizesToArray) := by
  rw [serializeWithCachedSizes, serializeWithCachedSizesToArray]
  cases hjson : m.json with
  | none => simp only [serializeUnknownFields_eq]
  | some json =>
    simp only [if_pos (hlen json hjson), serializeUnknownFields_eq,
      CodedOutputStream.writeVarint32_eq, writeTagToArray_eq, writeVarint32ToArray_eq,
      CodedOutputStream.writeRaw_append]

/-- A message whose size is an `int` passes every check, and one write of all its bytes is what
happens. -/
theorem serialize_eq (output : List ℕ)
    (hlen : m.serializeWithCachedSizesToArray.length < 2 ^ 31) :
    ∃ o, m.serializeToZeroCopyStream output = some (!o.hadError, o) ∧
      o = (CodedOutputStream.new output).writeRaw m.serializeWithCachedSizesToArray := by
  have hbyteSize : m.byteSize = m.serializeWithCachedSizesToArray.length := by
    rw [byteSize_eq]
    exact CInt.int_of_range (by omega) (by omega)
  obtain ⟨-, herr, hcount, -⟩ := CodedOutputStream.new_facts output
  rw [serializeToZeroCopyStream, serializePartialToCodedStream, hbyteSize]
  generalize CodedOutputStream.new output = o at *
  refine ⟨_, ?_, rfl⟩
  split
  · next hle =>
    rw [CodedOutputStream.writeRaw_fits (Nat.cast_le.mp hle)]
    simp [CodedOutputStream.put, herr]
  · have hjson (json : List UInt8) (h : m.json = some json) : json.length ≤ int32Max :=
      Nat.le_pred_of_lt ((json_length_le h).trans_lt hlen)
    rw [serializeWithCachedSizes_eq hjson]
    obtain ⟨-, -, he, hc, -⟩ | ⟨-, he⟩ := o.writeRaw_cases m.serializeWithCachedSizesToArray
    · simp [he, herr, hc]
    · simp [he]

/-- Where there is room, the bytes are written whole. -/
theorem serialize_fits {output : List ℕ}
    (hlen : m.serializeWithCachedSizesToArray.length < 2 ^ 31)
    (hroom : m.serializeWithCachedSizesToArray.length ≤ output.sum) :
    ∃ o, m.serializeToZeroCopyStream output = some (true, o) ∧
      o.written = m.serializeWithCachedSizesToArray := by
  obtain ⟨o, hser, rfl⟩ := serialize_eq output hlen
  obtain ⟨hwritten, herr, -, hsum⟩ := CodedOutputStream.new_facts output
  obtain ⟨-, hw, he, -⟩ | ⟨hfull, -⟩ := (CodedOutputStream.new output).writeRaw_cases
    m.serializeWithCachedSizesToArray
  · exact ⟨_, by rw [hser, he, herr, Bool.not_false], by rw [hw, hwritten, List.nil_append]⟩
  · omega

/-- What was written is the message. -/
theorem serialize_written {output : List ℕ} {o : CodedOutputStream}
    (hlen : m.serializeWithCachedSizesToArray.length < 2 ^ 31)
    (h : m.serializeToZeroCopyStream output = some (true, o)) :
    o.written = m.serializeWithCachedSizesToArray := by
  obtain ⟨o', hser, ho'⟩ := serialize_eq output hlen
  rw [hser] at h
  obtain ⟨herr, rfl⟩ := Prod.mk.inj (Option.some.inj h)
  obtain ⟨hwritten, -⟩ := CodedOutputStream.new_facts output
  obtain ⟨-, hw, -⟩ | ⟨-, he⟩ := (CodedOutputStream.new output).writeRaw_cases
    m.serializeWithCachedSizesToArray
  · rw [ho', hw, hwritten, List.nil_append]
  · rw [ho', he] at herr
    cases herr

/-- A message whose size is an `int` passes every check. It is written exactly when there is room
for it, and the bytes do not depend on what the regions are. -/
theorem serialize_iff (m : Message) (output : List ℕ)
    (hlen : m.serializeWithCachedSizesToArray.length < 2 ^ 31) :
    ∃ ok o, m.serializeToZeroCopyStream output = some (ok, o) ∧
      (ok = true ↔ m.serializeWithCachedSizesToArray.length ≤ output.sum) ∧
      (ok = true → o.written = m.serializeWithCachedSizesToArray) := by
  obtain hroom | hfull := le_or_gt m.serializeWithCachedSizesToArray.length output.sum
  · obtain ⟨o, hser, hwritten⟩ := serialize_fits hlen hroom
    exact ⟨true, o, hser, iff_of_true rfl hroom, fun _ => hwritten⟩
  · obtain ⟨o, hser, ho⟩ := serialize_eq output hlen
    obtain ⟨-, -, -, hsum⟩ := CodedOutputStream.new_facts output
    obtain ⟨hfits, -⟩ | ⟨-, he⟩ := (CodedOutputStream.new output).writeRaw_cases
      m.serializeWithCachedSizesToArray
    · omega
    · rw [← ho] at he
      rw [he, Bool.not_true] at hser
      exact ⟨false, o, hser, iff_of_false Bool.false_ne_true (Nat.not_le.mpr hfull), nofun⟩

theorem serialize_iff_regions : ∃ ok o,
    serializeToZeroCopyStream ⟨some [104, 105], []⟩ [3, 2] = some (ok, o) ∧
      (ok = true ↔ 4 ≤ 5) ∧ (ok = true → o.written = [10, 2, 104, 105]) :=
  serialize_iff ⟨some [104, 105], []⟩ [3, 2] (by decide)

/-! ## What is written is parsed -/

/-- A message that is written is parsed as itself, whatever the regions and the chunks are. -/
theorem parse_serialize {m : Message} (h : m.WellFormed)
    (hlen : m.serializeWithCachedSizesToArray.length < totalBytesLimit) {output : List ℕ}
    (hroom : m.serializeWithCachedSizesToArray.length ≤ output.sum) :
    ∃ o, m.serializeToZeroCopyStream output = some (true, o) ∧
      ∀ (old : Message) (input : List (List UInt8)), input.flatten = o.written →
        old.parseFromZeroCopyStream input = some m := by
  have hint : totalBytesLimit < 2 ^ 31 := by decide
  obtain ⟨o, hser, hwritten⟩ := serialize_fits (hlen.trans hint) hroom
  refine ⟨o, hser, fun old input hbytes => ?_⟩
  rw [hwritten] at hbytes
  have hparse := parse_of_wire old (hbytes ▸ h.wire) (hbytes ▸ hlen)
  rwa [h.ofFields_fields] at hparse

theorem parse_serialize_json : ∃ o,
    serializeToZeroCopyStream ⟨some [104, 105], []⟩ [3, 2] = some (true, o) ∧
      ∀ (old : Message) (input : List (List UInt8)), input.flatten = o.written →
        old.parseFromZeroCopyStream input = some ⟨some [104, 105], []⟩ :=
  @parse_serialize ⟨some [104, 105], []⟩
    ⟨by rintro _ ⟨⟩; decide, ⟨[], .nil 100⟩, nofun⟩ (by decide) [3, 2] (by decide)

/-! ## What is parsed is written -/

theorem length_mergeFrom_le (a b : Message) :
    (a.mergeFrom b).serializeWithCachedSizesToArray.length ≤
      a.serializeWithCachedSizesToArray.length + b.serializeWithCachedSizesToArray.length := by
  simp only [toArray_eq, fields, mergeFrom, serializeUnknownFieldsToArray_append,
    List.length_append]
  cases b.json <;> simp <;> omega

/-- A message is no longer than the fields that it was made from. -/
theorem length_ofFields_le (fields : List UnknownField) :
    (ofFields fields).serializeWithCachedSizesToArray.length ≤
      (serializeUnknownFieldsToArray fields).length := by
  induction fields with
  | nil => exact le_rfl
  | cons field fields ih =>
    have hmerge := length_mergeFrom_le (ofFields [field]) (ofFields fields)
    have hone : (ofFields [field]).fields = [field] := by
      cases hjson : jsonOf field with
      | none => simp [ofFields, addFields, addField, hjson, new, Message.fields]
      | some json =>
        obtain rfl := jsonOf_eq_some_iff.mp hjson
        rfl
    rw [← ofFields_append, List.singleton_append, toArray_eq (ofFields [field]), hone] at hmerge
    rw [← List.singleton_append, serializeUnknownFieldsToArray_append, List.length_append]
    exact hmerge.trans (Nat.add_le_add_left ih _)

/-- A message that was accepted is written in no more bytes than it came in, and these are
accepted as the same message. -/
theorem reserialize {m m' : Message} {input : List (List UInt8)} {output : List ℕ}
    (hsize : input.flatten.length ≤ totalBytesLimit)
    (hparse : m.parseFromZeroCopyStream input = some m')
    (hroom : input.flatten.length ≤ output.sum) :
    ∃ o, m'.serializeToZeroCopyStream output = some (true, o) ∧
      o.written.length ≤ input.flatten.length ∧
      ∀ (old : Message) (input' : List (List UInt8)), input'.flatten = o.written →
        old.parseFromZeroCopyStream input' = some m' := by
  obtain ⟨hlt, fields, hwire, rfl⟩ := wire_of_parse hsize hparse
  have h := wellFormed_ofFields hwire
  have hlen := (length_ofFields_le fields).trans hwire.serialize.2
  have hint : totalBytesLimit < 2 ^ 31 := by decide
  obtain ⟨o, hser, hwritten⟩ := serialize_fits (by omega) (hlen.trans hroom)
  refine ⟨o, hser, hwritten ▸ hlen, fun old input' hbytes => ?_⟩
  rw [hwritten] at hbytes
  have hparse' := parse_of_wire old (hbytes ▸ h.wire) (by rw [hbytes]; omega)
  rwa [h.ofFields_fields] at hparse'

theorem reserialize_unknown : ∃ o,
    serializeToZeroCopyStream ⟨some [104], [.varint 2 5]⟩ [4, 4] = some (true, o) ∧
      o.written.length ≤ 6 ∧
      ∀ (old : Message) (input' : List (List UInt8)), input'.flatten = o.written →
        old.parseFromZeroCopyStream input' = some ⟨some [104], [.varint 2 5]⟩ :=
  @reserialize new _ [[16, 133], [0, 10, 1, 104]] [4, 4] (by decide) rfl (by decide)

end Message

end Inspect
end NgxRpc
