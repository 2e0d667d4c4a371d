import NgxRpc.Routes

/-!
# Names of proto files

What the generator makes of the name of a proto file: the directory and the suffix are taken
off, and letters are put into lower case.

## Main definitions

- `stripProto`, `lower` — the functions
- `ProtoFile` — the names, with their parts

## Main results

- `stripProto_name` — the base name is what is left
- `exists_protoFile` — every path with a suffix of proto files is such a name
-/

namespace NgxRpc

/-- `filename.rfind("/")`, with `none` for `npos`. -/
def rfindSlash (filename : List UInt8) : Option ℕ :=
  (filename.reverse.findIdx? (· = slash)).map (filename.length - 1 - ·)

/-- What follows the last slash of a path. -/
def afterSlash (filename : List UInt8) : List UInt8 :=
  match rfindSlash filename with
  | some pos => filename.drop (pos + 1)
  | none => filename

/-- `StripSuffix`. -/
def stripSuffix (filename suffix : List UInt8) : List UInt8 × Bool :=
  if suffix.length ≤ filename.length ∧ filename.drop (filename.length - suffix.length) = suffix then
    (filename.take (filename.length - suffix.length), true)
  else (filename, false)

/-- `StripProto`. -/
def stripProto (filename : List UInt8) : List UInt8 :=
  let filename := afterSlash filename
  let (stripped, found) := stripSuffix filename (asciiBytes ".protodevel")
  if found then stripped else (stripSuffix filename (asciiBytes ".proto")).1

/-- `Lower`. -/
def lower (input : List UInt8) : List UInt8 := input.map asciiLower

theorem findIdx?_slash_of_notMem {base : List UInt8} (h : slash ∉ base) :
    base.reverse.findIdx? (· = slash) = none := by
  rw [List.findIdx?_eq_none_iff]
  intro c hc
  simp only [decide_eq_false_iff_not]
  rintro rfl
  exact h (List.mem_reverse.mp hc)

theorem afterSlash_append {dir base : List UInt8} (h : slash ∉ base) :
    afterSlash (dir ++ slash :: base) = base := by
  have hfind : rfindSlash (dir ++ slash :: base) = some dir.length := by
    have hrev : (dir ++ slash :: base).reverse = base.reverse ++ slash :: dir.reverse := by simp
    rw [rfindSlash, hrev, List.findIdx?_append, findIdx?_slash_of_notMem h]
    simp [List.findIdx?_cons]
  simp [afterSlash, hfind]

theorem afterSlash_of_notMem {base : List UInt8} (h : slash ∉ base) : afterSlash base = base := by
  rw [afterSlash, rfindSlash, findIdx?_slash_of_notMem h]
  rfl

theorem stripSuffix_append (base suffix : List UInt8) :
    stripSuffix (base ++ suffix) suffix = (base, true) := by
  simp [stripSuffix]

theorem stripSuffix_of_not_suffix {filename suffix : List UInt8} (h : ¬suffix <:+ filename) :
    stripSuffix filename suffix = (filename, false) := by
  rw [stripSuffix, if_neg]
  rintro ⟨-, hdrop⟩
  exact h (hdrop ▸ List.drop_suffix _ _)

/-- The name of a proto file: a directory with its last slash, or none, the base name, and
one of the suffixes. -/
structure ProtoFile where
  dir : List UInt8
  base : List UInt8
  suffix : List UInt8
  dir_ok : dir = [] ∨ dir.getLast? = some slash
  base_ok : slash ∉ base
  suffix_ok : suffix ∈ [asciiBytes ".proto", asciiBytes ".protodevel"]

/-- `file->name()`. -/
def ProtoFile.name (f : ProtoFile) : List UInt8 := f.dir ++ f.base ++ f.suffix

theorem afterSlash_name (f : ProtoFile) : afterSlash f.name = f.base ++ f.suffix := by
  have hsuffix : ∀ suffix ∈ [asciiBytes ".proto", asciiBytes ".protodevel"], slash ∉ suffix := by
    decide +kernel
  have hbase : slash ∉ f.base ++ f.suffix := by
    rw [List.mem_append, not_or]
    exact ⟨f.base_ok, hsuffix f.suffix f.suffix_ok⟩
  obtain hdir | hdir := f.dir_ok
  · rw [ProtoFile.name, hdir]
    exact afterSlash_of_notMem hbase
  · obtain ⟨dir, hdir⟩ := List.getLast?_eq_some_iff.mp hdir
    rw [ProtoFile.name, hdir, List.append_assoc, List.append_assoc]
    exact afterSlash_append hbase

/-- The name of the file, without directory and suffix. -/
theorem stripProto_name (f : ProtoFile) : stripProto f.name = f.base := by
  rw [stripProto, afterSlash_name]
  obtain hsuffix | hsuffix := List.mem_pair.mp f.suffix_ok
  · -- a name that ends in `.proto` does not end in `.protodevel`
    have hnot : ¬asciiBytes ".protodevel" <:+ f.base ++ f.suffix := by
      intro hdevel
      have hproto : asciiBytes ".proto" <:+ f.base ++ f.suffix := hsuffix ▸ List.suffix_append _ _
      obtain h | h := List.suffix_or_suffix_of_suffix hproto hdevel
      · revert h
        decide +kernel
      · revert h
        decide +kernel
    simp only [stripSuffix_of_not_suffix hnot, Bool.false_eq_true, if_false]
    rw [hsuffix, stripSuffix_append]
  · simp only [hsuffix, stripSuffix_append, if_true]

/-- Every path that ends in one of the suffixes is such a name. -/
theorem exists_protoFile {path suffix : List UInt8}
    (hsuffix : suffix ∈ [asciiBytes ".proto", asciiBytes ".protodevel"]) (h : suffix <:+ path) :
    ∃ f : ProtoFile, f.name = path := by
  obtain ⟨front, rfl⟩ := h
  by_cases hslash : slash ∈ front
  · -- split at the last slash
    obtain ⟨base, dir, hrev, hbase⟩ := List.eq_append_cons_of_mem (List.mem_reverse.mpr hslash)
    have hfront : front = (dir.reverse ++ [slash]) ++ base.reverse := by
      rw [← List.reverse_reverse front, hrev]
      simp
    exact ⟨⟨dir.reverse ++ [slash], base.reverse, suffix, Or.inr (by simp),
      by simpa using hbase, hsuffix⟩, by rw [hfront, ProtoFile.name]⟩
  · exact ⟨⟨[], front, suffix, Or.inl rfl, hslash, hsuffix⟩, rfl⟩

end NgxRpc
