import NgxRpc.Generator
import NgxRpc.Foundation.References

/-!
# Files of a generated module

For a proto file the generator writes a header, a source and an nginx `config`, under the
name of the file without its directory and suffix. The texts it writes into them refer to
these files, and to those of protoc's C++ generator, by this name in lower case. What they refer
to is read out of the printed lines.

## Main definitions

- `marks` — the lines that refer to a file of the module
- `generate` — the files that are written
- `RefersToFiles` — every file that they refer to exists

## Main results

- `exists_generate` — the texts of the files, and what they refer to
- `refersToFiles_iff` — the proto files for which all of it exists
-/

namespace NgxRpc
open Template

namespace Generator

/-- The includes of `_impl.h` and `.pb.h` files in the C++ files, and the files that `config` lists
in `NGX_ADDON_SRCS` and `NGX_ADDON_DEPS`. -/
def marks : List Mark :=
  let headers := [lit "_impl.h" rfl, lit ".pb.h" rfl]
  [⟨lit "#include \"" rfl, lit "\"" rfl, headers⟩,
    ⟨lit "    #include \"" rfl, lit "\"" rfl, headers⟩,
    ⟨lit "    $ngx_addon_dir/" rfl, lit " \\" rfl, [[]]⟩,
    ⟨lit "    $ngx_addon_dir/" rfl, lit " \"" rfl, [[]]⟩]

/-- A file that is generated: its path, and what is printed into it, a piece at a time. -/
structure GeneratedFile where
  path : List UInt8
  pieces : List (List UInt8)
deriving DecidableEq

/-- The files of the module that the text of a generated file refers to. -/
def GeneratedFile.refs (f : GeneratedFile) : List (List UInt8) :=
  f.pieces.flatMap (references marks)

/-- `NginxRpcGenerator::Generate`; `none` stands for the error without
`cc_generic_services`. -/
def generate (ccGenericServices : Bool) (file : FileDescriptor) : Option (List GeneratedFile) :=
  if ccGenericServices then do
    let name := stripProto file.name
    let dir := lit "ngx_rpc_" rfl ++ name ++ lit "_module/" rfl
    let header ← printServerImplHeader formatPieces file
    let source ← printNgxModuleHeader formatPieces file
    let config ← printNgxConfig (formatPiecesWith configDelimiter) file
    some [⟨dir ++ name ++ lit "_impl.h" rfl, header⟩,
      ⟨dir ++ lit "ngx_http_" rfl ++ name ++ lit "_module.cpp" rfl, source⟩,
      ⟨dir ++ lit "config" rfl, config⟩]
  else none

/-! ## The pieces of a text -/

theorem format_eq_flatten (vars : Vars) (start : List (List UInt8)) (lt : ℕ) :
    format vars start lt = (formatPieces vars start lt).map List.flatten :=
  formatWith_eq_flatten delimiter vars start lt

theorem headerParts_flatten (file : FileDescriptor) (ns path nsEnd : List UInt8) :
    headerParts format file ns path nsEnd =
      (headerParts formatPieces file ns path nsEnd).map List.flatten := by
  simp only [headerParts, map_flatten_concat, List.map_cons, List.map_nil, List.map_map,
    Function.comp_def, ← format_eq_flatten]

theorem moduleParts_flatten (file : FileDescriptor) (ns path : List UInt8) :
    moduleParts format file ns path = (moduleParts formatPieces file ns path).map List.flatten := by
  simp only [moduleParts, map_flatten_concat, List.map_cons, List.map_nil, List.map_map,
    Function.comp_def, ← format_eq_flatten]

/-! ## What the texts refer to -/

/-- The names in the templates of a part, with the variables `vs` in it. -/
def formatReferences (delimiter : UInt8) (vs : List Var) (start : List (List UInt8)) (lt : ℕ) :
    Option (List (List (Sym Var))) :=
  templateReferences delimiter Var.ofName marks vs (formatted start lt)

section Filled

variable {vars : Vars} {vs : List Var}

theorem filled_set (h : Filled vars vs) (key : Var) (value : List UInt8) :
    Filled (vars.set key value) (key :: vs) := by
  intro v hv
  rw [Vars.set]
  split
  · rfl
  · next hne => exact h v ((List.mem_cons.mp hv).resolve_left hne)

theorem filled_service (h : Filled vars vs) (s : ServiceDescriptor) :
    Filled (serviceVars vars s) ([.protoServerNameLower, .protoServerName] ++ vs) :=
  filled_set (filled_set h _ _) _ _

theorem filled_method (h : Filled vars vs) (m : MethodDescriptor) :
    Filled (methodVars vars m) ([.protoServerMethodResponseName, .protoServerMethodRequestName,
      .protoServerMethodName] ++ vs) :=
  filled_set (filled_set (filled_set h _ _) _ _) _ _

/-- The variables of a file. -/
def fileKeys : List Var :=
  [.protoNamepath, .protoNamespace, .protoPackage, .protoNameUpper, .protoName]

theorem filled_file (file : FileDescriptor) (ns path : List UInt8) :
    Filled (fileVars file ns path) fileKeys :=
  filled_set (filled_set (filled_set (filled_set (filled_set (fun _ hv => by cases hv) _ _)
    _ _) _ _) _ _) _ _

/-- What a part refers to. -/
theorem cites_format (h : Filled vars vs) {delimiter : UInt8} {start : List (List UInt8)} {lt : ℕ}
    {names : List (List (Sym Var))} (hnames : formatReferences delimiter vs start lt = some names) :
    Cites marks (formatPiecesWith delimiter vars start lt)
      (names.map (List.flatMap (Sym.value vars))) :=
  cites_template h hnames

/-- A part without references. -/
theorem cites_quiet (h : Filled vars vs) {start : List (List UInt8)} {lt : ℕ}
    (hquiet : formatReferences delimiter vs start lt = some []) :
    Cites marks (formatPieces vars start lt) [] :=
  cites_format h hquiet

end Filled

/-- The header refers to the header of protoc. -/
theorem cites_headerParts (file : FileDescriptor) (ns path nsEnd : List UInt8) :
    Cites marks (headerParts formatPieces file ns path nsEnd)
      [lower (stripProto file.name) ++ lit ".pb.h" rfl] := by
  have h := filled_file file ns path
  have hend := filled_set h .protoNamespace nsEnd
  have hinclude : formatReferences delimiter fileKeys ngxRpcServerInclude pMargin =
      some [.var .protoName :: (lit ".pb.h" rfl).map .byte] := by
    decide +kernel
  rw [headerParts]
  refine .skip (cites_quiet h (by decide +kernel)) (.cons (cites_format h hinclude) ?_)
  refine .skip (cites_quiet h (by decide +kernel)) (.skip (.each fun s _ => ?_) ?_)
  · have hs := filled_service h s
    refine .skip (cites_quiet hs (by decide +kernel)) (.skip (.each fun m _ => ?_) ?_)
    · exact cites_quiet (filled_method hs m) (by decide +kernel)
    · exact .skip (cites_quiet hs (by decide +kernel)) .nil
  · exact .skip (cites_quiet hend (by decide +kernel))
      (.skip (cites_quiet hend (by decide +kernel)) .nil)

/-- The source file refers to the header. -/
theorem cites_moduleParts (file : FileDescriptor) (ns path : List UInt8) :
    Cites marks (moduleParts formatPieces file ns path)
      [lower (stripProto file.name) ++ lit "_impl.h" rfl] := by
  have h := filled_file file ns path
  have hinclude : formatReferences delimiter fileKeys ngxRpcModuleInlucde pMargin =
      some [.var .protoName :: (lit "_impl.h" rfl).map .byte] := by
    decide +kernel
  rw [moduleParts]
  refine .cons (cites_format h hinclude) (.skip (cites_quiet h (by decide +kernel)) ?_)
  refine .skip (.each fun s _ => cites_quiet (filled_service h s) (by decide +kernel)) ?_
  refine .skip (cites_quiet h (by decide +kernel)) ?_
  refine .skip (.each fun s _ => cites_quiet (filled_service h s) (by decide +kernel)) ?_
  -- the commands
  refine .skip (cites_quiet h (by decide +kernel)) ?_
  refine .skip (.each fun s _ => cites_quiet (filled_service h s) (by decide +kernel)) ?_
  refine .skip (cites_quiet h (by decide +kernel)) ?_
  -- the declarations of the module
  refine .skip (cites_quiet h (by decide +kernel)) (.skip (cites_quiet h (by decide +kernel)) ?_)
  refine .skip (cites_quiet h (by decide +kernel)) (.skip (cites_quiet h (by decide +kernel)) ?_)
  -- the function that creates the configuration
  refine .skip (cites_quiet h (by decide +kernel)) ?_
  refine .skip (.each fun s _ => cites_quiet (filled_service h s) (by decide +kernel)) ?_
  refine .skip (cites_quiet h (by decide +kernel)) ?_
  -- the handlers
  refine .skip (.each fun s _ => .each fun m _ => ?_) ?_
  · exact cites_quiet (filled_method (filled_service h s) m) (by decide +kernel)
  refine .skip (.each fun s _ => ?_) ?_
  · have hs := filled_service h s
    refine .skip (cites_quiet hs (by decide +kernel)) (.skip (.each fun m _ => ?_) ?_)
    · exact cites_quiet (filled_method hs m) (by decide +kernel)
    · exact .skip (cites_quiet hs (by decide +kernel)) .nil
  -- the function that ends the process
  refine .skip (cites_quiet h (by decide +kernel)) ?_
  refine .skip (.each fun s _ => cites_quiet (filled_service h s) (by decide +kernel)) ?_
  exact .skip (cites_quiet h (by decide +kernel)) .nil

/-- The configuration refers to the source files and headers of the module. -/
theorem cites_config {vars : Vars} {name : List UInt8} (hname : vars .protoName = some name) :
    Cites marks (formatPiecesWith configDelimiter vars ngxRpcConfig pMargin)
      [name ++ lit ".pb.cc" rfl, lit "ngx_http_" rfl ++ (name ++ lit "_module.cpp" rfl),
        name ++ lit "_impl.h" rfl, name ++ lit ".pb.h" rfl] := by
  have h : Filled vars [.protoName] := by
    intro v hv
    rw [List.mem_singleton.mp hv, hname]
    rfl
  have hlisted : formatReferences configDelimiter [.protoName] ngxRpcConfig pMargin =
      some [.var .protoName :: (lit ".pb.cc" rfl).map .byte,
        (lit "ngx_http_" rfl).map .byte ++ .var .protoName :: (lit "_module.cpp" rfl).map .byte,
        .var .protoName :: (lit "_impl.h" rfl).map .byte,
        .var .protoName :: (lit ".pb.h" rfl).map .byte] := by
    decide +kernel
  have hcites := cites_format h hlisted
  simpa [Sym.value, hname] using hcites

section Texts

variable (file : FileDescriptor)

theorem exists_replaceDot (rep : List UInt8) :
    ∃ text, replaceDot (dotted file.package) rep = some text :=
  ⟨_, replaceDot_dotted file.package rep⟩

/-- The header is printed, in pieces that refer to the header of protoc. -/
theorem exists_serverImplHeader :
    ∃ ps, printServerImplHeader formatPieces file = some ps ∧
      getServerImplHeader file = some ps.flatten ∧
        ps.flatMap (references marks) = [lower (stripProto file.name) ++ lit ".pb.h" rfl] := by
  obtain ⟨ns, hns⟩ := exists_replaceDot file (lit " \x7b\nnamespace " rfl)
  obtain ⟨path, hpath⟩ := exists_replaceDot file (lit "/" rfl)
  obtain ⟨nsEnd, hnsEnd⟩ := exists_replaceDot file (lit " \n\x7d //for " rfl)
  obtain ⟨ps, hps, hrefs⟩ := cites_headerParts file ns path nsEnd
  have htext := headerParts_flatten file ns path nsEnd
  rw [hps, Option.map_some] at htext
  exact ⟨ps, printServerImplHeader_of_parts formatPieces_mono hns hpath hnsEnd hps,
    printServerImplHeader_of_parts format_mono hns hpath hnsEnd htext, hrefs⟩

/-- The source file is printed, in pieces that refer to the header. -/
theorem exists_ngxModuleHeader :
    ∃ ps, printNgxModuleHeader formatPieces file = some ps ∧
      getNgxModuleHeader file = some ps.flatten ∧
        ps.flatMap (references marks) = [lower (stripProto file.name) ++ lit "_impl.h" rfl] := by
  obtain ⟨ns, hns⟩ := exists_replaceDot file (lit "::" rfl)
  obtain ⟨path, hpath⟩ := exists_replaceDot file (lit "/" rfl)
  obtain ⟨ps, hps, hrefs⟩ := cites_moduleParts file ns path
  have htext := moduleParts_flatten file ns path
  rw [hps, Option.map_some] at htext
  exact ⟨ps, printNgxModuleHeader_of_parts formatPieces_mono hns hpath hps,
    printNgxModuleHeader_of_parts format_mono hns hpath htext, hrefs⟩

theorem printNgxConfig_eq {α : Type} (fmt : Format α) : printNgxConfig fmt file =
    fmt (Vars.set (fun _ => none) .protoName (lower (stripProto file.name))) ngxRpcConfig
      pMargin := by
  show ((fmt _ ngxRpcConfig pMargin).map _).map _ = _
  cases fmt (Vars.set (fun _ => none) .protoName (lower (stripProto file.name))) ngxRpcConfig
    pMargin <;> rfl

/-- The configuration is printed, in pieces that refer to all four files. -/
theorem exists_ngxConfig :
    ∃ ps, printNgxConfig (formatPiecesWith configDelimiter) file = some ps ∧
      getNgxConfig file = some ps.flatten ∧ ps.flatMap (references marks) =
        [lower (stripProto file.name) ++ lit ".pb.cc" rfl,
          lit "ngx_http_" rfl ++ (lower (stripProto file.name) ++ lit "_module.cpp" rfl),
          lower (stripProto file.name) ++ lit "_impl.h" rfl,
          lower (stripProto file.name) ++ lit ".pb.h" rfl] := by
  obtain ⟨ps, hps, hrefs⟩ := @cites_config (Vars.set (fun _ => none) .protoName _) _ rfl
  refine ⟨ps, (printNgxConfig_eq file _).trans hps, ?_, hrefs⟩
  rw [getNgxConfig, printNgxConfig_eq, formatWith_eq_flatten, hps, Option.map_some]

/-- The three files, with the texts of the three functions, and what they refer to. -/
theorem exists_generate :
    let name := stripProto file.name
    let dir := lit "ngx_rpc_" rfl ++ name ++ lit "_module/" rfl
    ∃ header source config : List (List UInt8), generate true file = some
        [⟨dir ++ name ++ lit "_impl.h" rfl, header⟩,
          ⟨dir ++ lit "ngx_http_" rfl ++ name ++ lit "_module.cpp" rfl, source⟩,
          ⟨dir ++ lit "config" rfl, config⟩] ∧
      getServerImplHeader file = some header.flatten ∧
        getNgxModuleHeader file = some source.flatten ∧ getNgxConfig file = some config.flatten ∧
          (header ++ source ++ config).flatMap (references marks) =
            [lower name ++ lit ".pb.h" rfl, lower name ++ lit "_impl.h" rfl,
              lower name ++ lit ".pb.cc" rfl,
              lit "ngx_http_" rfl ++ (lower name ++ lit "_module.cpp" rfl),
              lower name ++ lit "_impl.h" rfl, lower name ++ lit ".pb.h" rfl] := by
  intro name dir
  obtain ⟨header, hheader, hheaderText, hheaderRefs⟩ := exists_serverImplHeader file
  obtain ⟨source, hsource, hsourceText, hsourceRefs⟩ := exists_ngxModuleHeader file
  obtain ⟨config, hconfig, hconfigText, hconfigRefs⟩ := exists_ngxConfig file
  refine ⟨header, source, config, ?_, hheaderText, hsourceText, hconfigText, ?_⟩
  · rw [generate, if_pos rfl, hheader, hsource, hconfig]
    rfl
  · rw [List.flatMap_append, List.flatMap_append, hheaderRefs, hsourceRefs, hconfigRefs]
    rfl

end Texts

end Generator

/-! ## What exists -/

open Generator (GeneratedFile)

/-- What protoc's C++ generator emits for a file with this base name. -/
def protocFiles (base : List UInt8) : List (List UInt8) :=
  [base ++ lit ".pb.h" rfl, base ++ lit ".pb.cc" rfl]

/-- Every file that a generated file refers to is generated, by this generator or by
protoc's. -/
def RefersToFiles (ccGenericServices : Bool) (f : ProtoFile) (package : List Identifier)
    (services : List Generator.ServiceDescriptor) : Prop :=
  ∀ files ∈ Generator.generate ccGenericServices ⟨f.name, package, services⟩, ∀ file ∈ files,
    ∀ ref ∈ file.refs,
      ref ∈ files.map (fun file => afterSlash file.path) ++ protocFiles f.base

theorem afterSlash_module {name file : List UInt8} (h : slash ∉ file) :
    afterSlash (lit "ngx_rpc_" rfl ++ name ++ lit "_module/" rfl ++ file) = file := by
  have hslash : lit "_module/" rfl = lit "_module" rfl ++ [slash] := by decide +kernel
  rw [hslash, ← List.append_assoc, List.append_assoc, List.singleton_append]
  exact afterSlash_append h

section Exist

variable (f : ProtoFile) (package : List Identifier) (services : List Generator.ServiceDescriptor)

/-- The base names of what is generated, and what it refers to. -/
theorem exists_names : ∃ files,
    Generator.generate true ⟨f.name, package, services⟩ = some files ∧
      files.map (fun file => afterSlash file.path) = [f.base ++ lit "_impl.h" rfl,
        lit "ngx_http_" rfl ++ f.base ++ lit "_module.cpp" rfl, lit "config" rfl] ∧
      files.flatMap GeneratedFile.refs = [lower f.base ++ lit ".pb.h" rfl,
        lower f.base ++ lit "_impl.h" rfl, lower f.base ++ lit ".pb.cc" rfl,
        lit "ngx_http_" rfl ++ (lower f.base ++ lit "_module.cpp" rfl),
        lower f.base ++ lit "_impl.h" rfl, lower f.base ++ lit ".pb.h" rfl] := by
  have hfixed : ∀ s ∈ [lit "_impl.h" rfl, lit "ngx_http_" rfl, lit "_module.cpp" rfl,
      lit "config" rfl], slash ∉ s := by
    decide +kernel
  have himpl : slash ∉ f.base ++ lit "_impl.h" rfl := by
    rw [List.mem_append, not_or]
    exact ⟨f.base_ok, hfixed _ (by simp)⟩
  have hcpp : slash ∉ lit "ngx_http_" rfl ++ f.base ++ lit "_module.cpp" rfl := by
    rw [List.mem_append, List.mem_append, not_or, not_or]
    exact ⟨⟨hfixed _ (by simp), f.base_ok⟩, hfixed _ (by simp)⟩
  have hconfig : slash ∉ lit "config" rfl := hfixed _ (by simp)
  obtain ⟨header, source, config, hgenerate, -, -, -, hrefs⟩ :=
    Generator.exists_generate ⟨f.name, package, services⟩
  simp only [stripProto_name] at hgenerate hrefs
  refine ⟨_, hgenerate, ?_, ?_⟩
  · simp only [List.map_cons, List.map_nil]
    rw [List.append_assoc _ f.base, afterSlash_module himpl, List.append_assoc _ (lit _ _) f.base,
      List.append_assoc _ (_ ++ _), afterSlash_module hcpp, afterSlash_module hconfig]
  · rw [← hrefs]
    simp [GeneratedFile.refs]

theorem refersToFiles_true_iff : RefersToFiles true f package services ↔
    ∀ ref ∈ [lower f.base ++ lit ".pb.h" rfl, lower f.base ++ lit "_impl.h" rfl,
        lower f.base ++ lit ".pb.cc" rfl,
        lit "ngx_http_" rfl ++ (lower f.base ++ lit "_module.cpp" rfl),
        lower f.base ++ lit "_impl.h" rfl, lower f.base ++ lit ".pb.h" rfl],
      ref ∈ [f.base ++ lit "_impl.h" rfl,
        lit "ngx_http_" rfl ++ f.base ++ lit "_module.cpp" rfl, lit "config" rfl] ++
          protocFiles f.base := by
  obtain ⟨files, hfiles, hpaths, hrefs⟩ := exists_names f package services
  rw [← hpaths, ← hrefs, RefersToFiles, hfiles]
  constructor
  · intro h ref href
    obtain ⟨file, hfile, href⟩ := List.mem_flatMap.mp href
    exact h files rfl file hfile ref href
  · intro h files' hsome file hfile ref href
    obtain rfl := Option.some.inj hsome
    exact h ref (List.mem_flatMap.mpr ⟨file, hfile, href⟩)

end Exist

/-- The names in the generated texts are right exactly when the base name of the proto file
has no upper-case letter. -/
theorem refersToFiles_iff (cc : Bool) (f : ProtoFile) (package : List Identifier)
    (services : List Generator.ServiceDescriptor) :
    RefersToFiles cc f package services ↔ cc = false ∨ ∀ c ∈ f.base, ¬IsUpper c := by
  cases cc with
  | false => exact iff_of_true (fun files hfiles => by cases hfiles) (Or.inl rfl)
  | true =>
    have hlower : lower f.base = f.base ↔ ∀ c ∈ f.base, ¬IsUpper c := strlow_eq_iff f.base
    rw [refersToFiles_true_iff, ← hlower]
    constructor
    · intro h
      right
      have hlen : (lower f.base).length = f.base.length := List.length_map _
      have hcc : (lit ".pb.cc" rfl).length = 6 := by decide +kernel
      have himpl : (lit "_impl.h" rfl).length = 7 := by decide +kernel
      have hcpp : (lit "_module.cpp" rfl).length = 11 := by decide +kernel
      have hconfig : (lit "config" rfl).length = 6 := by decide +kernel
      have hpb : (lit ".pb.h" rfl).length = 5 := by decide +kernel
      have hmem := h (lower f.base ++ lit ".pb.cc" rfl) (by simp)
      simp only [protocFiles, List.cons_append, List.nil_append, List.mem_cons, List.not_mem_nil,
        or_false] at hmem
      obtain heq | heq | heq | heq | heq := hmem
      · have hlens := congrArg List.length heq
        simp only [List.length_append] at hlens
        omega
      · have hlens := congrArg List.length heq
        simp only [List.length_append] at hlens
        omega
      · have hlens := congrArg List.length heq
        simp only [List.length_append] at hlens
        have hnil : f.base = [] := List.eq_nil_of_length_eq_zero (by omega)
        rw [hnil]
        rfl
      · have hlens := congrArg List.length heq
        simp only [List.length_append] at hlens
        omega
      · exact List.append_cancel_right heq
    · rintro (hfalse | heq)
      · cases hfalse
      · rw [heq]
        simp [protocFiles]

/-- `Foo.proto`. -/
def fooProto : ProtoFile where
  dir := []
  base := lit "Foo" rfl
  suffix := asciiBytes ".proto"
  dir_ok := Or.inl rfl
  base_ok := by decide +kernel
  suffix_ok := by decide +kernel

/-- The module of `Foo.proto` includes `foo_impl.h`, but `Foo_impl.h` is generated. -/
theorem not_refersToFiles_foo : ¬RefersToFiles true fooProto [] [] := by
  intro h
  have hmem := (refersToFiles_true_iff fooProto [] []).mp h
    (lower fooProto.base ++ lit "_impl.h" rfl) (by simp)
  revert hmem
  decide +kernel

end NgxRpc
