import NgxRpc.GeneratedNames
import NgxRpc.Templates
import NgxRpc.Foundation.Printer

/-!
# The texts of generated files

`GetServerImplHeader`, `GetNgxModuleHeader` and `GetNgxConfig`, which print the templates for all
services and methods of a proto file. protobuf's `Printer` puts the values of variables in the place
of their names. The variables are set anew in each pass of a loop and keep their values
behind it, so a file is first reduced to parts, each with the variables set for it.

## Main definitions

- `FileDescriptor` — a proto file, with its package, its services and their methods
- `format`, `formatPieces` — the templates of one part of a file, printed as one text or one by one
- `getServerImplHeader`, `getNgxModuleHeader`, `getNgxConfig` — the files
- `headerParts`, `moduleParts` — their parts

## Main results

- `replaceDot_dotted` — the package with another separator
- `format_mono` — variables that a part does not print do not matter to it
- `printServerImplHeader_of_parts`, `printNgxModuleHeader_of_parts` — the files consist of their
  parts
- `print_methodItem` — the routes and the handler that are registered for a method
-/

namespace NgxRpc.Generator
open Template

/-! ## Descriptors -/

/-- A method, with the names of its message types. -/
structure MethodDescriptor where
  name : Identifier
  inputType : Identifier
  outputType : Identifier

structure ServiceDescriptor where
  name : Identifier
  methods : List MethodDescriptor

/-- A proto file. The package is given by its components. -/
structure FileDescriptor where
  name : List UInt8
  package : List Identifier
  services : List ServiceDescriptor

/-- A proto file from whose name, a path, the generator takes no byte that is special in C++. -/
structure PlainFile extends FileDescriptor where
  plain : ∀ c ∈ stripProto name, SourceText.Plain c

instance : Coe PlainFile FileDescriptor := ⟨PlainFile.toFileDescriptor⟩

namespace FileDescriptor

/-- The names in the file are distinct where protobuf asks for it. -/
structure Accepted (file : FileDescriptor) : Prop where
  services : (file.services.map ServiceDescriptor.name).Nodup
  methods : ∀ s ∈ file.services, (s.methods.map MethodDescriptor.name).Nodup

/-- The names in a file that protobuf accepts. -/
def names (file : FileDescriptor) (h : file.Accepted) : NgxRpc.FileDescriptor where
  name := file.name
  services := file.services.attach.map fun s =>
    ⟨s.1.name, s.1.methods.map MethodDescriptor.name, h.methods s.1 s.2⟩
  nodup := by
    rw [List.map_map]
    exact (List.attach_map_val (f := ServiceDescriptor.name)).symm ▸ h.services

end FileDescriptor

/-! ## Printing -/

/-- `toupper`. -/
def asciiUpper (c : UInt8) : UInt8 := if 97 ≤ c ∧ c ≤ 122 then c - 32 else c

/-- `Upper`. -/
def upper (input : List UInt8) : List UInt8 := input.map asciiUpper

/-- The map `vars`. -/
abbrev Vars := Var → Option (List UInt8)

/-- `vars[key] = value`. -/
def Vars.set (vars : Vars) (key : Var) (value : List UInt8) : Vars :=
  fun v => if v = key then some value else vars v

/-- `Printer::Print` with the given delimiter; `none` when a variable has no value. -/
def printWith (delimiter : UInt8) (vars : Vars) (text : List UInt8) : Option (List UInt8) :=
  (parse delimiter Var.ofName text).bind (render vars)

/-- The delimiter of the C++ files. -/
def delimiter : UInt8 := 36

/-- The delimiter of `config`, in which `$` is that of the shell. -/
def configDelimiter : UInt8 := 37

def print (vars : Vars) (text : List UInt8) : Option (List UInt8) := printWith delimiter vars text

/-- The texts that `Format` prints. -/
def formatted (start : List (List UInt8)) (lt : ℕ) : List (List UInt8) :=
  (start.flatMap fun line => [line, lit "\n" rfl]) ++ List.replicate lt (lit "\n" rfl)

/-- The type of `Format`, for a printer of texts over `α`. -/
abbrev Format (α : Type) := Vars → List (List UInt8) → ℕ → Option (List α)

/-- `Format` with a printer of bytes. -/
def formatWith (delimiter : UInt8) : Format UInt8 := fun vars start lt =>
  concat ((formatted start lt).map (printWith delimiter vars))

/-- `Format` with a printer that keeps what is printed at a time apart. -/
def formatPiecesWith (delimiter : UInt8) : Format (List UInt8) := fun vars start lt =>
  concat ((formatted start lt).map fun text => (printWith delimiter vars text).map ([·]))

/-- `Format` in the C++ files. -/
def format (vars : Vars) (start : List (List UInt8)) (lt : ℕ) : Option (List UInt8) :=
  formatWith delimiter vars start lt

def formatPieces (vars : Vars) (start : List (List UInt8)) (lt : ℕ) : Option (List (List UInt8)) :=
  formatPiecesWith delimiter vars start lt

/-- With more variables the same is printed. -/
def Format.Mono {α : Type} (fmt : Format α) : Prop :=
  ∀ ⦃vars vars' : Vars⦄, Extends vars vars' → ∀ ⦃start lt text⦄,
    fmt vars start lt = some text → fmt vars' start lt = some text

/-- The symbols of these texts. -/
def symbols (start : List (List UInt8)) (lt : ℕ) : Option (List (Sym Var)) :=
  concat ((formatted start lt).map (parse delimiter Var.ofName))

theorem format_eq_render {vars : Vars} {start : List (List UInt8)} {lt : ℕ} {l : List (Sym Var)}
    (h : symbols start lt = some l) : format vars start lt = render vars l := by
  rw [← @concat_render Var vars _ _ h, List.map_map]
  rfl

theorem printWith_mono {delimiter : UInt8} {vars vars' : Vars} (h : Extends vars vars')
    {text out : List UInt8} (hp : printWith delimiter vars text = some out) :
    printWith delimiter vars' text = some out := by
  obtain ⟨l, hl, hrender⟩ := Option.bind_eq_some_iff.mp hp
  rw [printWith, hl, Option.bind_some, render_mono h hrender]

/-- A part that prints with fewer variables prints the same with more. -/
theorem format_mono : Format.Mono format :=
  fun _ _ h _ _ _ hp => concat_mono (fun _ _ hline => printWith_mono h hline) hp

theorem formatPieces_mono : Format.Mono formatPieces := by
  intro vars vars' h start lt text hp
  refine concat_mono (fun line out hline => ?_) hp
  obtain ⟨s, hs, rfl⟩ := Option.map_eq_some_iff.mp hline
  rw [printWith_mono h hs, Option.map_some]

/-- The pieces make up the text. -/
theorem formatWith_eq_flatten (delimiter : UInt8) (vars : Vars) (start : List (List UInt8))
    (lt : ℕ) :
    formatWith delimiter vars start lt =
      (formatPiecesWith delimiter vars start lt).map List.flatten := by
  rw [formatWith, formatPiecesWith, map_flatten_concat, List.map_map]
  congr 2
  funext text
  cases h : printWith delimiter vars text <;> simp [h]

/-- `P_MARGIN`. -/
def pMargin : ℕ := 3

/-! ## The generated files -/

/-- `Replace` with `.` as the search string. -/
def replaceDot (input rep : List UInt8) : Option (List UInt8) :=
  replace (input.length + 1) input [dot] rep

/-- The components of a package are what its dots separate. -/
theorem splits_dotted (id : Identifier) (ids : List Identifier) :
    Search.Splits [dot] (dotted (id :: ids)) ((id :: ids).map Identifier.bytes) := by
  induction ids generalizing id with
  | nil =>
    refine .last fun hinfix => id.dot_notMem ?_
    exact hinfix.subset (List.mem_singleton_self dot)
  | cons id' ids ih =>
    refine .cons (b := dotted (id' :: ids)) ?_ (ih id')
    intro a b he
    by_contra hlt
    -- an earlier dot would be one of the first component
    have hdot : (id.bytes ++ dot :: dotted (id' :: ids))[a.length]? = some dot := by
      have he' : id.bytes ++ dot :: dotted (id' :: ids) = a ++ ([dot] ++ b) := he
      rw [he', List.getElem?_append_right le_rfl]
      simp
    rw [List.getElem?_append_left (by omega)] at hdot
    exact id.dot_notMem (List.mem_of_getElem? hdot)

/-- The package with its dots replaced. -/
theorem replaceDot_dotted (package : List Identifier) (rep : List UInt8) :
    replaceDot (dotted package) rep = some (rep.intercalate (package.map Identifier.bytes)) := by
  rw [replaceDot, replace_eq_some (List.cons_ne_nil _ _) (Nat.lt_succ_self _)]
  cases package with
  | nil =>
    rw [dotted, Search.replaced]
    rfl
  | cons id ids =>
    exact congrArg some
      (Search.replaced_of_splits (List.cons_ne_nil _ _) rep (splits_dotted id ids))

/-- The variables that are set for the whole file, with the value of `PROTO_NAMESPACE`. -/
def fileVars (file : FileDescriptor) (ns path : List UInt8) : Vars :=
  let name := lower (stripProto file.name)
  ((((Vars.set (fun _ => none) .protoName name).set .protoNameUpper (upper name)).set
    .protoPackage (dotted file.package)).set .protoNamespace ns).set .protoNamepath path

/-- The variables that are set for a service. -/
def serviceVars (vars : Vars) (s : ServiceDescriptor) : Vars :=
  (vars.set .protoServerName s.name.bytes).set .protoServerNameLower (lower s.name.bytes)

/-- The variables that are set for a method. -/
def methodVars (vars : Vars) (m : MethodDescriptor) : Vars :=
  ((vars.set .protoServerMethodName m.name.bytes).set .protoServerMethodRequestName
    m.inputType.bytes).set .protoServerMethodResponseName m.outputType.bytes

section Files

variable {α : Type} (format : Format α) (file : FileDescriptor)

/-- `GetServerImplHeader`, for a printer of texts over `α`. -/
def printServerImplHeader : Option (List α) := do
  let package := dotted file.package
  let ns ← replaceDot package (lit " \x7b\nnamespace " rfl)
  let path ← replaceDot package (lit "/" rfl)
  let nsEnd ← replaceDot package (lit " \n\x7d //for " rfl)
  Printer.output do
    assign fun _ => fileVars file ns path
    write (format · ngxRpcServerHeaderStart pMargin)
    write (format · ngxRpcServerInclude pMargin)
    write (format · ngxRpcServerNamespaceStart pMargin)
    file.services.forM fun s => do
      assign (serviceVars · s)
      write (format · ngxRpcServerClassStart pMargin)
      s.methods.forM fun m => do
        assign (methodVars · m)
        write (format · ngxRpcServerMethod pMargin)
      write (format · ngxRpcServerClassEnd pMargin)
    assign (Vars.set · .protoNamespace nsEnd)
    write (format · ngxRpcServerNamespaceEnd pMargin)
    write (format · ngxRpcServerHeaderEnd pMargin)

/-- `GetNgxModuleHeader`, for a printer of texts over `α`. -/
def printNgxModuleHeader : Option (List α) := do
  let package := dotted file.package
  let ns ← replaceDot package (lit "::" rfl)
  let path ← replaceDot package (lit "/" rfl)
  Printer.output do
    assign fun _ => fileVars file ns path
    write (format · ngxRpcModuleInlucde pMargin)
    write (format · ngxPrcModuleConfStart 0)
    file.services.forM fun s => do
      assign (serviceVars · s)
      write (format · ngxRpcModuleConfServers 1)
    write (format · ngxPrcModuleConfEnd pMargin)
    file.services.forM fun s => do
      assign (serviceVars · s)
      write (format · ngxRpcServerSetConf 1)
    write (format · ngxRpcCommandsStart 0)
    file.services.forM fun s => do
      assign (serviceVars · s)
      write (format · ngxRpcCommandsItems 0)
    write (format · ngxRpcCommandsEnd pMargin)
    write (format · ngxRpcHttpModuleDecalres 1)
    write (format · ngxRpcHttpModuleDefine pMargin)
    write (format · ngxRpcMoudleDecarles 1)
    write (format · ngxRpcMoudleDefine pMargin)
    write (format · ngxRpcCreateLocStart 0)
    file.services.forM fun s => do
      assign (serviceVars · s)
      write (format · ngxRpcCreateLocItems 2)
    write (format · ngxRpcCreateLocEnd pMargin)
    file.services.forM fun s => do
      assign (serviceVars · s)
      s.methods.forM fun m => do
        assign (methodVars · m)
        write (format · ngxRpcMethodProcess pMargin)
    file.services.forM fun s => do
      assign (serviceVars · s)
      write (format · ngxRpcSetServerMethodStart 0)
      s.methods.forM fun m => do
        assign (methodVars · m)
        write (format · ngxRpcSetServerMethodItem 0)
      write (format · ngxRpcSetServerMethodEnd pMargin)
    write (format · ngxRpcExitStart 0)
    file.services.forM fun s => do
      assign (serviceVars · s)
      write (format · ngxRpcExitItem 0)
    write (format · ngxRpcExitEnd 0)

/-- `GetNgxConfig`, for a printer of texts over `α`. -/
def printNgxConfig : Option (List α) :=
  Printer.output do
    assign (Vars.set · .protoName (lower (stripProto file.name)))
    write (format · ngxRpcConfig pMargin)

end Files

/-- `GetServerImplHeader`. -/
def getServerImplHeader (file : FileDescriptor) : Option (List UInt8) :=
  printServerImplHeader format file

/-- `GetNgxModuleHeader`. -/
def getNgxModuleHeader (file : FileDescriptor) : Option (List UInt8) :=
  printNgxModuleHeader format file

/-- `GetNgxConfig`. -/
def getNgxConfig (file : FileDescriptor) : Option (List UInt8) :=
  printNgxConfig (formatWith configDelimiter) file

/-! ## The parts of the generated files -/

section Parts

variable {α : Type}

/-- The parts of the header. Each is printed with the variables that are set for it; what a loop
leaves in the variables of a service or a method is not among them. -/
def headerParts (format : Format α) (file : FileDescriptor) (ns path nsEnd : List UInt8) :
    Option (List α) :=
  let vars := fileVars file ns path
  concat
    [format vars ngxRpcServerHeaderStart pMargin,
      format vars ngxRpcServerInclude pMargin,
      format vars ngxRpcServerNamespaceStart pMargin,
      concat (file.services.map fun s =>
        let vars := serviceVars vars s
        concat
          [format vars ngxRpcServerClassStart pMargin,
            concat (s.methods.map fun m =>
              format (methodVars vars m) ngxRpcServerMethod pMargin),
            format vars ngxRpcServerClassEnd pMargin]),
      format (vars.set .protoNamespace nsEnd) ngxRpcServerNamespaceEnd pMargin,
      format (vars.set .protoNamespace nsEnd) ngxRpcServerHeaderEnd pMargin]

/-- The parts of the module's source file. -/
def moduleParts (format : Format α) (file : FileDescriptor) (ns path : List UInt8) :
    Option (List α) :=
  let vars := fileVars file ns path
  concat
    [format vars ngxRpcModuleInlucde pMargin,
      format vars ngxPrcModuleConfStart 0,
      concat (file.services.map fun s => format (serviceVars vars s) ngxRpcModuleConfServers 1),
      format vars ngxPrcModuleConfEnd pMargin,
      concat (file.services.map fun s => format (serviceVars vars s) ngxRpcServerSetConf 1),
      format vars ngxRpcCommandsStart 0,
      concat (file.services.map fun s => format (serviceVars vars s) ngxRpcCommandsItems 0),
      format vars ngxRpcCommandsEnd pMargin,
      format vars ngxRpcHttpModuleDecalres 1,
      format vars ngxRpcHttpModuleDefine pMargin,
      format vars ngxRpcMoudleDecarles 1,
      format vars ngxRpcMoudleDefine pMargin,
      format vars ngxRpcCreateLocStart 0,
      concat (file.services.map fun s => format (serviceVars vars s) ngxRpcCreateLocItems 2),
      format vars ngxRpcCreateLocEnd pMargin,
      concat (file.services.map fun s => concat (s.methods.map fun m =>
        format (methodVars (serviceVars vars s) m) ngxRpcMethodProcess pMargin)),
      concat (file.services.map fun s =>
        let vars := serviceVars vars s
        concat
          [format vars ngxRpcSetServerMethodStart 0,
            concat (s.methods.map fun m => format (methodVars vars m) ngxRpcSetServerMethodItem 0),
            format vars ngxRpcSetServerMethodEnd pMargin]),
      format vars ngxRpcExitStart 0,
      concat (file.services.map fun s => format (serviceVars vars s) ngxRpcExitItem 0),
      format vars ngxRpcExitEnd 0]

variable {vars vars' : Vars}

/-- A variable that has no value may be set. -/
theorem Vars.extends_set (h : Extends vars vars') {key : Var} (hkey : vars key = none)
    (value : List UInt8) : Extends vars (vars'.set key value) := by
  intro v s hv
  have hne : v ≠ key := by
    rintro rfl
    rw [hkey] at hv
    cases hv
  rw [Vars.set, if_neg hne]
  exact h v s hv

theorem Vars.set_mono (h : Extends vars vars') (key : Var) (value : List UInt8) :
    Extends (vars.set key value) (vars'.set key value) := by
  intro v s hv
  rw [Vars.set] at hv ⊢
  split_ifs at hv ⊢
  · exact hv
  · exact h v s hv

theorem serviceVars_mono (h : Extends vars vars') (s : ServiceDescriptor) :
    Extends (serviceVars vars s) (serviceVars vars' s) :=
  Vars.set_mono (Vars.set_mono h _ _) _ _

theorem methodVars_mono (h : Extends vars vars') (m : MethodDescriptor) :
    Extends (methodVars vars m) (methodVars vars' m) :=
  Vars.set_mono (Vars.set_mono (Vars.set_mono h _ _) _ _) _ _

/-- A part prints the same with more variables. -/
theorem Format.Mono.prints {fmt : Format α} (h : fmt.Mono) (vars : Vars)
    (start : List (List UInt8)) (lt : ℕ) :
    Prints vars (write (fmt · start lt)) (fmt vars start lt) vars :=
  .write fun _ hext _ hp => h hext hp

/-- A pass of a loop over services, with the variables of the service. -/
theorem prints_service {p : Printer Var α Unit} {t : Option (List α)} {s : ServiceDescriptor}
    (hname : vars .protoServerName = none) (hlower : vars .protoServerNameLower = none)
    (h : Prints (serviceVars vars s) p t (serviceVars vars s)) :
    Prints vars (assign (serviceVars · s) >>= fun _ => p) t vars := by
  refine .assign (fun _ hext => serviceVars_mono hext s) (h.mono ?_)
  exact Vars.extends_set (Vars.extends_set (Extends.refl vars) hname _) hlower _

/-- A pass of a loop over methods, with the variables of the method. -/
theorem prints_method {p : Printer Var α Unit} {t : Option (List α)} {m : MethodDescriptor}
    (hname : vars .protoServerMethodName = none)
    (hrequest : vars .protoServerMethodRequestName = none)
    (hresponse : vars .protoServerMethodResponseName = none)
    (h : Prints (methodVars vars m) p t (methodVars vars m)) :
    Prints vars (assign (methodVars · m) >>= fun _ => p) t vars := by
  refine .assign (fun _ hext => methodVars_mono hext m) (h.mono ?_)
  exact Vars.extends_set (Vars.extends_set (Vars.extends_set (Extends.refl vars) hname _)
    hrequest _) hresponse _

section OfParts

variable {fmt : Format α} (hmono : fmt.Mono) {file : FileDescriptor}
  {ns path nsEnd : List UInt8} {text : List α}
include hmono

/-- The header consists of its parts. -/
theorem printServerImplHeader_of_parts
    (hns : replaceDot (dotted file.package) (lit " \x7b\nnamespace " rfl) = some ns)
    (hpath : replaceDot (dotted file.package) (lit "/" rfl) = some path)
    (hnsEnd : replaceDot (dotted file.package) (lit " \n\x7d //for " rfl) = some nsEnd)
    (h : headerParts fmt file ns path nsEnd = some text) :
    printServerImplHeader fmt file = some text := by
  rw [printServerImplHeader, hns, hpath, hnsEnd]
  simp only [Option.bind_eq_bind, Option.bind_some]
  refine Prints.output ((fileVars file ns path).set .protoNamespace nsEnd)
    (.assign (fun _ _ => Extends.refl _) ?_) h
  refine .seq (hmono.prints _ _ _) (.seq (hmono.prints _ _ _) (.seq (hmono.prints _ _ _) ?_))
  refine .seq (.forM fun s _ => prints_service rfl rfl ?_) ?_
  · refine .seq (hmono.prints _ _ _) (.seq (.forM fun m _ => ?_) (hmono.prints _ _ _).last)
    exact prints_method rfl rfl rfl (hmono.prints _ _ _)
  · refine .assign (fun _ hext => Vars.set_mono hext _ _) ?_
    exact .seq (hmono.prints _ _ _) (hmono.prints _ _ _).last

/-- The module's source file consists of its parts. -/
theorem printNgxModuleHeader_of_parts
    (hns : replaceDot (dotted file.package) (lit "::" rfl) = some ns)
    (hpath : replaceDot (dotted file.package) (lit "/" rfl) = some path)
    (h : moduleParts fmt file ns path = some text) : printNgxModuleHeader fmt file = some text := by
  rw [printNgxModuleHeader, hns, hpath]
  simp only [Option.bind_eq_bind, Option.bind_some]
  have hloop : ∀ (start : List (List UInt8)) (lt : ℕ), Prints (fileVars file ns path)
      (file.services.forM fun s => do
        assign (serviceVars · s)
        write (fmt · start lt))
      (concat (file.services.map fun s => fmt (serviceVars (fileVars file ns path) s) start lt))
      (fileVars file ns path) := by
    intro start lt
    exact .forM fun s _ => prints_service rfl rfl (hmono.prints _ _ _)
  refine Prints.output (fileVars file ns path) (.assign (fun _ _ => Extends.refl _) ?_) h
  -- the configuration and the commands
  refine .seq (hmono.prints _ _ _) (.seq (hmono.prints _ _ _) (.seq (hloop _ _) ?_))
  refine .seq (hmono.prints _ _ _) (.seq (hloop _ _) ?_)
  refine .seq (hmono.prints _ _ _) (.seq (hloop _ _) (.seq (hmono.prints _ _ _) ?_))
  -- the declarations of the module
  refine .seq (hmono.prints _ _ _) (.seq (hmono.prints _ _ _) ?_)
  refine .seq (hmono.prints _ _ _) (.seq (hmono.prints _ _ _) ?_)
  -- the function that creates the configuration
  refine .seq (hmono.prints _ _ _) (.seq (hloop _ _) (.seq (hmono.prints _ _ _) ?_))
  -- the handlers
  refine .seq (.forM fun s _ => prints_service rfl rfl (.forM fun m _ => ?_)) ?_
  · exact prints_method rfl rfl rfl (hmono.prints _ _ _)
  refine .seq (.forM fun s _ => prints_service rfl rfl ?_) ?_
  · refine .seq (hmono.prints _ _ _) (.seq (.forM fun m _ => ?_) (hmono.prints _ _ _).last)
    exact prints_method rfl rfl rfl (hmono.prints _ _ _)
  -- the function that ends the process
  exact .seq (hmono.prints _ _ _) (.seq (hloop _ _) (hmono.prints _ _ _).last)

end OfParts

end Parts

/-! ## What is registered for a method -/

theorem replaceDot_slash (package : List UInt8) :
    replaceDot package (lit "/" rfl) = some (namePath package) := by
  have hslash : lit "/" rfl = [slash] := by decide +kernel
  rw [hslash, namePath, Option.some_get]
  rfl

/-- A line of a template, printed. -/
theorem bind_print {vars : Vars} {line : Option (List UInt8)} {l : List (Sym Var)}
    (h : line.bind (parse delimiter Var.ofName) = some l) :
    line.bind (print vars) = render vars l := by
  obtain ⟨text, rfl, hl⟩ := Option.bind_eq_some_iff.mp h
  rw [Option.bind_some, print, printWith, hl, Option.bind_some]

/-- The line with a route, for separator `sep`. -/
def routeLine (sep : UInt8) : List (Sym Var) :=
  (lit "        method->name    = ngx_string(\"/" rfl).map .byte ++
    (.var .protoNamepath :: .byte sep :: .var .protoServerName :: .byte sep ::
      .var .protoServerMethodName :: (lit "\");" rfl).map .byte)

/-- The line with the handler. -/
def handlerLine : List (Sym Var) :=
  (lit "        method->handler = ngxrpc_" rfl).map .byte ++
    (.var .protoName :: .byte underscore :: .var .protoServerNameLower :: .byte underscore ::
      .var .protoServerMethodName :: (lit ";" rfl).map .byte)

theorem parse_methodItem :
    ngxRpcSetServerMethodItem[4]?.bind (parse delimiter Var.ofName) = some (routeLine slash) ∧
      ngxRpcSetServerMethodItem[6]?.bind (parse delimiter Var.ofName) = some handlerLine ∧
      ngxRpcSetServerMethodItem[12]?.bind (parse delimiter Var.ofName) = some (routeLine dot) ∧
      ngxRpcSetServerMethodItem[14]?.bind (parse delimiter Var.ofName) = some handlerLine := by
  decide +kernel

section MethodItem

variable {H I : Type} {file : FileDescriptor} {s : ServiceDescriptor} {m : MethodDescriptor}
  {ns path : List UInt8}

theorem render_routeLine (sep : UInt8) {p : ProtoMethod H I} (hpackage : p.package = file.package)
    (hservice : p.service = s.name) (hname : p.name = m.name)
    (hpath : replaceDot (dotted file.package) (lit "/" rfl) = some path) :
    render (methodVars (serviceVars (fileVars file ns path) s) m) (routeLine sep) =
      some (lit "        method->name    = ngx_string(\"" rfl ++ (p.route sep ++
        lit "\");" rfl)) := by
  rw [replaceDot_slash] at hpath
  obtain rfl := Option.some.inj hpath
  have hfront : lit "        method->name    = ngx_string(\"/" rfl =
      lit "        method->name    = ngx_string(\"" rfl ++ [slash] := by
    decide +kernel
  rw [routeLine, render_append, render_bytes, hfront, ProtoMethod.route, hpackage, hservice, hname]
  simp [render, methodVars, serviceVars, fileVars, Vars.set]

theorem render_handlerLine (h : file.Accepted) {service : NgxRpc.ServiceDescriptor}
    (hservice : service.name = s.name) :
    render (methodVars (serviceVars (fileVars file ns path) s) m) handlerLine =
      some (lit "        method->handler = " rfl ++ ((file.names h).handler (service, m.name) ++
        lit ";" rfl)) := by
  have hfront : lit "        method->handler = ngxrpc_" rfl =
      lit "        method->handler = " rfl ++ asciiBytes "ngxrpc_" := by
    decide +kernel
  rw [handlerLine, render_append, render_bytes, hfront, NgxRpc.FileDescriptor.handler,
    NgxRpc.FileDescriptor.protoName, hservice]
  simp [FileDescriptor.names, render, methodVars, serviceVars, fileVars, Vars.set]

/-- The item of a method registers its handler for each of its two routes. -/
theorem print_methodItem {p : ProtoMethod H I} (hpackage : p.package = file.package)
    (hservice : p.service = s.name) (hname : p.name = m.name)
    (hpath : replaceDot (dotted file.package) (lit "/" rfl) = some path) (h : file.Accepted)
    {service : NgxRpc.ServiceDescriptor} (hservice' : service.name = s.name) :
    let line (i : ℕ) := ngxRpcSetServerMethodItem[i]?.bind
      (print (methodVars (serviceVars (fileVars file ns path) s) m))
    let name (sep : UInt8) := some (lit "        method->name    = ngx_string(\"" rfl ++
      (p.route sep ++ lit "\");" rfl))
    let handler := some (lit "        method->handler = " rfl ++
      ((file.names h).handler (service, m.name) ++ lit ";" rfl))
    line 4 = name slash ∧ line 6 = handler ∧ line 12 = name dot ∧ line 14 = handler := by
  obtain ⟨hslash, hfirst, hdot, hsecond⟩ := parse_methodItem
  intro line name handler
  refine ⟨?_, ?_, ?_, ?_⟩
  · exact (bind_print hslash).trans (render_routeLine slash hpackage hservice hname hpath)
  · exact (bind_print hfirst).trans (render_handlerLine h hservice')
  · exact (bind_print hdot).trans (render_routeLine dot hpackage hservice hname hpath)
  · exact (bind_print hsecond).trans (render_handlerLine h hservice')

end MethodItem

end NgxRpc.Generator
