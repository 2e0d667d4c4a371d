import NgxRpc.Foundation.Statements
import NgxRpc.Nesting

/-!
# What a generated module registers

The source file that `GetNgxModuleHeader` prints for a proto file is read again: which functions it
defines, what they register and what they call. The file registers the two routes of each method,
with the handler of the method and the object of its service, and the handler calls the method.

## Main definitions

- `Form`, `rules` — the statements that set up and handle calls
- `functions` — the functions of a text
- `Function.call`, `pushed`, `created` — the method that a function calls, the elements of
  `method_array` that it pushes and the objects that it makes
- `program` — what the functions of a text do

## Main results

- `found_module` — what is found in the source file
- `module_means` — what its functions do
-/

namespace NgxRpc.Generator
open SourceText Template

/-! ## Forms -/

/-- A statement of a generated module, or the head of a function. -/
inductive Form where
  | handler
  | request
  | response
  | cast
  | call
  | setter
  | create
  | push
  | name
  | impl
  | assign
deriving DecidableEq

/-- The statement, with holes for the names in it. -/
def Form.text : Form → List UInt8
  | .handler => lit "static void $(ngx_rpc_task_t* _this, void* p1) \x7b" rfl
  | .request => lit "cntl->req = new $();" rfl
  | .response => lit "cntl->res = new $();" rfl
  | .cast => lit "$ * impl = ($ *) rpc_ctx->method->_impl;" rfl
  | .call => lit "impl->$(cntl, ($*)cntl->req, ($*)cntl->res, cntl->done);" rfl
  | .setter => lit "static char* $(ngx_conf_t *cf, ngx_command_t *cmd, void *conf) \x7b" rfl
  | .create => lit "$->$ = new $(app_conf);" rfl
  | .push =>
    lit "method_conf_t *method = (method_conf_t *)ngx_array_push(rpc_conf->method_array);" rfl
  | .name => lit "method->name = ngx_string(\"$\");" rfl
  | .impl => lit "method->_impl = $->$;" rfl
  | .assign => lit "method->handler = $;" rfl

def forms : List Form :=
  [.handler, .request, .response, .cast, .call, .setter, .create, .push, .name, .impl, .assign]

def rules : List (Rule Form) := forms.map fun f => ⟨f, patternOf f.text⟩

/-- A statement that was found in a text. -/
abbrev Statement := Found Form (List UInt8)

/-! ## Functions -/

/-- A function: its name, and what is found in its body. -/
structure Function where
  name : List UInt8
  body : List Statement
deriving DecidableEq

/-- Whether a function begins here. -/
def Form.heads : Form → Bool
  | .handler | .setter => true
  | _ => false

/-- What stands in front of the first function, and the functions. -/
def splitFunctions : List Statement → List Statement × List Function
  | [] => ([], [])
  | f :: fs =>
    let r := splitFunctions fs
    if f.kind.heads then ([], ⟨f.parts.headD [], r.1⟩ :: r.2) else (f :: r.1, r.2)

/-- The functions of a text. -/
def functions (text : List UInt8) : List Function := (splitFunctions (found rules text)).2

/-- What a handler does with a task: the types of the messages that it makes, and the method that it
calls with them. -/
structure Call where
  className : List UInt8
  method : List UInt8
  request : List UInt8
  response : List UInt8
deriving DecidableEq

/-- The call in a body. The object that is registered is taken for one of the class, and the
messages have the types with which they were made. -/
def Function.call (f : Function) : Option Call :=
  match f.body with
  | [⟨.request, [request]⟩, ⟨.response, [response]⟩, ⟨.cast, [className, className']⟩,
      ⟨.call, [method, request', response']⟩] =>
    if className' = className ∧ request' = request ∧ response' = response then
      some ⟨className, method, request, response⟩
    else none
  | _ => none

/-- A field of the configuration: the variable and the name. -/
abbrev Field := List UInt8 × List UInt8

/-- The elements that a body pushes to `method_array`. -/
def pushed : List Statement → List (MethodConf (List UInt8) Field)
  | ⟨.push, []⟩ :: ⟨.name, [name]⟩ :: ⟨.impl, [conf, field]⟩ :: ⟨.assign, [handler]⟩ :: fs =>
    ⟨name, (conf, field), handler⟩ :: pushed fs
  | _ :: fs => pushed fs
  | [] => []

/-- The objects that a body makes: the fields that they are kept in, and their classes. -/
def created (fs : List Statement) : List (Field × List UInt8) :=
  fs.filterMap fun
    | ⟨.create, [conf, field, className]⟩ => some ((conf, field), className)
    | _ => none

/-- What a function does: the call that it makes, the elements that it pushes and the objects that
it makes. -/
structure Meaning where
  name : List UInt8
  call : Option Call
  pushes : List (MethodConf (List UInt8) Field)
  creates : List (Field × List UInt8)
deriving DecidableEq

def Function.meaning (f : Function) : Meaning := ⟨f.name, f.call, pushed f.body, created f.body⟩

/-- What the functions of a text do. -/
def program (text : List UInt8) : List Meaning := (functions text).map Function.meaning

/-! ## The statements of a file -/

def ServiceDescriptor.className (s : ServiceDescriptor) : List UInt8 :=
  s.name.bytes ++ lit "_server" rfl

/-- A method of a service is called with messages of its types. -/
def ServiceDescriptor.call (s : ServiceDescriptor) (m : MethodDescriptor) : Call :=
  ⟨s.className, m.name.bytes, m.inputType.bytes, m.outputType.bytes⟩

namespace FileDescriptor

variable (file : FileDescriptor) (s : ServiceDescriptor) (m : MethodDescriptor)

/-- The methods, each with its service. -/
def methods : List (ServiceDescriptor × MethodDescriptor) :=
  file.services.flatMap fun s => s.methods.map fun m => (s, m)

/-- `PROTO_NAME`. -/
def protoName : List UInt8 := lower (stripProto file.name)

def handlerName : List UInt8 :=
  lit "ngxrpc_" rfl ++ (file.protoName ++ underscore :: (lower s.name.bytes ++
    underscore :: m.name.bytes))

def setterName : List UInt8 :=
  lit "ngx_conf_set_" rfl ++ (file.protoName ++ underscore :: (lower s.name.bytes ++
    lit "_hanlder" rfl))

def implField : Field := (file.protoName ++ lit "_conf" rfl, lower s.name.bytes ++ lit "_impl" rfl)

/-- The method, with the values that are registered for it. -/
def protoMethod : ProtoMethod (List UInt8) Field where
  package := file.package
  service := s.name
  name := m.name
  handler := file.handlerName s m
  impl := file.implField s

/-- What the functions of the module are for: one handler for each method, and one function for each
service, which registers its methods. -/
def meaning : List Meaning :=
  (file.methods.map fun x => ⟨file.handlerName x.1 x.2, some (x.1.call x.2), [], []⟩) ++
    file.services.map fun s => ⟨file.setterName s, none,
      s.methods.flatMap fun m => (file.protoMethod s m).confs, [(file.implField s, s.className)]⟩

end FileDescriptor

section Expected

variable (file : FileDescriptor) (s : ServiceDescriptor) (m : MethodDescriptor)

/-- The body of `NGX_RPC_METHOD_PROCESS`. -/
def handlerBody : List Statement :=
  [⟨.request, [m.inputType.bytes]⟩, ⟨.response, [m.outputType.bytes]⟩,
    ⟨.cast, [s.className, s.className]⟩,
    ⟨.call, [m.name.bytes, m.inputType.bytes, m.outputType.bytes]⟩]

/-- An element of `method_array`. -/
def pushStatements (c : MethodConf (List UInt8) Field) : List Statement :=
  [⟨.push, []⟩, ⟨.name, [c.name]⟩, ⟨.impl, [c.impl.1, c.impl.2]⟩, ⟨.assign, [c.handler]⟩]

/-- The body of `NGX_RPC_SET_SERVER_METHOD_START` with its items. -/
def setterBody : List Statement :=
  ⟨.create, [(file.implField s).1, (file.implField s).2, s.className]⟩ ::
    s.methods.flatMap fun m => (file.protoMethod s m).confs.flatMap pushStatements

/-- What is found in the source file. -/
def moduleStatements : List Statement :=
  (file.methods.flatMap fun x => ⟨.handler, [file.handlerName x.1 x.2]⟩ :: handlerBody x.1 x.2) ++
    file.services.flatMap fun s => ⟨.setter, [file.setterName s]⟩ :: setterBody file s

end Expected

/-! ## Values of variables -/

/-- The values of the variables `vs` are words. -/
structure Names (vars : Vars) (vs : List Var) : Prop extends Values vars vs where
  word : ∀ v ∈ vs, ∃ s, vars v = some s ∧ s ≠ [] ∧ ∀ c ∈ s, isWord c = true

section Names

variable {vars : Vars} {vs : List Var}

theorem Names.set (h : Names vars vs) {key : Var} (hkey : Var.protoNamepath ≠ key)
    {value : List UInt8} (hne : value ≠ []) (hvalue : ∀ c ∈ value, IsWord c) :
    Names (vars.set key value) (key :: vs) where
  toValues := h.toValues.set hkey fun c hc => plain_of_isWord (hvalue c hc)
  word := by
    intro v hv
    by_cases hvk : v = key
    · rw [hvk]
      exact ⟨value, set_self vars key value, hne, fun c hc => isWord_eq_true (hvalue c hc)⟩
    · obtain ⟨s, hs, hword⟩ := h.word v ((List.mem_cons.mp hv).resolve_left hvk)
      exact ⟨s, (set_of_ne hvk value).trans hs, hword⟩

theorem isWord_lower {s : List UInt8} (h : ∀ c ∈ s, IsWord c) : ∀ c ∈ lower s, IsWord c := by
  refine List.forall_mem_map.mpr fun c hc => ?_
  obtain hself | hword := (asciiCase_cases c).1
  · rw [hself]
    exact h c hc
  · exact hword

theorem isWord_upper {s : List UInt8} (h : ∀ c ∈ s, IsWord c) : ∀ c ∈ upper s, IsWord c := by
  refine List.forall_mem_map.mpr fun c hc => ?_
  obtain hself | hword := (asciiCase_cases c).2
  · rw [hself]
    exact h c hc
  · exact hword

theorem lower_ne_nil {s : List UInt8} (h : s ≠ []) : lower s ≠ [] := mt List.map_eq_nil_iff.mp h

theorem Names.service (h : Names vars vs) (s : ServiceDescriptor) :
    Names (serviceVars vars s) ([.protoServerNameLower, .protoServerName] ++ vs) :=
  (h.set (by decide) s.name.ok.1 s.name.ok.2.1).set (by decide) (lower_ne_nil s.name.ok.1)
    (isWord_lower s.name.ok.2.1)

theorem Names.method (h : Names vars vs) (m : MethodDescriptor) :
    Names (methodVars vars m) ([.protoServerMethodResponseName, .protoServerMethodRequestName,
      .protoServerMethodName] ++ vs) :=
  ((h.set (by decide) m.name.ok.1 m.name.ok.2.1).set (by decide) m.inputType.ok.1
    m.inputType.ok.2.1).set (by decide) m.outputType.ok.1 m.outputType.ok.2.1

/-- The variables of a file whose name is an identifier. -/
theorem names_file {file : FileDescriptor} (hname : IsIdentifier (stripProto file.name))
    (ns : List UInt8) :
    Names (fileVars file ns ((lit "/" rfl).intercalate (file.package.map Identifier.bytes)))
      [.protoNameUpper, .protoName] where
  toValues := values_file ⟨file, fun c hc => plain_of_isWord (hname.2.1 c hc)⟩ ns
  word := by
    have hlower := isWord_lower hname.2.1
    have hne := lower_ne_nil hname.1
    intro v hv
    obtain rfl | rfl := List.mem_pair.mp hv
    · exact ⟨_, rfl, mt List.map_eq_nil_iff.mp hne,
        fun c hc => isWord_eq_true (isWord_upper hlower c hc)⟩
    · exact ⟨_, rfl, hne, fun c hc => isWord_eq_true (hlower c hc)⟩

theorem Names.readable (h : Names vars vs) : Readable vars (safeIn vs) where
  value := by
    have hcases : ∀ m v, safeIn vs m v = true →
        m.steady = true ∧ v ∈ vs ∨ m = .str ∧ v = .protoNamepath := by
      simp [safeIn]
    intro m v hv
    obtain ⟨hm, hmem⟩ | ⟨rfl, rfl⟩ := hcases m v hv
    · obtain ⟨s, hs, hplain⟩ := h.plain v hmem
      exact ⟨s, hs, scanPieces_plain hm hplain⟩
    · obtain ⟨s, hs, hstr⟩ := h.path
      exact ⟨s, hs, scanPieces_str hstr⟩
  word := by
    intro v s hv hs
    have hmem : v ∈ vs := by
      simp only [safeIn] at hv
      simpa [SourceText.Mode.steady] using hv
    obtain ⟨s', hs', hword⟩ := h.word v hmem
    rw [hs] at hs'
    cases hs'
    exact hword

end Names

/-! ## Parts -/

section Format

variable {κ : Type} [DecidableEq κ] {rules : List (Rule κ)}

/-- What is found in the template of a part, behind each of the beginnings `ws` of a statement; it
leaves one of `ws'`. -/
def formatFinds (rules : List (Rule κ)) (vs : List Var) (ws ws' : List (List (List Piece)))
    (start : List (List UInt8)) (lt : ℕ) (fs : List (Found κ (List (PieceSym Var)))) : Bool :=
  (symbols start lt).any fun l => ws.all fun w => ws'.any fun w' =>
    symFinds (safeIn vs) rules l w = some (fs, w'.map (List.map .piece))

theorem Names.finds {vars : Vars} {vs : List Var} (h : Names vars vs)
    {ws ws' : List (List (List Piece))} (hws : ws ≠ []) {start : List (List UInt8)} {lt : ℕ}
    {fs : List (Found κ (List (PieceSym Var)))}
    (hfinds : formatFinds rules vs ws ws' start lt fs = true) :
    FindsIn rules (· ∈ ws) (· ∈ ws') (format vars start lt)
      (fs.map (Found.map (spelled vars))) := by
  obtain ⟨l, hl, hws'⟩ := (Option.any_eq_true _ _).mp hfinds
  rw [FindsIn, format_eq_render hl]
  refine finds_render h.readable hws fun w hw => ?_
  obtain ⟨w', hw', heq⟩ := List.any_eq_true.mp (List.all_eq_true.mp hws' w hw)
  refine ⟨_, of_decide_eq_true heq, ?_⟩
  rwa [map_flatMap_value_piece]

/-- A part in which nothing is found. -/
theorem Names.finds_nil {vars : Vars} {vs : List Var} (h : Names vars vs) {w : List (List Piece)}
    {ws ws' : List (List (List Piece))} {start : List (List UInt8)} {lt : ℕ}
    (hfinds : formatFinds rules vs (w :: ws) ws' start lt [] = true) :
    FindsIn rules (· ∈ w :: ws) (· ∈ ws') (format vars start lt) [] :=
  h.finds (List.cons_ne_nil _ _) hfinds

/-- The statement that has begun does so with the tokens `front`. -/
def Begins (front w : List (List Piece)) : Prop := ∃ rest, w = front ++ rest

/-- Nothing is found in a template, and what it leaves begins with `front`. -/
def leaves (rules : List (Rule κ)) (vs : List Var) (front : List (List Piece))
    (l : List (Sym Var)) : Bool :=
  (symFinds (safeIn vs) rules l []).any fun r =>
    r.1 = [] ∧ r.2.take front.length = front.map (List.map .piece)

omit [DecidableEq κ] in
theorem Names.finds_leaves {vars : Vars} {vs : List Var} (h : Names vars vs)
    {front : List (List Piece)} {l : List (Sym Var)} (hl : leaves rules vs front l = true) :
    ∃ text, render vars l = some text ∧ Finds rules (· ∈ [[]]) (Begins front) text [] := by
  obtain ⟨⟨fs, left⟩, hfinds, hdec⟩ := (Option.any_eq_true _ _).mp hl
  obtain ⟨rfl, htake⟩ := of_decide_eq_true hdec
  refine @finds_render _ _ _ _ _ _ h.readable _ _ (List.cons_ne_nil _ _) _ [] fun w hw => ?_
  rw [List.mem_singleton.mp hw]
  refine ⟨left, hfinds, (left.drop front.length).map (List.flatMap (PieceSym.value vars)), ?_⟩
  have hfront := congrArg (List.map (List.flatMap (PieceSym.value vars))) htake
  rw [map_flatMap_value_piece] at hfront
  conv_lhs => rw [← List.take_append_drop front.length left, List.map_append]
  rw [hfront]

end Format

/-- No statement has begun. -/
abbrev Fresh (w : List (List Piece)) : Prop := w ∈ [[]]

def comma : List Piece := [.code 44]

/-- The items of a list have no end of their own. -/
abbrev Listed (w : List (List Piece)) : Prop := w ∈ [[], [comma]]

/-- The first tokens of a directive. -/
def directive : List (List Piece) := [[.code 35], (lit "include" rfl).map .code]

/-- A directive hides what stands behind it. -/
theorem recognize_directive {w : List (List Piece)} (h : Begins directive w)
    (s : List (List Piece)) : recognize rules (w ++ s) = none := by
  obtain ⟨rest, rfl⟩ := h
  rfl

def colon : UInt8 := 58

/-- The name of the namespace, and the end of the line. -/
theorem finds_using {ns : List UInt8} (hns : ∀ c ∈ ns, IsWord c ∨ c = colon) :
    Finds rules (Begins directive) Fresh (ns ++ lit ";\n\n\n\n" rfl) [] := by
  have hplain : ∀ c ∈ ns, Plain c := by
    intro c hc
    obtain hword | rfl := hns c hc
    · exact plain_of_isWord hword
    · decide
  have hquiet : (ns.map Piece.code).any Piece.ends = false := by
    rw [List.any_eq_false, List.forall_mem_map]
    intro c hc
    obtain hword | rfl := hns c hc
    · exact Bool.eq_false_iff.mp (Piece.ends_word (isWord_eq_true hword))
    · decide
  have hscan : scanPieces .code (ns ++ lit ";\n\n\n\n" rfl) =
      (.code, ns.map .code ++ [.code semicolon] ++ (lit "\n\n\n\n" rfl).map .code) := by
    rw [scanPieces_append, scanPieces_plain (m := .code) rfl hplain, List.append_assoc]
    rfl
  refine finds_silent hscan hquiet (by decide) (by decide) (fun w hw => ?_)
    (List.mem_singleton_self _)
  rw [List.append_assoc]
  exact recognize_directive hw _

/-- The last line of the includes has the namespace in it. -/
theorem symbols_include : (symbols ngxRpcModuleInlucde pMargin).any fun l =>
    l = l.takeWhile (· ≠ .var .protoNamespace) ++
        .var .protoNamespace :: word (lit ";\n\n\n\n" rfl) ∧
      leaves rules [.protoNameUpper, .protoName] directive
        (l.takeWhile (· ≠ .var .protoNamespace)) = true := by
  decide +kernel

theorem finds_include {vars : Vars} (h : Names vars [.protoNameUpper, .protoName])
    {ns : List UInt8} (hns : vars .protoNamespace = some ns)
    (hbytes : ∀ c ∈ ns, IsWord c ∨ c = colon) :
    FindsIn rules Fresh Fresh (format vars ngxRpcModuleInlucde pMargin) [] := by
  obtain ⟨l, hl, hdec⟩ := (Option.any_eq_true _ _).mp symbols_include
  obtain ⟨heq, hleaves⟩ := of_decide_eq_true hdec
  obtain ⟨text, hrender, htext⟩ := h.finds_leaves hleaves
  refine ⟨text ++ (ns ++ lit ";\n\n\n\n" rfl), ?_, htext.append (finds_using hbytes)⟩
  rw [format_eq_render hl, heq, render_append, hrender, Option.bind_some, render, hns, word,
    render_bytes]
  rfl

/-! ## The templates -/

def chars (w : List UInt8) : List (PieceSym Var) := w.map fun c => .piece (.code c)

@[simp] theorem spelled_chars (vars : Vars) (w : List UInt8) : spelled vars (chars w) = w := by
  induction w with
  | nil => rfl
  | cons c w ih => exact congrArg (c :: ·) ih

def handlerSyms : List (PieceSym Var) :=
  chars (lit "ngxrpc_" rfl) ++ .inCode .protoName :: .piece (.code underscore) ::
    .inCode .protoServerNameLower :: .piece (.code underscore) :: [.inCode .protoServerMethodName]

def setterSyms : List (PieceSym Var) :=
  chars (lit "ngx_conf_set_" rfl) ++ .inCode .protoName :: .piece (.code underscore) ::
    .inCode .protoServerNameLower :: chars (lit "_hanlder" rfl)

def classSyms : List (PieceSym Var) := .inCode .protoServerName :: chars (lit "_server" rfl)

def implSyms : List (List (PieceSym Var)) :=
  [.inCode .protoName :: chars (lit "_conf" rfl),
    .inCode .protoServerNameLower :: chars (lit "_impl" rfl)]

def routeSyms (sep : UInt8) : List (PieceSym Var) :=
  .piece (.text slash) :: .inText .protoNamepath :: .piece (.text sep) ::
    .inText .protoServerName :: .piece (.text sep) :: [.inText .protoServerMethodName]

def pushSyms (sep : UInt8) : List (Found Form (List (PieceSym Var))) :=
  [⟨.push, []⟩, ⟨.name, [routeSyms sep]⟩, ⟨.impl, implSyms⟩, ⟨.assign, [handlerSyms]⟩]

def methodProcessSyms : List (Found Form (List (PieceSym Var))) :=
  [⟨.handler, [handlerSyms]⟩, ⟨.request, [[.inCode .protoServerMethodRequestName]]⟩,
    ⟨.response, [[.inCode .protoServerMethodResponseName]]⟩, ⟨.cast, [classSyms, classSyms]⟩,
    ⟨.call, [[.inCode .protoServerMethodName], [.inCode .protoServerMethodRequestName],
      [.inCode .protoServerMethodResponseName]]⟩]

def methodStartSyms : List (Found Form (List (PieceSym Var))) :=
  [⟨.setter, [setterSyms]⟩, ⟨.create, implSyms ++ [classSyms]⟩]

/-- The variables of the file. -/
abbrev fileNames : List Var := [.protoNameUpper, .protoName]

abbrev serviceNames : List Var := [.protoServerNameLower, .protoServerName] ++ fileNames

abbrev methodNames : List Var :=
  [.protoServerMethodResponseName, .protoServerMethodRequestName, .protoServerMethodName] ++
    serviceNames

theorem finds_methodProcess :
    formatFinds rules methodNames [[]] [[]] ngxRpcMethodProcess pMargin methodProcessSyms =
      true := by
  decide +kernel

theorem finds_methodStart :
    formatFinds rules serviceNames [[]] [[]] ngxRpcSetServerMethodStart 0 methodStartSyms =
      true := by
  decide +kernel

theorem finds_methodItem : formatFinds rules methodNames [[]] [[]] ngxRpcSetServerMethodItem 0
    (pushSyms slash ++ pushSyms dot) = true := by
  decide +kernel

section Filled

variable (file : FileDescriptor) (s : ServiceDescriptor) (m : MethodDescriptor)
  (ns path : List UInt8)

theorem spelled_methodProcess : methodProcessSyms.map
      (Found.map (spelled (methodVars (serviceVars (fileVars file ns path) s) m))) =
    ⟨.handler, [file.handlerName s m]⟩ :: handlerBody s m := by
  simp [methodProcessSyms, handlerSyms, classSyms, Found.map, methodVars, serviceVars, fileVars,
    Vars.set, Piece.byte, handlerBody, FileDescriptor.handlerName, FileDescriptor.protoName,
    ServiceDescriptor.className]

theorem spelled_methodStart : methodStartSyms.map
      (Found.map (spelled (serviceVars (fileVars file ns path) s))) =
    [⟨.setter, [file.setterName s]⟩,
      ⟨.create, [(file.implField s).1, (file.implField s).2, s.className]⟩] := by
  simp [methodStartSyms, setterSyms, classSyms, implSyms, Found.map, serviceVars, fileVars,
    Vars.set, Piece.byte, FileDescriptor.setterName, FileDescriptor.protoName,
    ServiceDescriptor.className, FileDescriptor.implField]

variable {path} (hpath : path = (lit "/" rfl).intercalate (file.package.map Identifier.bytes))
include hpath

theorem spelled_pushSyms (sep : UInt8) :
    (pushSyms sep).map (Found.map
        (spelled (methodVars (serviceVars (fileVars file ns path) s) m))) =
      pushStatements
        ⟨(file.protoMethod s m).route sep, file.implField s, file.handlerName s m⟩ := by
  have hslash := (replaceDot_slash (dotted file.package)).symm.trans
    (replaceDot_dotted file.package (lit "/" rfl))
  rw [← hpath] at hslash
  obtain rfl := Option.some.inj hslash
  simp [pushSyms, routeSyms, handlerSyms, implSyms, Found.map, methodVars, serviceVars, fileVars,
    Vars.set, Piece.byte, pushStatements, FileDescriptor.handlerName, FileDescriptor.protoName,
    FileDescriptor.implField, FileDescriptor.protoMethod, ProtoMethod.route]

theorem spelled_methodItem : (pushSyms slash ++ pushSyms dot).map
      (Found.map (spelled (methodVars (serviceVars (fileVars file ns path) s) m))) =
    (file.protoMethod s m).confs.flatMap pushStatements := by
  rw [List.map_append, spelled_pushSyms file s m ns hpath, spelled_pushSyms file s m ns hpath]
  simp [ProtoMethod.confs, FileDescriptor.protoMethod]

end Filled

section Parts

variable {file : FileDescriptor} {vars : Vars}

/-- A part for each service in which nothing is found. -/
theorem Names.finds_services (h : Names vars fileNames) (services : List ServiceDescriptor)
    {w : List (List Piece)} {ws : List (List (List Piece))} {start : List (List UInt8)} {lt : ℕ}
    (hfinds : formatFinds rules serviceNames (w :: ws) (w :: ws) start lt [] = true) :
    FindsIn rules (· ∈ w :: ws) (· ∈ w :: ws)
      (concat (services.map fun s => format (serviceVars vars s) start lt)) [] := by
  have hall := FindsIn.each fun s (_ : s ∈ services) =>
    (h.service s).finds (List.cons_ne_nil _ _) hfinds
  have hnil : (services.flatMap fun s => [].map (Found.map (spelled (serviceVars vars s)))) =
      ([] : List Statement) :=
    List.flatMap_eq_nil_iff.mpr fun _ _ => rfl
  rwa [hnil] at hall

/-- The handler of a method. -/
theorem Names.finds_handler {ns path : List UInt8} (h : Names (fileVars file ns path) fileNames)
    (s : ServiceDescriptor) (m : MethodDescriptor) :
    FindsIn rules Fresh Fresh
      (format (methodVars (serviceVars (fileVars file ns path) s) m) ngxRpcMethodProcess pMargin)
      (⟨.handler, [file.handlerName s m]⟩ :: handlerBody s m) := by
  have hparts := ((h.service s).method m).finds (List.cons_ne_nil _ _) finds_methodProcess
  rwa [spelled_methodProcess] at hparts

/-- The function that registers the methods of a service. -/
theorem Names.finds_setter {ns path : List UInt8} (h : Names (fileVars file ns path) fileNames)
    (hpath : path = (lit "/" rfl).intercalate (file.package.map Identifier.bytes))
    (s : ServiceDescriptor) :
    FindsIn rules Fresh Fresh
      (concat
        [format (serviceVars (fileVars file ns path) s) ngxRpcSetServerMethodStart 0,
          concat (s.methods.map fun m =>
            format (methodVars (serviceVars (fileVars file ns path) s) m)
              ngxRpcSetServerMethodItem 0),
          format (serviceVars (fileVars file ns path) s) ngxRpcSetServerMethodEnd pMargin])
      (⟨.setter, [file.setterName s]⟩ :: setterBody file s) := by
  have hstart := (h.service s).finds (List.cons_ne_nil _ _) finds_methodStart
  rw [spelled_methodStart] at hstart
  have hitems := FindsIn.each fun m (_ : m ∈ s.methods) =>
    ((h.service s).method m).finds (List.cons_ne_nil _ _) finds_methodItem
  simp only [spelled_methodItem file s _ ns hpath] at hitems
  have hend : FindsIn rules Fresh Fresh
      (format (serviceVars (fileVars file ns path) s) ngxRpcSetServerMethodEnd pMargin) [] :=
    (h.service s).finds_nil (by decide +kernel)
  have hparts := hstart.cons (hitems.cons (hend.cons (.nil Fresh)))
  rwa [List.append_nil, List.append_nil] at hparts

/-- What is found in the parts of the module. -/
theorem findsIn_moduleParts (hname : IsIdentifier (stripProto file.name)) :
    FindsIn rules Fresh Fresh (moduleParts format file
      ((lit "::" rfl).intercalate (file.package.map Identifier.bytes))
      ((lit "/" rfl).intercalate (file.package.map Identifier.bytes))) (moduleStatements file) := by
  have h := names_file hname ((lit "::" rfl).intercalate (file.package.map Identifier.bytes))
  have hns : ∀ c ∈ (lit "::" rfl).intercalate (file.package.map Identifier.bytes),
      IsWord c ∨ c = colon := by
    apply forall_mem_intercalate
    · decide +kernel
    · exact List.forall_mem_map.mpr fun id _ c hc => Or.inl (id.ok.2.1 c hc)
  rw [moduleParts, moduleStatements]
  -- the includes and the configuration
  refine FindsIn.skip (Q := Fresh) (finds_include h rfl hns) ?_
  refine FindsIn.skip (Q := Fresh) (h.finds_nil (by decide +kernel)) ?_
  refine FindsIn.skip (Q := Fresh) (h.finds_services _ (by decide +kernel)) ?_
  refine FindsIn.skip (Q := Fresh) (h.finds_nil (by decide +kernel)) ?_
  -- the commands
  refine FindsIn.skip (Q := Fresh) (h.finds_services _ (by decide +kernel)) ?_
  refine FindsIn.skip (Q := Listed) (h.finds_nil (by decide +kernel)) ?_
  refine FindsIn.skip (Q := Listed) (h.finds_services _ (by decide +kernel)) ?_
  refine FindsIn.skip (Q := Fresh) (h.finds_nil (by decide +kernel)) ?_
  -- the declarations of the module
  refine FindsIn.skip (Q := Fresh) (h.finds_nil (by decide +kernel)) ?_
  refine FindsIn.skip (Q := Fresh) (h.finds_nil (by decide +kernel)) ?_
  refine FindsIn.skip (Q := Fresh) (h.finds_nil (by decide +kernel)) ?_
  refine FindsIn.skip (Q := Fresh) (h.finds_nil (by decide +kernel)) ?_
  -- the function that creates the configuration
  refine FindsIn.skip (Q := Fresh) (h.finds_nil (by decide +kernel)) ?_
  refine FindsIn.skip (Q := Fresh) (h.finds_services _ (by decide +kernel)) ?_
  refine FindsIn.skip (Q := Fresh) (h.finds_nil (by decide +kernel)) ?_
  -- the handlers
  rw [FileDescriptor.methods, List.flatMap_assoc]
  simp only [List.flatMap_map]
  refine .cons (Q := Fresh) (.each fun s _ => .each fun m _ => h.finds_handler s m) ?_
  -- the functions that register them, and the one that ends the process
  have hexit : FindsIn rules Fresh Fresh (concat
      [format (fileVars file _ _) ngxRpcExitStart 0,
        concat (file.services.map fun s =>
          format (serviceVars (fileVars file _ _) s) ngxRpcExitItem 0),
        format (fileVars file _ _) ngxRpcExitEnd 0]) [] :=
    .cons (Q := Fresh) (h.finds_nil (by decide +kernel)) <|
      .cons (Q := Fresh) (h.finds_services _ (by decide +kernel)) <|
        .cons (Q := Fresh) (h.finds_nil (by decide +kernel)) (.nil Fresh)
  simpa using FindsIn.cons (.each fun s _ => h.finds_setter rfl s) hexit

end Parts

/-! ## The functions -/

theorem splitFunctions_body {body : List Statement} (h : ∀ f ∈ body, f.kind.heads = false)
    (rest : List Statement) : splitFunctions (body ++ rest) =
      (body ++ (splitFunctions rest).1, (splitFunctions rest).2) := by
  induction body with
  | nil => rfl
  | cons f body ih =>
    have hbody := ih fun g hg => h g (List.mem_cons_of_mem f hg)
    rw [List.cons_append, splitFunctions, hbody, h f List.mem_cons_self]
    rfl

/-- Each head begins a function with the body behind it. -/
theorem splitFunctions_flatMap {ι : Type} {head : ι → Statement} {body : ι → List Statement}
    (hhead : ∀ x, (head x).kind.heads = true) (hbody : ∀ x, ∀ f ∈ body x, f.kind.heads = false)
    {rest : List Statement} (hrest : (splitFunctions rest).1 = []) (xs : List ι) :
    splitFunctions (xs.flatMap (fun x => head x :: body x) ++ rest) =
      ([], xs.map (fun x => ⟨(head x).parts.headD [], body x⟩) ++ (splitFunctions rest).2) := by
  induction xs with
  | nil => exact Prod.ext hrest rfl
  | cons x xs ih =>
    rw [List.flatMap_cons, List.append_assoc, List.cons_append, splitFunctions,
      splitFunctions_body (hbody x), ih, hhead x, if_pos rfl, List.append_nil]
    rfl

theorem functions_moduleStatements (file : FileDescriptor) :
    (splitFunctions (moduleStatements file)).2 =
      (file.methods.map fun x => ⟨file.handlerName x.1 x.2, handlerBody x.1 x.2⟩) ++
        file.services.map fun s => ⟨file.setterName s, setterBody file s⟩ := by
  have hpush : ∀ c : MethodConf (List UInt8) Field, ∀ f ∈ pushStatements c,
      f.kind.heads = false := by
    intro c f hf
    simp only [pushStatements, List.mem_cons, List.not_mem_nil, or_false] at hf
    obtain rfl | rfl | rfl | rfl := hf <;> rfl
  have hsetter : ∀ s, ∀ f ∈ setterBody file s, f.kind.heads = false := by
    intro s f hf
    obtain rfl | hf := List.mem_cons.mp hf
    · rfl
    · obtain ⟨m, -, hf⟩ := List.mem_flatMap.mp hf
      obtain ⟨c, -, hf⟩ := List.mem_flatMap.mp hf
      exact hpush c f hf
  have hhandler : ∀ x : ServiceDescriptor × MethodDescriptor, ∀ f ∈ handlerBody x.1 x.2,
      f.kind.heads = false := by
    intro x f hf
    simp only [handlerBody, List.mem_cons, List.not_mem_nil, or_false] at hf
    obtain rfl | rfl | rfl | rfl := hf <;> rfl
  have hsetters := @splitFunctions_flatMap _ (fun s => ⟨.setter, [file.setterName s]⟩)
    (setterBody file) (fun _ => rfl) hsetter [] rfl file.services
  rw [List.append_nil] at hsetters
  have hhandlers := @splitFunctions_flatMap _ (fun x => ⟨.handler, [file.handlerName x.1 x.2]⟩)
    (fun x => handlerBody x.1 x.2) (fun _ => rfl) hhandler _ (by rw [hsetters]) file.methods
  rw [moduleStatements, hhandlers, hsetters, show (splitFunctions []).2 = [] from rfl,
    List.append_nil]
  rfl

theorem pushed_pushStatements (cs : List (MethodConf (List UInt8) Field)) :
    pushed (cs.flatMap pushStatements) = cs := by
  induction cs with
  | nil => rfl
  | cons c cs ih => exact congrArg (c :: ·) ih

theorem created_pushStatements (cs : List (MethodConf (List UInt8) Field)) :
    created (cs.flatMap pushStatements) = [] := by
  induction cs with
  | nil => rfl
  | cons c cs ih => exact ih

theorem meaning_handler (file : FileDescriptor) (s : ServiceDescriptor) (m : MethodDescriptor) :
    Function.meaning ⟨file.handlerName s m, handlerBody s m⟩ =
      ⟨file.handlerName s m, some (s.call m), [], []⟩ := by
  have hcall : Function.call ⟨file.handlerName s m, handlerBody s m⟩ = some (s.call m) :=
    if_pos ⟨rfl, rfl, rfl⟩
  rw [Function.meaning, hcall]
  rfl

theorem meaning_setter (file : FileDescriptor) (s : ServiceDescriptor) :
    Function.meaning ⟨file.setterName s, setterBody file s⟩ =
      ⟨file.setterName s, none, s.methods.flatMap fun m => (file.protoMethod s m).confs,
        [(file.implField s, s.className)]⟩ := by
  have hbody : setterBody file s =
      ⟨.create, [(file.implField s).1, (file.implField s).2, s.className]⟩ ::
        (s.methods.flatMap fun m => (file.protoMethod s m).confs).flatMap pushStatements := by
    rw [setterBody, List.flatMap_assoc]
  have hpushed : pushed (setterBody file s) =
      s.methods.flatMap fun m => (file.protoMethod s m).confs := by
    rw [hbody]
    exact pushed_pushStatements _
  have hcreated : created (setterBody file s) = [(file.implField s, s.className)] := by
    rw [hbody]
    exact congrArg (_ :: ·) (created_pushStatements _)
  rw [Function.meaning, hpushed, hcreated]
  rfl

/-- What is found in the source file. -/
theorem found_module {file : FileDescriptor} (hname : IsIdentifier (stripProto file.name)) :
    ∃ source, getNgxModuleHeader file = some source ∧
      found rules source = moduleStatements file := by
  obtain ⟨source, hparts, hfinds⟩ := findsIn_moduleParts hname
  exact ⟨source, printNgxModuleHeader_of_parts format_mono (replaceDot_dotted _ _)
    (replaceDot_dotted _ _) hparts, hfinds.found_eq (List.mem_singleton_self _)⟩

theorem program_eq_meaning {file : FileDescriptor} {source : List UInt8}
    (hfound : found rules source = moduleStatements file) : program source = file.meaning := by
  rw [program, functions, hfound, functions_moduleStatements, List.map_append, List.map_map,
    List.map_map, FileDescriptor.meaning]
  exact congrArg₂ _ (List.map_congr_left fun x _ => meaning_handler file x.1 x.2)
    (List.map_congr_left fun s _ => meaning_setter file s)

/-- The source file has a handler for each method, which calls the method, and a function for each
service, which registers the two routes of each of its methods, with the handler of the method and
the object that it has made for the service. It has no other function of this kind. -/
theorem module_means {file : FileDescriptor} (hname : IsIdentifier (stripProto file.name)) :
    ∃ source, getNgxModuleHeader file = some source ∧ program source = file.meaning := by
  obtain ⟨source, hsource, hfound⟩ := found_module hname
  exact ⟨source, hsource, program_eq_meaning hfound⟩

theorem module_means_user :
    ∃ source, getNgxModuleHeader userFile = some source ∧ program source = userFile.meaning :=
  module_means (by decide +kernel)

end NgxRpc.Generator
