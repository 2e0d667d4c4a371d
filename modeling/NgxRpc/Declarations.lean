import NgxRpc.Registration

/-!
# Calls across the generated files

The header that `GetServerImplHeader` prints is read like the source file. The class of a service
declares each of its methods with the types with which the handler calls it, so a request for a
route of a method runs through the handler to this method.

## Main definitions

- `declared` — the methods that the classes of a text declare
- `callOf`, `classOf` — what the handler of a name calls, and the class of the object in a field

## Main results

- `calls_declared` — the calls of the source file are the declarations of the header
- `route_calls` — a request for a route of a method calls this method
-/

namespace NgxRpc.Generator
open SourceText Template

/-! ## Forms -/

/-- The head of a class, or of a method. -/
inductive HeaderForm where
  | classHead
  | method
deriving DecidableEq

def HeaderForm.text : HeaderForm → List UInt8
  | .classHead => lit "class $ \x7b" rfl
  | .method => lit "void $(RpcChannel *channel, const $* request, $* response," rfl ++
      lit " RpcCallHandler done) \x7b" rfl

def headerRules : List (Rule HeaderForm) :=
  [HeaderForm.classHead, .method].map fun f => ⟨f, patternOf f.text⟩

/-- The methods that are declared in the class `className`, and in those behind it. -/
def declaredIn : List UInt8 → List (Found HeaderForm (List UInt8)) → List Call
  | _, ⟨.classHead, [className]⟩ :: fs => declaredIn className fs
  | className, ⟨.method, [method, request, response]⟩ :: fs =>
    ⟨className, method, request, response⟩ :: declaredIn className fs
  | className, _ :: fs => declaredIn className fs
  | _, [] => []

/-- The methods that the classes of a text declare. -/
def declared (text : List UInt8) : List Call := declaredIn [] (found headerRules text)

/-- What is found in the class of a service. -/
def classStatements (s : ServiceDescriptor) : List (Found HeaderForm (List UInt8)) :=
  ⟨.classHead, [s.className]⟩ :: s.methods.map fun m =>
    ⟨.method, [m.name.bytes, m.inputType.bytes, m.outputType.bytes]⟩

/-! ## Namespaces -/

/-- No statement has begun, or a directive stands in front. -/
def Headed (w : List (List Piece)) : Prop := w = [] ∨ Begins [[.code 35]] w

theorem headed_of_fresh {w : List (List Piece)} (h : Fresh w) : Headed w :=
  Or.inl (List.mem_singleton.mp h)

/-- The pieces in front of the brace of a namespace. -/
def namespacePieces (name : List UInt8) : List Piece :=
  (lit "namespace" rfl).map .code ++ [.code space] ++ (name.map .code ++ [.code space])

/-- The line that opens a namespace. -/
theorem finds_opened {name tail : List UInt8} {spaces : List Piece}
    (hname : ∀ c ∈ name, isWord c = true) (hplain : ∀ c ∈ name, Plain c)
    (htail : scanPieces .code tail = (.code, .code space :: .code openBrace :: spaces))
    (hspaces : ∀ q ∈ spaces, pieces.word q = false ∧ pieces.space q = true) :
    Finds headerRules Headed Fresh (lit "namespace " rfl ++ (name ++ tail)) [] := by
  have hword : scanPieces .code (lit "namespace " rfl) =
      (.code, (lit "namespace" rfl).map .code ++ [.code space]) := rfl
  have hscan : scanPieces .code (lit "namespace " rfl ++ (name ++ tail)) =
      (.code, namespacePieces name ++ [.code openBrace] ++ spaces) := by
    rw [scanPieces_append, scanPieces_append, hword, scanPieces_plain (m := .code) rfl hplain,
      htail]
    simp [placed, namespacePieces]
  have hquiet : (namespacePieces name).any Piece.ends = false := by
    have hnone : (name.map Piece.code).any Piece.ends = false := by
      rw [List.any_eq_false, List.forall_mem_map]
      exact fun c hc => Bool.eq_false_iff.mp (Piece.ends_word (hname c hc))
    rw [namespacePieces, List.any_append, List.any_append, List.any_append, hnone]
    rfl
  refine finds_silent hscan hquiet (by decide) hspaces (fun w hw => ?_) (List.mem_singleton_self _)
  have hspace : pieces.word (.code space) = false := by decide
  rw [namespacePieces, tokensFrom_append [] _ hspace]
  obtain rfl | ⟨rest, rfl⟩ := hw
  · rfl
  · rfl

/-- The namespaces of a package. -/
theorem finds_namespaces (package : List Identifier) :
    Finds headerRules Headed Fresh (lit "namespace " rfl ++
      ((lit " \x7b\nnamespace " rfl).intercalate (package.map Identifier.bytes) ++
        lit " \x7b\n\n\n\n" rfl)) [] := by
  have hend : scanPieces .code (lit " \x7b\n\n\n\n" rfl) =
      (.code, .code space :: .code openBrace :: (lit "\n\n\n\n" rfl).map .code) := rfl
  have hspaces : ∀ q ∈ (lit "\n\n\n\n" rfl).map Piece.code,
      pieces.word q = false ∧ pieces.space q = true := by
    decide
  induction package with
  | nil => exact @finds_opened [] _ _ (by simp) (by simp) hend hspaces
  | cons id ids ih =>
    have hid := isWord_identifier id
    have hplain := plain_identifier id
    cases ids with
    | nil =>
      rw [List.map_singleton, List.intercalate_singleton]
      exact finds_opened hid hplain hend hspaces
    | cons id' ids =>
      have hline : scanPieces .code (lit " \x7b\n" rfl) =
          (.code, [.code space, .code openBrace, .code newline]) := rfl
      have hfirst := finds_opened hid hplain hline (by decide)
      have hsep : lit " \x7b\nnamespace " rfl = lit " \x7b\n" rfl ++ lit "namespace " rfl := by
        decide
      have hboth := hfirst.append (ih.mono (fun _ => headed_of_fresh) fun _ hw => hw)
      simpa only [List.map_cons, List.intercalate_cons_cons, hsep, List.append_assoc,
        List.append_nil] using hboth

/-- A closing brace, and a comment to the end of the line. -/
theorem finds_closed {front name tail : List UInt8} {spaces : List Piece}
    (hfront : scanPieces .code front = (.line, [.code closeBrace, .code space]))
    (hname : ∀ c ∈ name, Plain c) (htail : scanPieces .line tail = (.code, spaces))
    (hspaces : ∀ q ∈ spaces, pieces.word q = false ∧ pieces.space q = true) :
    Finds headerRules Fresh Fresh (front ++ (name ++ tail)) [] := by
  have hscan : scanPieces .code (front ++ (name ++ tail)) =
      (.code, [] ++ [.code closeBrace] ++ (.code space :: spaces)) := by
    rw [scanPieces_append, scanPieces_append, hfront, scanPieces_plain (m := .line) rfl hname,
      htail]
    rfl
  refine finds_silent hscan rfl (by decide) ?_ (fun w hw => ?_) (List.mem_singleton_self _)
  · exact List.forall_mem_cons.mpr ⟨by decide, hspaces⟩
  · rw [List.mem_singleton.mp hw]
    rfl

/-- The end of the namespaces: each dot of the package ends a comment and is followed by a brace and
another comment. -/
theorem finds_namespaceEnd {front : List UInt8}
    (hfront : scanPieces .code front = (.line, [.code closeBrace, .code space]))
    (package : List Identifier) :
    Finds headerRules Fresh Fresh (front ++
      ((lit " \n\x7d //for " rfl).intercalate (package.map Identifier.bytes) ++
        lit "\n\n\n\n" rfl)) [] := by
  have hend : scanPieces .line (lit "\n\n\n\n" rfl) = (.code, (lit "\n\n\n\n" rfl).map .code) := rfl
  have hspaces : ∀ q ∈ (lit "\n\n\n\n" rfl).map Piece.code,
      pieces.word q = false ∧ pieces.space q = true := by
    decide
  induction package generalizing front with
  | nil => exact @finds_closed _ [] _ _ hfront (by simp) hend hspaces
  | cons id ids ih =>
    have hplain := plain_identifier id
    cases ids with
    | nil =>
      rw [List.map_singleton, List.intercalate_singleton]
      exact finds_closed hfront hplain hend hspaces
    | cons id' ids =>
      have hline : scanPieces .line (lit " \n" rfl) = (.code, [.code newline]) := rfl
      have hfirst := finds_closed hfront hplain hline (by decide)
      have hrest := @ih (lit "\x7d //for " rfl) rfl
      have hsep : lit " \n\x7d //for " rfl = lit " \n" rfl ++ lit "\x7d //for " rfl := by
        decide
      simpa only [hsep, List.map_cons, List.intercalate_cons_cons, List.append_assoc,
        List.append_nil] using hfirst.append hrest

/-! ## The header -/

theorem symbols_front : (concat [symbols ngxRpcServerHeaderStart pMargin,
    symbols ngxRpcServerInclude pMargin]).any
      (leaves headerRules fileNames [[.code 35]]) = true := by
  decide +kernel

/-- The directives in front. -/
theorem finds_front {vars : Vars} (h : Names vars fileNames) :
    FindsIn headerRules Fresh Headed (concat [format vars ngxRpcServerHeaderStart pMargin,
      format vars ngxRpcServerInclude pMargin]) [] := by
  obtain ⟨l, hl, hleaves⟩ := (Option.any_eq_true _ _).mp symbols_front
  obtain ⟨a, b, ha, hb, -⟩ := concat_cons_eq_some.mp hl
  obtain ⟨b', -, hb', -, -⟩ := concat_cons_eq_some.mp hb
  have hparts := @concat_render Var vars _ _ hl
  simp only [List.map_cons, List.map_nil, ha, hb', Option.bind_some] at hparts
  obtain ⟨text, hrender, htext⟩ := h.finds_leaves hleaves
  rw [FindsIn, format_eq_render ha, format_eq_render hb', hparts]
  exact ⟨text, hrender, htext.mono (fun _ hw => hw) fun _ hw => Or.inr hw⟩

theorem symbols_headerEnd :
    (symbols ngxRpcServerHeaderEnd pMargin).any (leaves headerRules fileNames []) = true := by
  decide +kernel

def classStartSyms : List (Found HeaderForm (List (PieceSym Var))) := [⟨.classHead, [classSyms]⟩]

def methodSyms : List (Found HeaderForm (List (PieceSym Var))) :=
  [⟨.method, [[.inCode .protoServerMethodName], [.inCode .protoServerMethodRequestName],
    [.inCode .protoServerMethodResponseName]]⟩]

theorem finds_classStart : formatFinds headerRules serviceNames [[]] [[]] ngxRpcServerClassStart
    pMargin classStartSyms = true := by
  decide +kernel

theorem finds_method :
    formatFinds headerRules methodNames [[]] [[]] ngxRpcServerMethod pMargin methodSyms = true := by
  decide +kernel

theorem spelled_classStart (vars : Vars) (s : ServiceDescriptor) :
    classStartSyms.map (Found.map (spelled (serviceVars vars s))) =
      [⟨.classHead, [s.className]⟩] := by
  simp [classStartSyms, classSyms, Found.map, serviceVars, Vars.set, ServiceDescriptor.className]

theorem spelled_method (vars : Vars) (m : MethodDescriptor) :
    methodSyms.map (Found.map (spelled (methodVars vars m))) =
      [⟨.method, [m.name.bytes, m.inputType.bytes, m.outputType.bytes]⟩] := by
  simp [methodSyms, Found.map, methodVars, Vars.set]

/-- What is found in the class of a service. -/
theorem Names.finds_class {vars : Vars} (h : Names vars fileNames) (s : ServiceDescriptor) :
    FindsIn headerRules Fresh Fresh (concat
      [format (serviceVars vars s) ngxRpcServerClassStart pMargin,
        concat (s.methods.map fun m =>
          format (methodVars (serviceVars vars s) m) ngxRpcServerMethod pMargin),
        format (serviceVars vars s) ngxRpcServerClassEnd pMargin]) (classStatements s) := by
  have hstart := (h.service s).finds (List.cons_ne_nil _ _) finds_classStart
  rw [spelled_classStart] at hstart
  have hmethods := FindsIn.each fun m (_ : m ∈ s.methods) =>
    ((h.service s).method m).finds (List.cons_ne_nil _ _) finds_method
  simp only [spelled_method] at hmethods
  have hend : FindsIn headerRules Fresh Fresh
      (format (serviceVars vars s) ngxRpcServerClassEnd pMargin) [] :=
    (h.service s).finds_nil (by decide +kernel)
  have hparts := hstart.cons (hmethods.cons (hend.cons (.nil Fresh)))
  rwa [List.append_nil, List.append_nil, ← List.map_eq_flatMap] at hparts

theorem Names.keep {vars : Vars} {vs : List Var} (h : Names vars vs) {key : Var}
    (hkey : key ∉ Var.protoNamepath :: vs) (value : List UInt8) :
    Names (vars.set key value) vs where
  toValues := h.toValues.keep hkey value
  word := by
    intro v hv
    have hne : v ≠ key := fun hvk => hkey (hvk ▸ List.mem_cons_of_mem _ hv)
    rw [set_of_ne hne]
    exact h.word v hv

/-- What is found in the parts of the header. -/
theorem findsIn_headerParts {file : FileDescriptor} (hname : IsIdentifier (stripProto file.name))
    {ns path nsEnd : List UInt8}
    (hns : ns = (lit " \x7b\nnamespace " rfl).intercalate (file.package.map Identifier.bytes))
    (hpath : path = (lit "/" rfl).intercalate (file.package.map Identifier.bytes))
    (hnsEnd : nsEnd =
      (lit " \n\x7d //for " rfl).intercalate (file.package.map Identifier.bytes)) :
    FindsIn headerRules Fresh (Begins []) (headerParts format file ns path nsEnd)
      (file.services.flatMap classStatements) := by
  unfold headerParts
  extract_lets vars
  have h : Names vars fileNames := by
    subst hpath
    exact names_file hname ns
  have hopened : FindsIn headerRules Headed Fresh
      (format vars ngxRpcServerNamespaceStart pMargin) [] :=
    ⟨_, (format_namespaceStart (congrArg some hns)).1, finds_namespaces file.package⟩
  have hclosed : FindsIn headerRules Fresh Fresh
      (format (vars.set .protoNamespace nsEnd) ngxRpcServerNamespaceEnd pMargin) [] := by
    refine ⟨_, format_namespaceEnd (set_self _ _ _), ?_⟩
    rw [hnsEnd]
    exact finds_namespaceEnd rfl file.package
  have hlast : FindsIn headerRules Fresh (Begins [])
      (format (vars.set .protoNamespace nsEnd) ngxRpcServerHeaderEnd pMargin) [] := by
    obtain ⟨l, hl, hleaves⟩ := (Option.any_eq_true _ _).mp symbols_headerEnd
    rw [FindsIn, format_eq_render hl]
    exact (h.keep (by decide) nsEnd).finds_leaves hleaves
  have hclasses := FindsIn.each fun s (_ : s ∈ file.services) => h.finds_class s
  have hall := (finds_front h).cons
    (hopened.cons (hclasses.cons (hclosed.cons (hlast.cons (.nil _)))))
  rw [concat_pair] at hall
  simpa only [List.nil_append, List.append_nil] using hall

/-- What is found in the header. -/
theorem found_header {file : FileDescriptor} (hname : IsIdentifier (stripProto file.name)) :
    ∃ header, getServerImplHeader file = some header ∧
      found headerRules header = file.services.flatMap classStatements := by
  obtain ⟨header, hheader, hfinds⟩ := findsIn_headerParts hname rfl rfl rfl
  exact ⟨header, printServerImplHeader_of_parts format_mono (replaceDot_dotted _ _)
    (replaceDot_dotted _ _) (replaceDot_dotted _ _) hheader,
    hfinds.found_eq (List.mem_singleton_self _)⟩

/-! ## Calls and declarations -/

theorem declaredIn_methods (s : ServiceDescriptor) (ms : List MethodDescriptor)
    (rest : List (Found HeaderForm (List UInt8))) :
    declaredIn s.className ((ms.map fun m =>
        ⟨.method, [m.name.bytes, m.inputType.bytes, m.outputType.bytes]⟩) ++ rest) =
      ms.map s.call ++ declaredIn s.className rest := by
  induction ms with
  | nil => rfl
  | cons m ms ih => exact congrArg (s.call m :: ·) ih

/-- The classes of services declare their methods. -/
theorem declaredIn_services (className : List UInt8) (ss : List ServiceDescriptor) :
    declaredIn className (ss.flatMap classStatements) =
      ss.flatMap fun s => s.methods.map s.call := by
  induction ss generalizing className with
  | nil => rfl
  | cons s ss ih =>
    rw [List.flatMap_cons, List.flatMap_cons, ← ih s.className]
    exact declaredIn_methods s s.methods _

theorem filterMap_call_meaning (file : FileDescriptor) :
    file.meaning.filterMap Meaning.call = file.methods.map fun x => x.1.call x.2 := by
  rw [FileDescriptor.meaning, List.filterMap_append, List.filterMap_map, List.filterMap_map]
  have hsetters : file.services.filterMap (Meaning.call ∘ fun s => ⟨file.setterName s, none,
      s.methods.flatMap fun m => (file.protoMethod s m).confs,
      [(file.implField s, s.className)]⟩) = [] :=
    List.filterMap_eq_nil_iff.mpr fun _ _ => rfl
  rw [hsetters, List.append_nil]
  exact congrFun (@List.filterMap_eq_map _ _ fun x => x.1.call x.2) file.methods

/-- The header declares the methods of the file. -/
theorem declared_header {file : FileDescriptor} (hname : IsIdentifier (stripProto file.name)) :
    ∃ header, getServerImplHeader file = some header ∧
      declared header = file.methods.map fun x => x.1.call x.2 := by
  obtain ⟨header, hheader, hfound⟩ := found_header hname
  refine ⟨header, hheader, ?_⟩
  rw [declared, hfound, declaredIn_services, FileDescriptor.methods, List.map_flatMap]
  simp only [List.map_map, Function.comp_def]

/-- The calls that the handlers of the source file make are the methods that the classes of the
header declare: the same classes, names and types, each once and in the same order. -/
theorem calls_declared {file : FileDescriptor} (hname : IsIdentifier (stripProto file.name)) :
    ∃ source header, getNgxModuleHeader file = some source ∧
      getServerImplHeader file = some header ∧
        (program source).filterMap Meaning.call = declared header ∧
          declared header = file.methods.map fun x => x.1.call x.2 := by
  obtain ⟨source, hsource, hfound⟩ := found_module hname
  obtain ⟨header, hheader, hdeclared⟩ := declared_header hname
  refine ⟨source, header, hsource, hheader, ?_, hdeclared⟩
  rw [program_eq_meaning hfound, filterMap_call_meaning, hdeclared]

theorem calls_declared_user :
    ∃ source header, getNgxModuleHeader userFile = some source ∧
      getServerImplHeader userFile = some header ∧
        (program source).filterMap Meaning.call = declared header ∧
          declared header = userFile.methods.map fun x => x.1.call x.2 :=
  calls_declared (by decide +kernel)

/-! ## Requests -/

/-- What the handler with the name `handler` calls. -/
def callOf (source handler : List UInt8) : Option Call :=
  ((program source).find? fun f => f.name = handler).bind Meaning.call

/-- The class of the object in a field. -/
def classOf (source : List UInt8) (field : Field) : Option (List UInt8) :=
  (((program source).flatMap Meaning.creates).find? fun o => o.1 = field).map Prod.snd

section Names

variable {file : FileDescriptor} {x y : ServiceDescriptor × MethodDescriptor}

theorem FileDescriptor.mem_methods :
    x ∈ file.methods ↔ x.1 ∈ file.services ∧ x.2 ∈ x.1.methods := by
  simp only [methods, List.mem_flatMap, List.mem_map]
  constructor
  · rintro ⟨s, hs, m, hm, rfl⟩
    exact ⟨hs, hm⟩
  · rintro ⟨hs, hm⟩
    exact ⟨x.1, hs, x.2, hm, rfl⟩

/-- The names of services and methods. -/
theorem FileDescriptor.services_names (h : file.Accepted) :
    (file.names h).services.map (fun s => (s.name, s.methods)) =
      file.services.map fun s => (s.name, s.methods.map MethodDescriptor.name) := by
  rw [names, List.map_map]
  exact List.attach_map_val
    (f := fun s : ServiceDescriptor => (s.name, s.methods.map MethodDescriptor.name))

/-- The names of handlers are made from the names in the file. -/
theorem FileDescriptor.handlers_names (h : file.Accepted) :
    (file.methods.map fun x => file.handlerName x.1 x.2) =
      (file.names h).methods.map (file.names h).handler := by
  have hproto : (file.names h).protoName = file.protoName := rfl
  have hservice := congrArg (List.flatMap fun s : Identifier × List Identifier =>
    s.2.map fun m => lit "ngxrpc_" rfl ++ (file.protoName ++ underscore :: (lower s.1.bytes ++
      underscore :: m.bytes))) (services_names h)
  rw [List.flatMap_map, List.flatMap_map] at hservice
  rw [FileDescriptor.methods, NgxRpc.FileDescriptor.methods, List.map_flatMap, List.map_flatMap]
  simp only [List.map_map, Function.comp_def] at hservice ⊢
  refine Eq.trans hservice.symm ?_
  simp only [NgxRpc.FileDescriptor.handler, hproto, lit_eq_asciiBytes, List.append_assoc]

theorem handlerName_inj (h : file.Accepted) (hdistinct : (file.names h).NamesDistinct)
    (hx : x ∈ file.methods) (hy : y ∈ file.methods)
    (heq : file.handlerName x.1 x.2 = file.handlerName y.1 y.2) : x = y := by
  have hnodup := (List.nodup_append.mp hdistinct.functions).1
  rw [← FileDescriptor.handlers_names h] at hnodup
  exact List.inj_on_of_nodup_map hnodup hx hy heq

theorem implField_inj (h : file.Accepted) (hdistinct : (file.names h).NamesDistinct)
    {s t : ServiceDescriptor} (hs : s ∈ file.services) (ht : t ∈ file.services)
    (heq : file.implField s = file.implField t) : s = t := by
  have hcase := NgxRpc.FileDescriptor.confFields_nodup_iff.mp hdistinct.fields
  have hlower := congrArg (List.map fun s : Identifier × List Identifier => lower s.1.bytes)
    (FileDescriptor.services_names h)
  rw [List.map_map, List.map_map] at hlower
  have hnodup : (file.services.map fun s => lower s.name.bytes).Nodup :=
    Eq.mp (congrArg List.Nodup hlower) hcase
  exact List.inj_on_of_nodup_map hnodup hs ht (List.append_cancel_right (Prod.mk.inj heq).2)

/-- An element is found by its key when no other one has the key. -/
theorem find?_map_key {α β κ : Type} [DecidableEq κ] {l : List α} {g : α → β} {key : β → κ} {a : α}
    (ha : a ∈ l) (hkey : ∀ b ∈ l, key (g b) = key (g a) → b = a) :
    (l.map g).find? (fun b => key b = key (g a)) = some (g a) := by
  cases hfind : (l.map g).find? fun b => key b = key (g a) with
  | none =>
    have hnot := List.find?_eq_none.mp hfind (g a) (List.mem_map_of_mem ha)
    simp at hnot
  | some c =>
    obtain ⟨b, hb, rfl⟩ := List.mem_map.mp (List.mem_of_find?_eq_some hfind)
    have heq : key (g b) = key (g a) := by simpa using List.find?_some hfind
    rw [hkey b hb heq]

/-- Each handler has a name of its own, and calls its method. -/
theorem callOf_handlerName (h : file.Accepted) (hdistinct : (file.names h).NamesDistinct)
    {source : List UInt8} (hprogram : program source = file.meaning) (hx : x ∈ file.methods) :
    callOf source (file.handlerName x.1 x.2) = some (x.1.call x.2) := by
  have hfind := @find?_map_key _ Meaning _ _ _
    (fun x => ⟨file.handlerName x.1 x.2, some (x.1.call x.2), [], []⟩) Meaning.name x hx
    fun y hy => handlerName_inj h hdistinct hy hx
  rw [callOf, hprogram, FileDescriptor.meaning, List.find?_append, hfind]
  rfl

/-- The object of each service is made for a field of its own. -/
theorem classOf_implField (h : file.Accepted) (hdistinct : (file.names h).NamesDistinct)
    {source : List UInt8} (hprogram : program source = file.meaning) {s : ServiceDescriptor}
    (hs : s ∈ file.services) : classOf source (file.implField s) = some s.className := by
  have hcreates : file.meaning.flatMap Meaning.creates =
      file.services.map fun s => (file.implField s, s.className) := by
    rw [FileDescriptor.meaning, List.flatMap_append, List.flatMap_map, List.flatMap_map,
      List.flatMap_eq_nil_iff.mpr fun _ _ => rfl, List.nil_append, List.map_eq_flatMap]
  have hfind := @find?_map_key _ (Field × List UInt8) _ _ _
    (fun s => (file.implField s, s.className)) Prod.fst s hs
    fun t ht => implField_inj h hdistinct ht hs
  rw [classOf, hprogram, hcreates, hfind]
  rfl

/-! ## Routes -/

/-- Every element that functions of the source file push is one of a method. -/
theorem mem_methods_of_pushes {fs : List Meaning} (hfs : fs ⊆ file.meaning)
    {c : MethodConf (List UInt8) Field} (hc : c ∈ fs.flatMap Meaning.pushes) :
    ∃ x ∈ file.methods, c ∈ (file.protoMethod x.1 x.2).confs := by
  obtain ⟨f, hf, hcf⟩ := List.mem_flatMap.mp hc
  obtain hhandler | hsetter := List.mem_append.mp (hfs hf)
  · obtain ⟨x, -, rfl⟩ := List.mem_map.mp hhandler
    exact absurd hcf List.not_mem_nil
  · obtain ⟨s, hs, rfl⟩ := List.mem_map.mp hsetter
    obtain ⟨m, hm, hcm⟩ := List.mem_flatMap.mp hcf
    exact ⟨(s, m), FileDescriptor.mem_methods.mpr ⟨hs, hm⟩, hcm⟩

theorem mem_pushes_of_methods (hx : x ∈ file.methods) {c : MethodConf (List UInt8) Field}
    (hc : c ∈ (file.protoMethod x.1 x.2).confs) : c ∈ file.meaning.flatMap Meaning.pushes := by
  obtain ⟨hs, hm⟩ := FileDescriptor.mem_methods.mp hx
  refine List.mem_flatMap.mpr ⟨_, List.mem_append_right _ (List.mem_map_of_mem hs), ?_⟩
  exact List.mem_flatMap.mpr ⟨x.2, hm, hc⟩

/-- The routes of methods in lower case are those of one element each. -/
theorem conf_inj (h : file.Accepted) (hdistinct : (file.names h).NamesDistinct)
    (hlower : ∀ x ∈ file.methods, (file.protoMethod x.1 x.2).LowerCase) (hx : x ∈ file.methods)
    (hy : y ∈ file.methods) {c c' : MethodConf (List UInt8) Field}
    (hc : c ∈ (file.protoMethod x.1 x.2).confs) (hc' : c' ∈ (file.protoMethod y.1 y.2).confs)
    (heq : strlow c'.name = c.name) : c' = c := by
  obtain ⟨sep, hsep, rfl⟩ := ProtoMethod.mem_confs_iff.mp hc
  obtain ⟨sep', hsep', rfl⟩ := ProtoMethod.mem_confs_iff.mp hc'
  have hroute : (file.protoMethod y.1 y.2).route sep' = (file.protoMethod x.1 x.2).route sep :=
    ((ProtoMethod.strlow_route_iff hsep').mpr (hlower y hy)).symm.trans heq
  obtain ⟨rfl, hfull⟩ := ProtoMethod.route_inj hsep' hsep hroute
  obtain ⟨-, hnames⟩ := Prod.mk.inj hfull
  obtain ⟨hservice, hname⟩ := Prod.mk.inj hnames
  have hservice : y.1.name.bytes = x.1.name.bytes := hservice
  have hname : y.2.name.bytes = x.2.name.bytes := hname
  have hhandler : file.handlerName y.1 y.2 = file.handlerName x.1 x.2 := by
    rw [FileDescriptor.handlerName, FileDescriptor.handlerName, hservice, hname]
  rw [handlerName_inj h hdistinct hy hx hhandler]

/-- The routes of a method that functions of the source file register lead to its element. -/
theorem httpHandler_pushes (h : file.Accepted) (hdistinct : (file.names h).NamesDistinct)
    (hlower : ∀ x ∈ file.methods, (file.protoMethod x.1 x.2).LowerCase) {fs : List Meaning}
    (hfs : fs ⊆ file.meaning) {N : NgxHash (MethodConf (List UInt8) Field)} (hN : N.Lawful)
    {pushed : Bool} {table : N.Table}
    (hconf : postconfiguration N pushed (fs.flatMap Meaning.pushes) = some table)
    {c : MethodConf (List UInt8) Field} (hx : x ∈ file.methods)
    (hcx : c ∈ (file.protoMethod x.1 x.2).confs) (hc : c ∈ fs.flatMap Meaning.pushes)
    (room : Bool) : httpHandler N (some ⟨true, table⟩) room none c.name = .taken room c := by
  have hlow : strlow c.name = c.name := by
    obtain ⟨sep, hsep, rfl⟩ := ProtoMethod.mem_confs_iff.mp hcx
    exact (ProtoMethod.strlow_route_iff hsep).mpr (hlower x hx)
  have hfind : ((fs.flatMap Meaning.pushes).find? fun c' => strlow c'.name = c.name) = some c := by
    cases hcase : (fs.flatMap Meaning.pushes).find? fun c' => strlow c'.name = c.name with
    | none =>
      have hnot := List.find?_eq_none.mp hcase c hc
      simp [hlow] at hnot
    | some c' =>
      have heq : strlow c'.name = c.name := by simpa using List.find?_some hcase
      obtain ⟨y, hy, hcy⟩ := mem_methods_of_pushes hfs (List.mem_of_find?_eq_some hcase)
      rw [conf_inj h hdistinct hlower hx hy hcx hcy heq]
  simp only [httpHandler, if_true, find_eq hN hconf, hfind]

/-- A request whose URI is a registered route of a method is taken with an element whose handler, in
the source file, calls this method, with messages of its types, on an object of the class of its
service; in the header, the class declares the method. This is so whichever directives stand in the
configuration, in whatever order. -/
theorem route_calls (hname : IsIdentifier (stripProto file.name)) (h : file.Accepted)
    (hdistinct : (file.names h).NamesDistinct)
    (hlower : ∀ x ∈ file.methods, (file.protoMethod x.1 x.2).LowerCase) :
    ∃ source header, getNgxModuleHeader file = some source ∧
      getServerImplHeader file = some header ∧
        ∀ fs ⊆ program source, ∀ N : NgxHash (MethodConf (List UInt8) Field), N.Lawful →
          ∀ pushed table, postconfiguration N pushed (fs.flatMap Meaning.pushes) = some table →
            ∀ x ∈ file.methods, ∀ c ∈ (file.protoMethod x.1 x.2).confs,
              c ∈ fs.flatMap Meaning.pushes →
                (∀ room, httpHandler N (some ⟨true, table⟩) room none c.name = .taken room c) ∧
                  callOf source c.handler = some (x.1.call x.2) ∧
                    classOf source c.impl = some x.1.className ∧
                      x.1.call x.2 ∈ declared header := by
  obtain ⟨source, hsource, hfound⟩ := found_module hname
  obtain ⟨header, hheader, hdeclared⟩ := declared_header hname
  have hprogram := program_eq_meaning hfound
  refine ⟨source, header, hsource, hheader, fun fs hfs N hN pushed table hconf x hx c hcx hc => ?_⟩
  obtain ⟨sep, -, rfl⟩ := ProtoMethod.mem_confs_iff.mp hcx
  rw [hprogram] at hfs
  refine ⟨httpHandler_pushes h hdistinct hlower hfs hN hconf hx hcx hc,
    callOf_handlerName h hdistinct hprogram hx,
    classOf_implField h hdistinct hprogram (FileDescriptor.mem_methods.mp hx).1, ?_⟩
  rw [hdeclared]
  exact List.mem_map_of_mem (f := fun x => x.1.call x.2) hx

end Names

/-! ## A file in lower case -/

/-- A package with one service, which has two methods. -/
def shopFile : FileDescriptor where
  name := lit "shop.proto" rfl
  package := [⟨lit "shop" rfl, by decide +kernel⟩]
  services := [⟨⟨lit "cart" rfl, by decide +kernel⟩, [
    ⟨⟨lit "add" rfl, by decide +kernel⟩, ⟨lit "Item" rfl, by decide +kernel⟩,
      ⟨lit "Cart" rfl, by decide +kernel⟩⟩,
    ⟨⟨lit "find" rfl, by decide +kernel⟩, ⟨lit "Query" rfl, by decide +kernel⟩,
      ⟨lit "Cart" rfl, by decide +kernel⟩⟩]⟩]

theorem accepted_shop : shopFile.Accepted := ⟨by decide +kernel, by decide +kernel⟩

theorem namesDistinct_shop : (shopFile.names accepted_shop).NamesDistinct := by
  have hfunctions : ((shopFile.names accepted_shop).methods.map
      (shopFile.names accepted_shop).handler ++
        (shopFile.names accepted_shop).services.map
          (shopFile.names accepted_shop).setHandler).Nodup := by
    decide +kernel
  refine ⟨hfunctions, by decide +kernel, fun m hm m' hm' heq => ?_⟩
  exact List.inj_on_of_nodup_map (List.nodup_append.mp hfunctions).1 hm hm' heq

theorem route_calls_shop :
    ∃ source header, getNgxModuleHeader shopFile = some source ∧
      getServerImplHeader shopFile = some header ∧
        ∃ table, postconfiguration (ngxHash _) true
            ((program source).flatMap Meaning.pushes) = some table ∧
          ∀ x ∈ shopFile.methods, ∀ c ∈ (shopFile.protoMethod x.1 x.2).confs,
            (∀ room, httpHandler (ngxHash _) (some ⟨true, table⟩) room none c.name =
                .taken room c) ∧
              callOf source c.handler = some (x.1.call x.2) ∧
                classOf source c.impl = some x.1.className ∧ x.1.call x.2 ∈ declared header := by
  have hlower : ∀ x ∈ shopFile.methods, (shopFile.protoMethod x.1 x.2).LowerCase := by
    have hnames : ∀ x ∈ shopFile.methods, ∀ c ∈ dotted shopFile.package ++ x.1.name.bytes ++
        x.2.name.bytes, ¬IsUpper c := by
      decide +kernel
    exact hnames
  obtain ⟨source, header, hsource, hheader, hcalls⟩ :=
    @route_calls shopFile (by decide +kernel) accepted_shop namesDistinct_shop hlower
  obtain ⟨source', hsource', hfound⟩ := @found_module shopFile (by decide +kernel)
  obtain rfl := Option.some.inj (hsource.symm.trans hsource')
  refine ⟨source, header, hsource, hheader, _, rfl, fun x hx c hc => ?_⟩
  refine hcalls _ (List.Subset.refl _) _ (ngxHash_lawful _) true _ rfl x hx c hc ?_
  rw [program_eq_meaning hfound]
  exact mem_pushes_of_methods hx hc

end NgxRpc.Generator
