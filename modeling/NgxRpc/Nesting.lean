import NgxRpc.Generator

/-!
# The nesting of the generated files

Each template of the generator opens and closes braces of its own, and what is printed for a
service or a method keeps the depth. The namespaces of the header come from the package: its
dots are replaced by what ends one line and begins the next.

## Main definitions

- `Scope`, `scopes` — the namespaces, classes and blocks of a text, entered and left

## Main results

- `generated_wellNested` — the braces of both files are balanced, and the scopes of the header
-/

namespace NgxRpc.Generator
open SourceText Template DyckStep

/-! ## Values of variables -/

theorem plain_of_isWord {c : UInt8} (h : IsWord c) : Plain c := by
  have hspecial : ∀ b ∈ [newline, quote, apostrophe, star, slash, backslash, openBrace, closeBrace],
      ¬ IsWord b := by
    decide +kernel
  exact fun hc => hspecial c hc h

theorem isWord_eq_true {c : UInt8} (h : IsWord c) : isWord c = true := by
  simp only [isWord, Bool.or_eq_true, Bool.and_eq_true, decide_eq_true_eq, beq_iff_eq, or_assoc]
  exact h

/-- A byte whose case changes becomes a letter. -/
theorem asciiCase_cases (c : UInt8) :
    (asciiLower c = c ∨ IsWord (asciiLower c)) ∧ (asciiUpper c = c ∨ IsWord (asciiUpper c)) := by
  have hall : ∀ i : Fin 256, (asciiLower (.ofFin i) = .ofFin i ∨ IsWord (asciiLower (.ofFin i))) ∧
      (asciiUpper (.ofFin i) = .ofFin i ∨ IsWord (asciiUpper (.ofFin i))) := by
    decide +kernel
  exact hall c.toFin

theorem plain_asciiLower {c : UInt8} (h : Plain c) : Plain (asciiLower c) := by
  obtain hself | hword := (asciiCase_cases c).1
  · rwa [hself]
  · exact plain_of_isWord hword

theorem plain_asciiUpper {c : UInt8} (h : Plain c) : Plain (asciiUpper c) := by
  obtain hself | hword := (asciiCase_cases c).2
  · rwa [hself]
  · exact plain_of_isWord hword

theorem plain_lower {s : List UInt8} (h : ∀ c ∈ s, Plain c) : ∀ c ∈ lower s, Plain c :=
  List.forall_mem_map.mpr fun c hc => plain_asciiLower (h c hc)

theorem plain_upper {s : List UInt8} (h : ∀ c ∈ s, Plain c) : ∀ c ∈ upper s, Plain c :=
  List.forall_mem_map.mpr fun c hc => plain_asciiUpper (h c hc)

theorem plain_identifier (id : Identifier) : ∀ c ∈ id.bytes, Plain c :=
  fun c hc => plain_of_isWord (id.ok.2.1 c hc)

theorem isWord_identifier (id : Identifier) : ∀ c ∈ id.bytes, isWord c = true :=
  fun c hc => isWord_eq_true (id.ok.2.1 c hc)

theorem forall_mem_intercalate {P : UInt8 → Prop} {rep : List UInt8} (hrep : ∀ c ∈ rep, P c)
    {xs : List (List UInt8)} (hxs : ∀ x ∈ xs, ∀ c ∈ x, P c) : ∀ c ∈ rep.intercalate xs, P c := by
  induction xs with
  | nil => simp
  | cons x xs ih =>
    have hx := hxs x List.mem_cons_self
    have htail := ih fun y hy => hxs y (List.mem_cons_of_mem x hy)
    cases xs with
    | nil => rwa [List.intercalate_singleton]
    | cons y ys =>
      intro c hc
      rw [List.intercalate_cons_cons, List.mem_append, List.mem_append] at hc
      obtain (hc | hc) | hc := hc
      · exact hx c hc
      · exact hrep c hc
      · exact htail c hc

/-- A separator without special bytes keeps the package plain. -/
theorem plain_intercalate {rep : List UInt8} (hrep : ∀ c ∈ rep, Plain c)
    (package : List Identifier) :
    ∀ c ∈ rep.intercalate (package.map Identifier.bytes), Plain c := by
  apply forall_mem_intercalate hrep
  exact List.forall_mem_map.mpr fun id _ => plain_identifier id

/-! ## Variables -/

/-- The variables `vs` have plain values, and the path has none that ends a literal. -/
structure Values (vars : Vars) (vs : List Var) : Prop where
  plain : ∀ v ∈ vs, ∃ s, vars v = some s ∧ ∀ c ∈ s, Plain c
  path : ∃ s, vars .protoNamepath = some s ∧ ∀ c ∈ s, c ≠ quote ∧ c ≠ backslash

/-- The variables `vs` may stand in code, comments and literals, the path only in a literal. -/
def safeIn (vs : List Var) (m : SourceText.Mode) (v : Var) : Bool :=
  (m.steady && decide (v ∈ vs)) || (m = .str && v = .protoNamepath)

section Vars

variable {vars : Vars} {vs : List Var}

@[simp] theorem set_self (vars : Vars) (key : Var) (value : List UInt8) :
    vars.set key value key = some value :=
  if_pos rfl

theorem set_of_ne {key v : Var} (h : v ≠ key) (value : List UInt8) :
    vars.set key value v = vars v :=
  if_neg h

theorem Values.set (h : Values vars vs) {key : Var} (hkey : Var.protoNamepath ≠ key)
    {value : List UInt8} (hvalue : ∀ c ∈ value, Plain c) :
    Values (vars.set key value) (key :: vs) := by
  constructor
  · intro v hv
    by_cases hvk : v = key
    · rw [hvk]
      exact ⟨value, set_self vars key value, hvalue⟩
    · obtain ⟨s, hs, hplain⟩ := h.plain v ((List.mem_cons.mp hv).resolve_left hvk)
      exact ⟨s, (set_of_ne hvk value).trans hs, hplain⟩
  · obtain ⟨s, hs, hstr⟩ := h.path
    exact ⟨s, (set_of_ne hkey value).trans hs, hstr⟩

/-- Any value may be given to another variable. -/
theorem Values.keep (h : Values vars vs) {key : Var} (hkey : key ∉ Var.protoNamepath :: vs)
    (value : List UInt8) : Values (vars.set key value) vs := by
  have hne : ∀ v ∈ Var.protoNamepath :: vs, vars.set key value v = vars v := by
    rintro v hv
    apply set_of_ne
    rintro rfl
    exact hkey hv
  constructor
  · intro v hv
    rw [hne v (List.mem_cons_of_mem _ hv)]
    exact h.plain v hv
  · rw [hne _ List.mem_cons_self]
    exact h.path

theorem Values.service (h : Values vars vs) (s : ServiceDescriptor) :
    Values (serviceVars vars s) ([.protoServerNameLower, .protoServerName] ++ vs) :=
  (h.set (by decide) (plain_identifier s.name)).set (by decide)
    (plain_lower (plain_identifier s.name))

theorem Values.method (h : Values vars vs) (m : MethodDescriptor) :
    Values (methodVars vars m) ([.protoServerMethodResponseName, .protoServerMethodRequestName,
      .protoServerMethodName] ++ vs) :=
  ((h.set (by decide) (plain_identifier m.name)).set (by decide)
    (plain_identifier m.inputType)).set (by decide) (plain_identifier m.outputType)

/-- The variables of a file, except that of the namespace. -/
theorem values_file (file : PlainFile) (ns : List UInt8) :
    Values (fileVars file ns ((lit "/" rfl).intercalate (file.package.map Identifier.bytes)))
      [.protoNameUpper, .protoName] := by
  have hname := plain_lower file.plain
  constructor
  · intro v hv
    obtain rfl | rfl := List.mem_pair.mp hv
    · exact ⟨_, rfl, plain_upper hname⟩
    · exact ⟨_, rfl, hname⟩
  · refine ⟨_, rfl, ?_⟩
    apply forall_mem_intercalate
    · decide +kernel
    · intro x hx c hc
      obtain ⟨id, -, rfl⟩ := List.mem_map.mp hx
      have hplain := plain_identifier id c hc
      constructor
      · rintro rfl
        revert hplain
        decide
      · rintro rfl
        revert hplain
        decide

theorem Values.safe (h : Values vars vs) : Safe vars (safeIn vs) := by
  have hcases : ∀ m v, safeIn vs m v = true →
      m.steady = true ∧ v ∈ vs ∨ m = .str ∧ v = .protoNamepath := by
    simp [safeIn]
  constructor
  · intro m v hv
    obtain ⟨hm, hmem⟩ | ⟨rfl, rfl⟩ := hcases m v hv
    · obtain ⟨s, hs, hplain⟩ := h.plain v hmem
      exact ⟨s, hs, scan_plain hm hplain⟩
    · obtain ⟨s, hs, hstr⟩ := h.path
      exact ⟨s, hs, scan_str hstr⟩
  · intro v s hv hs
    obtain ⟨-, hmem⟩ | ⟨hm, -⟩ := hcases _ v hv
    · obtain ⟨s', hs', hplain⟩ := h.plain v hmem
      rw [hs] at hs'
      cases hs'
      exact braces_plain hplain
    · cases hm

/-- The template of a part, with the variables `vs` in it, takes the depth from `n` to `m`. -/
def formatMoves (vs : List Var) (n m : ℕ) (start : List (List UInt8)) (lt : ℕ) : Bool :=
  (symbols start lt).any (moves (safeIn vs) n m)

theorem Values.movesTo (h : Values vars vs) {n m : ℕ} {start : List (List UInt8)} {lt : ℕ}
    (hmoves : formatMoves vs n m start lt = true) : MovesTo n m (format vars start lt) := by
  obtain ⟨l, hl, hm⟩ := (Option.any_eq_true _ _).mp hmoves
  rw [MovesTo, format_eq_render hl]
  exact moves_render h.safe hm

end Vars

/-! ## The module -/

/-- The variables of the module's file. -/
theorem values_module (file : PlainFile) :
    Values (fileVars file ((lit "::" rfl).intercalate (file.package.map Identifier.bytes))
      ((lit "/" rfl).intercalate (file.package.map Identifier.bytes)))
      [.protoNamespace, .protoNameUpper, .protoName] := by
  have hfile := values_file file ((lit "::" rfl).intercalate (file.package.map Identifier.bytes))
  refine ⟨fun v hv => ?_, hfile.path⟩
  obtain rfl | hv := List.mem_cons.mp hv
  · exact ⟨_, rfl, plain_intercalate (by decide +kernel) file.package⟩
  · exact hfile.plain v hv

/-- Every part of the module keeps the depth, or opens what a later part closes. -/
theorem movesTo_moduleParts (file : PlainFile) :
    MovesTo 0 0 (moduleParts format file
      ((lit "::" rfl).intercalate (file.package.map Identifier.bytes))
      ((lit "/" rfl).intercalate (file.package.map Identifier.bytes))) := by
  have hvars := values_module file
  rw [moduleParts]
  -- the includes and the configuration
  refine .cons (m := 0) (hvars.movesTo (by decide +kernel)) ?_
  refine .cons (m := 1) (hvars.movesTo (by decide +kernel)) ?_
  refine .cons (m := 1) (.each fun s _ => (hvars.service s).movesTo (by decide +kernel)) ?_
  refine .cons (m := 0) (hvars.movesTo (by decide +kernel)) ?_
  -- the commands
  refine .cons (m := 0) (.each fun s _ => (hvars.service s).movesTo (by decide +kernel)) ?_
  refine .cons (m := 1) (hvars.movesTo (by decide +kernel)) ?_
  refine .cons (m := 1) (.each fun s _ => (hvars.service s).movesTo (by decide +kernel)) ?_
  refine .cons (m := 0) (hvars.movesTo (by decide +kernel)) ?_
  -- the declarations of the module
  refine .cons (m := 0) (hvars.movesTo (by decide +kernel)) ?_
  refine .cons (m := 0) (hvars.movesTo (by decide +kernel)) ?_
  refine .cons (m := 0) (hvars.movesTo (by decide +kernel)) ?_
  refine .cons (m := 0) (hvars.movesTo (by decide +kernel)) ?_
  -- the function that creates the configuration
  refine .cons (m := 1) (hvars.movesTo (by decide +kernel)) ?_
  refine .cons (m := 1) (.each fun s _ => (hvars.service s).movesTo (by decide +kernel)) ?_
  refine .cons (m := 0) (hvars.movesTo (by decide +kernel)) ?_
  -- the handlers
  refine .cons (m := 0) (.each fun s _ => .each fun m _ =>
    ((hvars.service s).method m).movesTo (by decide +kernel)) ?_
  refine .cons (m := 0) (.each fun s _ => ?_) ?_
  · refine .cons (m := 1) ((hvars.service s).movesTo (by decide +kernel)) ?_
    refine .cons (m := 1) (.each fun m _ =>
      ((hvars.service s).method m).movesTo (by decide +kernel)) ?_
    exact .cons (m := 0) ((hvars.service s).movesTo (by decide +kernel)) (.nil 0)
  -- the function that ends the process
  refine .cons (m := 1) (hvars.movesTo (by decide +kernel)) ?_
  refine .cons (m := 1) (.each fun s _ => (hvars.service s).movesTo (by decide +kernel)) ?_
  exact .cons (m := 0) (hvars.movesTo (by decide +kernel)) (.nil 0)

/-! ## The header -/

/-- Whether the template of a part has no brace in code. -/
def formatQuiet (vs : List Var) (start : List (List UInt8)) (lt : ℕ) : Bool :=
  (symbols start lt).any (quiet (safeIn vs))

/-- The outline of the template of a part. -/
def formatOutline (vs : List Var) (start : List (List UInt8)) (lt : ℕ) :
    Option (List (Brace (List (Sym Var)))) :=
  (symbols start lt).bind (symOutline (safeIn vs))

section Header

variable {vars : Vars} {vs : List Var} {start : List (List UInt8)} {lt : ℕ}

theorem Values.quiet (h : Values vars vs) (hquiet : formatQuiet vs start lt = true) :
    Outlined (format vars start lt) [] := by
  obtain ⟨l, hl, hq⟩ := (Option.any_eq_true _ _).mp hquiet
  rw [Outlined, format_eq_render hl]
  exact quiet_render h.safe hq

theorem words_safeIn (h : ∀ v ∈ vs, ∃ id : Identifier, vars v = some id.bytes) :
    Words vars (safeIn vs) := by
  intro v hv
  have hmem : v ∈ vs := by
    simp only [safeIn] at hv
    simpa [SourceText.Mode.steady] using hv
  obtain ⟨id, hid⟩ := h v hmem
  exact ⟨id.bytes, hid, id.ok.1, isWord_identifier id⟩

theorem Values.outlined (h : Values vars vs)
    (hids : ∀ v ∈ vs, ∃ id : Identifier, vars v = some id.bytes)
    {bs : List (Brace (List (Sym Var)))} (hbs : formatOutline vs start lt = some bs) :
    Outlined (format vars start lt) (bs.map (Brace.map (List.flatMap (Sym.value vars)))) := by
  obtain ⟨l, hl, hb⟩ := Option.bind_eq_some_iff.mp hbs
  rw [Outlined, format_eq_render hl]
  exact outlines_render h.safe (words_safeIn hids) hb

theorem Values.mono {ws : List Var} (h : Values vars vs) (hsub : ws ⊆ vs) : Values vars ws :=
  ⟨fun v hv => h.plain v (hsub hv), h.path⟩

/-- The words of a template. -/
def word (w : List UInt8) : List (Sym Var) := w.map .byte

theorem outline_classStart : formatOutline [.protoServerName] ngxRpcServerClassStart pMargin =
    some [.opens [.var .protoServerName :: word (lit "_server" rfl), word (lit "class" rfl)],
      .opens [word (lit ")" rfl), word (lit "conf_file" rfl)], .closes] := by
  decide

theorem outline_classEnd : formatOutline [.protoServerName] ngxRpcServerClassEnd pMargin =
    some [.closes] := by
  decide

theorem outline_method : formatOutline [.protoServerMethodResponseName,
      .protoServerMethodRequestName, .protoServerMethodName] ngxRpcServerMethod pMargin =
    some [.opens [word (lit ")" rfl), word (lit "done" rfl)], .closes] := by
  decide +kernel

/-! ### Namespaces -/

def namespaceWord : List UInt8 := lit "namespace" rfl

theorem format_namespaceStart {ns : List UInt8} (hns : vars .protoNamespace = some ns) :
    format vars ngxRpcServerNamespaceStart pMargin =
      some (lit "namespace " rfl ++ (ns ++ lit " \x7b\n\n\n\n" rfl)) ∧
    format vars ngxRpcServerNamespaceStart 0 =
      some (lit "namespace " rfl ++ (ns ++ lit " \x7b\n" rfl)) := by
  have hmargin : symbols ngxRpcServerNamespaceStart pMargin = some (word (lit "namespace " rfl) ++
      .var .protoNamespace :: word (lit " \x7b\n\n\n\n" rfl)) := by
    decide
  have hzero : symbols ngxRpcServerNamespaceStart 0 = some (word (lit "namespace " rfl) ++
      .var .protoNamespace :: word (lit " \x7b\n" rfl)) := by
    decide
  rw [format_eq_render hmargin, format_eq_render hzero]
  simp only [word, render_append, render_bytes, render, hns, Option.bind_some, Option.map_some,
    and_self]

theorem outline_namespaceStart :
    formatOutline [.protoNamespace] ngxRpcServerNamespaceStart pMargin =
      some [.opens [[.var .protoNamespace], word namespaceWord]] ∧
    formatOutline [.protoNamespace] ngxRpcServerNamespaceStart 0 =
      some [.opens [[.var .protoNamespace], word namespaceWord]] := by
  decide

/-- The line for a component. -/
theorem Values.outlined_namespaceStart {ws : List Var} (h : Values vars ws) {id : Identifier}
    (hns : vars .protoNamespace = some id.bytes) (hlt : lt = pMargin ∨ lt = 0) :
    Outlined (format vars ngxRpcServerNamespaceStart lt) [.opens [id.bytes, namespaceWord]] := by
  have hvalues : Values vars [.protoNamespace] := by
    refine ⟨fun v hv => ?_, h.path⟩
    rw [List.mem_singleton.mp hv]
    exact ⟨_, hns, plain_identifier id⟩
  have hids : ∀ v ∈ [Var.protoNamespace], ∃ id : Identifier, vars v = some id.bytes := by
    intro v hv
    rw [List.mem_singleton.mp hv]
    exact ⟨id, hns⟩
  have hvalue : (Sym.var Var.protoNamespace).value vars = id.bytes := by simp [Sym.value, hns]
  have hbs : formatOutline [.protoNamespace] ngxRpcServerNamespaceStart lt =
      some [.opens [[.var .protoNamespace], word namespaceWord]] := by
    obtain rfl | rfl := hlt
    · exact outline_namespaceStart.1
    · exact outline_namespaceStart.2
  simpa [Brace.map, word, hvalue] using hvalues.outlined hids hbs

/-- The namespaces of the components: the dots of the package end one line and begin the next. -/
theorem Values.outlined_namespaces {ws : List Var} (h : Values vars ws) (id : Identifier)
    (ids : List Identifier) (hns : vars .protoNamespace =
      some ((lit " \x7b\nnamespace " rfl).intercalate ((id :: ids).map Identifier.bytes))) :
    Outlined (format vars ngxRpcServerNamespaceStart pMargin)
      ((id :: ids).map fun id => .opens [id.bytes, namespaceWord]) := by
  induction ids generalizing vars ws id with
  | nil =>
    rw [List.map_singleton, List.intercalate_singleton] at hns
    exact h.outlined_namespaceStart hns (Or.inl rfl)
  | cons id' ids ih =>
    have hpath := (h.mono (List.nil_subset ws)).keep (show Var.protoNamespace ∉ _ by decide)
    have hfirst := (hpath id.bytes).outlined_namespaceStart (set_self vars _ _) (Or.inr rfl)
    have hrest := ih (hpath _) id' (set_self vars _ _)
    -- the line of the first component, and those of the others
    have htext : format vars ngxRpcServerNamespaceStart pMargin = concat
        [format (vars.set .protoNamespace id.bytes) ngxRpcServerNamespaceStart 0,
          format (vars.set .protoNamespace ((lit " \x7b\nnamespace " rfl).intercalate
            ((id' :: ids).map Identifier.bytes))) ngxRpcServerNamespaceStart pMargin] := by
      rw [(format_namespaceStart hns).1, (format_namespaceStart (set_self vars _ _)).2,
        (format_namespaceStart (set_self vars _ _)).1]
      have hsep : lit " \x7b\nnamespace " rfl = lit " \x7b\n" rfl ++ lit "namespace " rfl := by
        decide
      simp only [concat, Option.bind_some, Option.map_some, List.map_cons,
        List.intercalate_cons_cons, hsep, List.append_assoc, List.append_nil]
    rw [htext]
    exact .cons hfirst (by simpa using hrest.cons .nil)

/-- The outline of the namespaces that are opened. Without a package the name is missing, and
what stands before the word is the end of the last include. -/
def opened (package : List Identifier) : List (Brace (List UInt8)) :=
  if package = [] then [.opens [namespaceWord, [quote]]]
  else package.map fun id => .opens [id.bytes, namespaceWord]

/-- The tokens of the includes. -/
theorem tokens_include : (symbols ngxRpcServerInclude pMargin).bind
      (symTokens fun m v => m = .str && v = Var.protoName) =
    some [word (lit "#" rfl), word (lit "include" rfl), word [quote], word (lit "#" rfl),
      word (lit "include" rfl), word [quote]] := by
  decide

/-- The line for a package without components. -/
theorem yields_noName :
    Yields (lit "namespace  \x7b\n\n\n\n" rfl) [namespaceWord, [openBrace]] := by
  have hscan : scan .code (lit "namespace  \x7b\n\n\n\n" rfl) =
      (.code, lit "namespace  \x7b\n\n\n" rfl ++ [newline]) := by
    decide
  have htok : tokens (lit "namespace  \x7b\n\n\n" rfl ++ [newline]) =
      [namespaceWord, [openBrace]] := by
    decide
  rw [← htok]
  exact yields_of_scan hscan (by decide)

/-- Without a package the brace stands behind the last include and the word. -/
theorem Values.outlined_noName (h : Values vars [.protoNameUpper, .protoName])
    (hns : vars .protoNamespace = some []) :
    Outlined (concat [format vars ngxRpcServerInclude pMargin,
      format vars ngxRpcServerNamespaceStart pMargin]) [.opens [namespaceWord, [quote]]] := by
  obtain ⟨l, hl, htokens⟩ := Option.bind_eq_some_iff.mp tokens_include
  have hsafe : Safe vars fun m v => m = .str && v = Var.protoName := by
    apply h.safe.mono
    intro m v hv
    obtain ⟨hm, hv⟩ := Bool.and_eq_true_iff.mp hv
    rw [of_decide_eq_true hm, of_decide_eq_true hv]
    decide
  have hwords : Words vars fun m v => m = .str && v = Var.protoName := by
    intro v hv
    cases hv
  obtain ⟨text, hrender, hyields⟩ := yields_render hsafe hwords htokens
  have hlit : lit "namespace " rfl ++ ([] ++ lit " \x7b\n\n\n\n" rfl) =
      lit "namespace  \x7b\n\n\n\n" rfl := by
    decide
  refine ⟨text ++ lit "namespace  \x7b\n\n\n\n" rfl, _, ?_, hyields.append yields_noName, ?_⟩
  · rw [format_eq_render hl, hrender, (format_namespaceStart hns).1, hlit]
    simp only [concat, Option.bind_some, Option.map_some, List.append_nil]
  · intro prev
    simp only [List.map_cons, List.map_nil, word, flatMap_value_byte]
    rfl

/-- The includes, and the namespaces behind them. -/
theorem Values.outlined_opened (h : Values vars [.protoNameUpper, .protoName])
    {package : List Identifier} (hns : vars .protoNamespace =
      some ((lit " \x7b\nnamespace " rfl).intercalate (package.map Identifier.bytes))) :
    Outlined (concat [format vars ngxRpcServerInclude pMargin,
      format vars ngxRpcServerNamespaceStart pMargin]) (opened package) := by
  cases package with
  | nil =>
    rw [List.map_nil, List.intercalate_nil] at hns
    exact h.outlined_noName hns
  | cons id ids =>
    have hinclude : Outlined (format vars ngxRpcServerInclude pMargin) [] := h.quiet (by decide)
    have hopen := h.outlined_namespaces id ids hns
    rw [opened, if_neg (List.cons_ne_nil id ids)]
    exact .cons hinclude (by simpa using hopen.cons .nil)

theorem format_namespaceEnd {ns : List UInt8} (hns : vars .protoNamespace = some ns) :
    format vars ngxRpcServerNamespaceEnd pMargin =
      some (lit "\x7d // for " rfl ++ (ns ++ lit "\n\n\n\n" rfl)) := by
  have hsymbols : symbols ngxRpcServerNamespaceEnd pMargin = some (word (lit "\x7d // for " rfl) ++
      .var .protoNamespace :: word (lit "\n\n\n\n" rfl)) := by
    decide
  rw [format_eq_render hsymbols]
  simp only [word, render_append, render_bytes, render, hns, Option.bind_some, Option.map_some]

/-- A closing brace, and a comment to the end of the line. -/
theorem yields_close {front tail code : List UInt8}
    (hfront : scan .code front = (.line, [closeBrace, space])) {name : List UInt8}
    (hname : ∀ c ∈ name, Plain c) (htail : scan .line tail = (.code, code ++ [newline]))
    (htokens : tokens ([closeBrace, space] ++ code ++ [newline]) = [[closeBrace]]) :
    Yields (front ++ (name ++ tail)) [[closeBrace]] := by
  rw [← htokens]
  apply yields_of_scan
  · simp [scan_append, hfront, scan_plain (m := .line) rfl hname, htail]
  · decide

/-- The closing braces of the components: each dot of the package ends a comment and is followed
by a brace and another comment. -/
theorem yields_namespaceEnd {front : List UInt8}
    (hfront : scan .code front = (.line, [closeBrace, space])) (package : List Identifier) :
    Yields (front ++ ((lit " \n\x7d //for " rfl).intercalate (package.map Identifier.bytes) ++
      lit "\n\n\n\n" rfl)) (List.replicate (max 1 package.length) [closeBrace]) := by
  have hend : scan .line (lit "\n\n\n\n" rfl) = (.code, lit "\n\n\n" rfl ++ [newline]) := by
    decide
  have htokens : tokens ([closeBrace, space] ++ lit "\n\n\n" rfl ++ [newline]) =
      [[closeBrace]] := by
    decide
  induction package generalizing front with
  | nil => exact yields_close hfront (by simp) hend htokens
  | cons id ids ih =>
    cases ids with
    | nil =>
      rw [List.map_singleton, List.intercalate_singleton]
      exact yields_close hfront (plain_identifier id) hend htokens
    | cons id' ids =>
      have hline : scan .line (lit " \n" rfl) = (.code, [] ++ [newline]) := by
        decide
      have hfirst := yields_close hfront (plain_identifier id) hline (by decide)
      have hrest := @ih (lit "\x7d //for " rfl) (by decide)
      have hsep : lit " \n\x7d //for " rfl = lit " \n" rfl ++ lit "\x7d //for " rfl := by
        decide
      have hlen : max 1 (id :: id' :: ids).length = max 1 (id' :: ids).length + 1 := by
        simp only [List.length_cons]
        omega
      rw [hlen, List.replicate_succ]
      simpa only [hsep, List.map_cons, List.intercalate_cons_cons, List.append_assoc,
        List.singleton_append] using hfirst.append hrest

theorem outlines_closes (n : ℕ) :
    Outlines tokenBrace (List.replicate n [closeBrace]) (List.replicate n .closes) := by
  induction n with
  | zero => exact fun _ => rfl
  | succ n ih =>
    intro prev
    exact congrArg (Brace.closes :: ·) (ih _)

theorem outlined_namespaceEnd {package : List Identifier} (hns : vars .protoNamespace =
    some ((lit " \n\x7d //for " rfl).intercalate (package.map Identifier.bytes))) :
    Outlined (format vars ngxRpcServerNamespaceEnd pMargin)
      (List.replicate (max 1 package.length) .closes) :=
  ⟨_, _, format_namespaceEnd hns, yields_namespaceEnd (by decide) package,
    outlines_closes _⟩

/-! ### Services -/

/-- The outline of a class: its constructor and its methods. -/
def classOutline (s : ServiceDescriptor) : List (Brace (List UInt8)) :=
  [.opens [s.name.bytes ++ lit "_server" rfl, lit "class" rfl],
    .opens [lit ")" rfl, lit "conf_file" rfl], .closes] ++
  (s.methods.flatMap (fun _ => [.opens [lit ")" rfl, lit "done" rfl], .closes]) ++ [.closes])

theorem Values.outlined_method {ws : List Var} (h : Values vars ws) (m : MethodDescriptor) :
    Outlined (format (methodVars vars m) ngxRpcServerMethod pMargin)
      [.opens [lit ")" rfl, lit "done" rfl], .closes] := by
  have hvars := (h.method m).mono (List.subset_append_left _ _)
  have hids : ∀ v ∈ [Var.protoServerMethodResponseName, .protoServerMethodRequestName,
      .protoServerMethodName], ∃ id : Identifier, methodVars vars m v = some id.bytes := by
    simp only [List.mem_cons, List.not_mem_nil, or_false]
    rintro v (rfl | rfl | rfl)
    · exact ⟨m.outputType, rfl⟩
    · exact ⟨m.inputType, rfl⟩
    · exact ⟨m.name, rfl⟩
  simpa [Brace.map, word] using hvars.outlined hids outline_method

theorem Values.outlined_service {ws : List Var} (h : Values vars ws) (s : ServiceDescriptor) :
    Outlined (concat
      [format (serviceVars vars s) ngxRpcServerClassStart pMargin,
        concat (s.methods.map fun m =>
          format (methodVars (serviceVars vars s) m) ngxRpcServerMethod pMargin),
        format (serviceVars vars s) ngxRpcServerClassEnd pMargin]) (classOutline s) := by
  have hservice := h.service s
  have hvars : Values (serviceVars vars s) [.protoServerName] := hservice.mono (by simp)
  have hids : ∀ v ∈ [Var.protoServerName],
      ∃ id : Identifier, serviceVars vars s v = some id.bytes := by
    intro v hv
    rw [List.mem_singleton.mp hv]
    exact ⟨s.name, rfl⟩
  have hstart := hvars.outlined hids outline_classStart
  have hend := hvars.outlined hids outline_classEnd
  have hname : (Sym.var Var.protoServerName).value (serviceVars vars s) = s.name.bytes := rfl
  simp only [List.map_cons, List.map_nil, Brace.map, word, List.flatMap_cons, hname,
    flatMap_value_byte] at hstart hend
  exact hstart.cons ((Outlined.each fun m _ => hservice.outlined_method m).cons
    (by simpa using hend.cons .nil))

/-- The outline of the header. -/
def headerOutline (file : FileDescriptor) : List (Brace (List UInt8)) :=
  opened file.package ++ (file.services.flatMap classOutline ++
    List.replicate (max 1 file.package.length) .closes)

/-- The outline of the parts of the header. -/
theorem outlined_headerParts (file : PlainFile) {ns path nsEnd : List UInt8}
    (hns : ns = (lit " \x7b\nnamespace " rfl).intercalate (file.package.map Identifier.bytes))
    (hpath : path = (lit "/" rfl).intercalate (file.package.map Identifier.bytes))
    (hnsEnd : nsEnd =
      (lit " \n\x7d //for " rfl).intercalate (file.package.map Identifier.bytes)) :
    Outlined (headerParts format file ns path nsEnd) (headerOutline file) := by
  unfold headerParts
  extract_lets vars
  have h : Values vars [.protoNameUpper, .protoName] := by
    subst hpath
    exact values_file file ns
  have hvars := h.keep (show Var.protoNamespace ∉ _ by decide) nsEnd
  have hstart : Outlined (format vars ngxRpcServerHeaderStart pMargin) [] := h.quiet (by decide)
  have hopened := h.outlined_opened (congrArg some hns)
  have hservices := Outlined.each fun s (_ : s ∈ file.services) => h.outlined_service s
  have hclosed : Outlined (format (vars.set .protoNamespace nsEnd) ngxRpcServerNamespaceEnd pMargin)
      (List.replicate (max 1 file.package.length) .closes) := by
    apply outlined_namespaceEnd
    rw [set_self, hnsEnd]
  have hend : Outlined (format (vars.set .protoNamespace nsEnd) ngxRpcServerHeaderEnd pMargin) [] :=
    hvars.quiet (by decide)
  have hrest := hopened.cons (hservices.cons (hclosed.cons (hend.cons .nil)))
  rw [concat_pair] at hrest
  simpa only [headerOutline, List.nil_append, List.append_nil] using hstart.cons hrest

end Header

/-! ## Scopes -/

/-- What a pair of braces encloses. -/
inductive Scope where
  | inNamespace (name : Option (List UInt8))
  | inClass (name : List UInt8)
  | block
deriving DecidableEq

inductive ScopeEvent where
  | enter (s : Scope)
  | leave
deriving DecidableEq

/-- The scope of a brace behind the given two tokens, the nearest one first. -/
def scope (before : List (List UInt8)) : Scope :=
  if before[1]? = some namespaceWord then .inNamespace before[0]?
  else if before[1]? = some (lit "class" rfl) then .inClass (before.headD [])
  else if before[0]? = some namespaceWord then .inNamespace none
  else .block

def scopeEvent : Brace (List UInt8) → ScopeEvent
  | .opens before => .enter (scope before)
  | .closes => .leave

/-- The scopes of a text. -/
def scopes (text : List UInt8) : List ScopeEvent := (outline text).map scopeEvent

/-- The namespaces of a package: one for each component, or one without a name. -/
def namespaces (package : List Identifier) : List (Option (List UInt8)) :=
  if package = [] then [none] else package.map fun id => some id.bytes

theorem length_namespaces (package : List Identifier) :
    (namespaces package).length = max 1 package.length := by
  rw [namespaces]
  split
  · next hnil =>
    rw [hnil]
    rfl
  · next hne => rw [List.length_map, Nat.max_eq_right (List.length_pos_iff.mpr hne)]

/-- The scopes of the class for a service: its constructor and its methods. -/
def classScopes (s : ServiceDescriptor) : List ScopeEvent :=
  [.enter (.inClass (s.name.bytes ++ lit "_server" rfl)), .enter .block, .leave] ++
    (s.methods.flatMap (fun _ => [.enter .block, .leave]) ++ [.leave])

theorem map_scopeEvent_opened (package : List Identifier) :
    (opened package).map scopeEvent =
      (namespaces package).map fun name => .enter (.inNamespace name) := by
  rw [opened, namespaces]
  split
  · decide
  · simp [scopeEvent, scope, Function.comp_def]

theorem map_scopeEvent_classOutline (s : ServiceDescriptor) :
    (classOutline s).map scopeEvent = classScopes s := by
  have hclass : scopeEvent (.opens [s.name.bytes ++ lit "_server" rfl, lit "class" rfl]) =
      .enter (.inClass (s.name.bytes ++ lit "_server" rfl)) := by
    have hword : some (lit "class" rfl) ≠ some namespaceWord := by decide
    simp [scopeEvent, scope, hword]
  have hconstructor : scopeEvent (.opens [lit ")" rfl, lit "conf_file" rfl]) = .enter .block := by
    decide
  have hmethod : scopeEvent (.opens [lit ")" rfl, lit "done" rfl]) = .enter .block := by
    decide
  simp only [classOutline, classScopes, List.map_append, List.map_cons, List.map_nil,
    List.map_flatMap, hclass, hconstructor, hmethod]
  rfl

theorem depth_headerOutline (file : FileDescriptor) :
    depth 0 ((headerOutline file).map Brace.step) = some 0 := by
  have hopened : (opened file.package).map Brace.step =
      List.replicate (max 1 file.package.length) U := by
    rw [opened]
    split
    · next hnil =>
      rw [hnil]
      rfl
    · next hne =>
      have hpos := List.length_pos_iff.mpr hne
      rw [List.map_map, Nat.max_eq_right hpos]
      exact List.map_const'
  have hclasses : ∀ n, depth n ((file.services.flatMap classOutline).map Brace.step) = some n := by
    intro n
    rw [List.map_flatMap]
    apply depth_flatMap
    intro s _
    have hmethods : depth (n + 1) ((s.methods.flatMap fun _ => [.opens [lit ")" rfl,
        lit "done" rfl], .closes]).map Brace.step) = some (n + 1) := by
      rw [List.map_flatMap]
      apply depth_flatMap
      intro m _
      simp [Brace.step]
    rw [classOutline, List.map_append, List.map_append]
    simp only [List.map_cons, List.map_nil, Brace.step, List.cons_append, List.nil_append, depth_U,
      depth_succ_D]
    rw [depth_append_of hmethods, depth_succ_D, depth_nil]
  rw [headerOutline, List.map_append, List.map_append, hopened, List.map_replicate,
    depth_append_of (depth_replicate_U 0 _), depth_append_of (hclasses _)]
  exact depth_replicate_D 0 _

/-- The braces of both generated files are balanced. The header enters the namespaces of the
package in order, then has a class for each service, and leaves all namespaces at its end. -/
theorem generated_wellNested (file : PlainFile) :
    (∃ header, getServerImplHeader file = some header ∧ WellNested header ∧
      scopes header = (namespaces file.package).map (fun name => .enter (.inNamespace name)) ++
        (file.services.flatMap classScopes ++ (namespaces file.package).map fun _ => .leave)) ∧
    ∃ source, getNgxModuleHeader file = some source ∧ WellNested source := by
  constructor
  · obtain ⟨header, ts, hparts, hyields, houtlines⟩ := outlined_headerParts file rfl rfl rfl
    have hheader := printServerImplHeader_of_parts format_mono (replaceDot_dotted _ _)
      (replaceDot_dotted _ _) (replaceDot_dotted _ _) hparts
    have houtline : outline header = headerOutline file := by
      rw [hyields.outline]
      exact houtlines []
    refine ⟨header, hheader, ?_, ?_⟩
    · apply wellNested_of_outline hyields.1
      rw [houtline]
      exact depth_headerOutline file
    · rw [scopes, houtline, headerOutline, List.map_append, List.map_append,
        map_scopeEvent_opened, List.map_flatMap, List.map_const', length_namespaces,
        List.map_replicate]
      simp only [map_scopeEvent_classOutline, scopeEvent]
  · obtain ⟨source, hparts, hmoves⟩ := movesTo_moduleParts file
    have hsource := printNgxModuleHeader_of_parts format_mono (replaceDot_dotted _ _)
      (replaceDot_dotted _ _) hparts
    exact ⟨source, hsource, hmoves.wellNested⟩

/-- A file with a package of two components, and a service with one method. -/
def userFile : FileDescriptor where
  name := lit "api/User.proto" rfl
  package := [⟨lit "app" rfl, by decide +kernel⟩, ⟨lit "user" rfl, by decide +kernel⟩]
  services := [⟨⟨lit "User" rfl, by decide +kernel⟩, [⟨⟨lit "list" rfl, by decide +kernel⟩,
    ⟨lit "Request" rfl, by decide +kernel⟩, ⟨lit "Reply" rfl, by decide +kernel⟩⟩]⟩]

example : (getServerImplHeader userFile).map scopes = some
    [.enter (.inNamespace (some (lit "app" rfl))), .enter (.inNamespace (some (lit "user" rfl))),
      .enter (.inClass (lit "User_server" rfl)), .enter .block, .leave, .enter .block, .leave,
      .leave, .leave, .leave] := by
  decide +kernel

end NgxRpc.Generator
