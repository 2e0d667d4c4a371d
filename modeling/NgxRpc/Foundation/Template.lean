import NgxRpc.Foundation.SourceText

/-!
# Templates of source texts

A template is a text with the names of variables between delimiters. Scanning it with the
variables in place says what the scan of every text printed from it does, as long as the
values of the variables are harmless where they stand. So a fact about all texts that a
template can print is one about the template, and can be computed.

## Main definitions

- `parse`, `render` — the variables of a template, and their values put in
- `Safe` — the values that are harmless
- `moves`, `symTokens`, `symOutline` — the nesting, the tokens and the outline of a template,
  computed

## Main results

- `moves_render` — the nesting of a printed text is that of its template
- `yields_render`, `outlines_render` — the tokens and the outline of a printed text are those
  of its template, rendered
-/

namespace Template
open SourceText DyckStep

/-- A byte of a template, or a variable. -/
inductive Sym (V : Type) where
  | byte (c : UInt8)
  | var (v : V)
deriving DecidableEq

variable {V : Type}

/-! ## Printing -/

/-- The symbols of a template; with `some name` behind a delimiter and a part of a name. An
empty name stands for the delimiter itself. -/
def parseFrom (delimiter : UInt8) (ofName : List UInt8 → Option V) :
    Option (List UInt8) → List UInt8 → Option (List (Sym V))
  | none, [] => some []
  -- the second delimiter is missing
  | some _, [] => none
  | none, c :: text =>
    if c = delimiter then parseFrom delimiter ofName (some []) text
    else (parseFrom delimiter ofName none text).map (.byte c :: ·)
  | some name, c :: text =>
    if c ≠ delimiter then parseFrom delimiter ofName (some (name ++ [c])) text
    else if name = [] then (parseFrom delimiter ofName none text).map (.byte delimiter :: ·)
    else (ofName name).bind fun v => (parseFrom delimiter ofName none text).map (.var v :: ·)

def parse (delimiter : UInt8) (ofName : List UInt8 → Option V) (text : List UInt8) :
    Option (List (Sym V)) :=
  parseFrom delimiter ofName none text

/-- The text with the values of the variables; `none` when one has no value. -/
def render (vars : V → Option (List UInt8)) : List (Sym V) → Option (List UInt8)
  | [] => some []
  | .byte c :: l => (render vars l).map (c :: ·)
  | .var v :: l => (vars v).bind fun s => (render vars l).map (s ++ ·)

/-- What stands in a printed text for a symbol. -/
def Sym.value (vars : V → Option (List UInt8)) : Sym V → List UInt8
  | .byte c => [c]
  | .var v => (vars v).getD []

/-- What is printed one after the other, if all of it is. -/
def concat {α : Type} : List (Option (List α)) → Option (List α)
  | [] => some []
  | p :: ps => p.bind fun s => (concat ps).map (s ++ ·)

theorem concat_cons_eq_some {α : Type} {p : Option (List α)} {ps : List (Option (List α))}
    {text : List α} :
    concat (p :: ps) = some text ↔ ∃ a b, p = some a ∧ concat ps = some b ∧ a ++ b = text := by
  simp [concat, Option.bind_eq_some_iff]

/-- What is printed in pieces may be joined before or after. -/
theorem map_flatten_concat {α : Type} (ps : List (Option (List (List α)))) :
    (concat ps).map List.flatten = concat (ps.map (Option.map List.flatten)) := by
  induction ps with
  | nil => rfl
  | cons p ps ih =>
    rw [List.map_cons, concat, concat, ← ih]
    cases p with
    | none => rfl
    | some s => cases concat ps <;> simp

/-- Two parts may be taken together. -/
theorem concat_pair {α : Type} (p q : Option (List α)) (ps : List (Option (List α))) :
    concat (concat [p, q] :: ps) = concat (p :: q :: ps) := by
  cases p with
  | none => rfl
  | some a =>
    cases q with
    | none => rfl
    | some b =>
      cases h : concat ps with
      | none => simp [concat, h]
      | some c => simp [concat, h]

variable {vars : V → Option (List UInt8)}

theorem render_append (a b : List (Sym V)) :
    render vars (a ++ b) = (render vars a).bind fun s => (render vars b).map (s ++ ·) := by
  induction a with
  | nil => simp [render]
  | cons x a ih =>
    cases x with
    | byte c =>
      rw [List.cons_append, render, render, ih]
      cases render vars a with
      | none => rfl
      | some s => simp [Function.comp_def]
    | var v =>
      rw [List.cons_append, render, render, ih]
      cases vars v with
      | none => rfl
      | some t =>
        cases render vars a with
        | none => rfl
        | some s => simp [Function.comp_def]

@[simp] theorem render_bytes (l : List UInt8) : render vars (l.map .byte) = some l := by
  induction l with
  | nil => rfl
  | cons c l ih => rw [List.map_cons, render, ih, Option.map_some]

/-- A printed text has each symbol's value. -/
theorem eq_flatMap_of_render {l : List (Sym V)} {text : List UInt8}
    (hl : render vars l = some text) : text = l.flatMap (Sym.value vars) := by
  induction l generalizing text with
  | nil =>
    cases hl
    rfl
  | cons a l ih =>
    cases a with
    | byte c =>
      obtain ⟨rest, hrest, rfl⟩ := Option.map_eq_some_iff.mp hl
      rw [List.flatMap_cons, ← ih hrest]
      rfl
    | var v =>
      obtain ⟨s, hs, hl⟩ := Option.bind_eq_some_iff.mp hl
      obtain ⟨rest, hrest, rfl⟩ := Option.map_eq_some_iff.mp hl
      rw [List.flatMap_cons, ← ih hrest, Sym.value, hs]
      rfl

/-- The variables of `vars` have the same values in `vars'`. -/
def Extends (vars vars' : V → Option (List UInt8)) : Prop :=
  ∀ v s, vars v = some s → vars' v = some s

theorem Extends.refl (vars : V → Option (List UInt8)) : Extends vars vars := fun _ _ h => h

theorem Extends.trans {vars vars' vars'' : V → Option (List UInt8)} (h : Extends vars vars')
    (h' : Extends vars' vars'') : Extends vars vars'' :=
  fun v s hv => h' v s (h v s hv)

/-- More variables change nothing where fewer are enough. -/
theorem render_mono {vars' : V → Option (List UInt8)} (h : Extends vars vars')
    {l : List (Sym V)} {text : List UInt8} (hl : render vars l = some text) :
    render vars' l = some text := by
  induction l generalizing text with
  | nil => exact hl
  | cons a l ih =>
    cases a with
    | byte c =>
      obtain ⟨rest, hrest, rfl⟩ := Option.map_eq_some_iff.mp hl
      rw [render, ih hrest, Option.map_some]
    | var v =>
      obtain ⟨s, hs, hl⟩ := Option.bind_eq_some_iff.mp hl
      obtain ⟨rest, hrest, rfl⟩ := Option.map_eq_some_iff.mp hl
      rw [render, h v s hs, Option.bind_some, ih hrest, Option.map_some]

theorem concat_mono {ι α : Type} {f g : ι → Option (List α)}
    (h : ∀ x text, f x = some text → g x = some text) {xs : List ι} {text : List α}
    (hxs : concat (xs.map f) = some text) : concat (xs.map g) = some text := by
  induction xs generalizing text with
  | nil => exact hxs
  | cons x xs ih =>
    obtain ⟨a, b, ha, hb, rfl⟩ := concat_cons_eq_some.mp hxs
    exact concat_cons_eq_some.mpr ⟨a, b, h x a ha, ih hb, rfl⟩

/-- Templates may be put together before they are printed. -/
theorem concat_render {ps : List (Option (List (Sym V)))} {l : List (Sym V)}
    (h : concat ps = some l) : concat (ps.map fun p => p.bind (render vars)) = render vars l := by
  induction ps generalizing l with
  | nil =>
    cases h
    rfl
  | cons p ps ih =>
    obtain ⟨a, b, rfl, hb, rfl⟩ := concat_cons_eq_some.mp h
    rw [List.map_cons, concat, ih hb, render_append]
    rfl

/-! ## Scanning -/

/-- In each mode the variables that may stand there have values that do not change it. -/
structure Safe (vars : V → Option (List UInt8)) (safe : Mode → V → Bool) : Prop where
  value : ∀ m v, safe m v = true →
    ∃ s, vars v = some s ∧ scan m s = (m, if m = .code then s else [])
  braces : ∀ v s, safe .code v = true → vars v = some s → SourceText.braces s = []

/-- Fewer variables are as harmless. -/
theorem Safe.mono {safe safe' : Mode → V → Bool} (h : Safe vars safe)
    (hle : ∀ m v, safe' m v = true → safe m v = true) : Safe vars safe' :=
  ⟨fun m v hv => h.value m v (hle m v hv), fun v s hv hs => h.braces v s (hle _ v hv) hs⟩

/-- The scan of a template, unless a variable stands where it may not. -/
def scanSyms (safe : Mode → V → Bool) : Mode → List (Sym V) → Option (Mode × List (Sym V))
  | m, [] => some (m, [])
  | m, .byte c :: l =>
    (scanSyms safe (step m c).1 l).map fun r => (r.1, (step m c).2.map .byte ++ r.2)
  | m, .var v :: l =>
    if safe m v then
      (scanSyms safe m l).map fun r => (r.1, if m = .code then .var v :: r.2 else r.2)
    else none

section Scan

variable {safe : Mode → V → Bool}

@[simp] theorem flatMap_value_byte (l : List UInt8) :
    (l.map (Sym.byte (V := V))).flatMap (Sym.value vars) = l := by
  induction l with
  | nil => rfl
  | cons c l ih =>
    rw [List.map_cons, List.flatMap_cons, ih]
    rfl

/-- The scan of a printed text is that of its template, rendered. -/
theorem scan_render (hsafe : Safe vars safe) {m m' : Mode} {l out : List (Sym V)}
    (h : scanSyms safe m l = some (m', out)) :
    render vars l = some (l.flatMap (Sym.value vars)) ∧
      scan m (l.flatMap (Sym.value vars)) = (m', out.flatMap (Sym.value vars)) ∧
        ∀ v, Sym.var v ∈ out → safe .code v = true := by
  induction l generalizing m out with
  | nil =>
    cases h
    exact ⟨rfl, rfl, by simp⟩
  | cons a l ih =>
    cases a with
    | byte c =>
      obtain ⟨⟨m₁, rest⟩, hrest, hr⟩ := Option.map_eq_some_iff.mp h
      obtain ⟨rfl, rfl⟩ := Prod.mk.inj hr
      obtain ⟨hrender, hscan, hvars⟩ := ih hrest
      refine ⟨?_, ?_, fun v hv => hvars v ?_⟩
      · rw [render, hrender]
        rfl
      · rw [List.flatMap_cons, Sym.value, List.singleton_append, scan, hscan, List.flatMap_append,
          flatMap_value_byte]
      · simpa using hv
    | var v =>
      rw [scanSyms] at h
      split at h
      · next hv =>
        obtain ⟨⟨m₁, rest⟩, hrest, hr⟩ := Option.map_eq_some_iff.mp h
        obtain ⟨rfl, rfl⟩ := Prod.mk.inj hr
        obtain ⟨hrender, hscan, hvars⟩ := ih hrest
        obtain ⟨s, hs, hstay⟩ := hsafe.value m v hv
        have hvalue : (Sym.var v).value vars = s := by simp [Sym.value, hs]
        refine ⟨?_, ?_, fun u hu => ?_⟩
        · rw [render, hs, hrender, List.flatMap_cons, hvalue]
          rfl
        · rw [List.flatMap_cons, hvalue, scan_append, hstay]
          simp only [hscan]
          split
          · rw [List.flatMap_cons, hvalue]
          · rfl
        · by_cases hm : m = .code
          · simp only [hm, if_true] at hu
            obtain hu | hu := List.mem_cons.mp hu
            · cases hu
              rwa [hm] at hv
            · exact hvars u hu
          · simp only [hm, if_false] at hu
            exact hvars u hu
      · cases h

/-! ## Nesting -/

def symBraces (l : List (Sym V)) : List DyckStep :=
  l.filterMap fun
    | .byte c => brace c
    | .var _ => none

theorem braces_flatMap {l : List (Sym V)}
    (h : ∀ v, Sym.var v ∈ l → braces ((Sym.var v).value vars) = []) :
    braces (l.flatMap (Sym.value vars)) = symBraces l := by
  induction l with
  | nil => rfl
  | cons a l ih =>
    have hl := ih fun v hv => h v (List.mem_cons_of_mem a hv)
    rw [List.flatMap_cons, braces_append, hl]
    cases a with
    | byte c =>
      simp only [symBraces, List.filterMap_cons, Sym.value, braces, List.filterMap_nil]
      cases brace c with
      | none => rfl
      | some s => rfl
    | var v =>
      rw [h v List.mem_cons_self]
      rfl

theorem Safe.braces_value (hsafe : Safe vars safe) {out : List (Sym V)}
    (hvars : ∀ v, Sym.var v ∈ out → safe .code v = true) :
    ∀ v, Sym.var v ∈ out → SourceText.braces ((Sym.var v).value vars) = [] := by
  intro v hv
  obtain ⟨s, hs, -⟩ := hsafe.value _ v (hvars v hv)
  rw [Sym.value, hs]
  exact hsafe.braces v s (hvars v hv) hs

/-- Whether every text printed from a template goes from depth `n` to `m`. -/
def moves (safe : Mode → V → Bool) (n m : ℕ) (l : List (Sym V)) : Bool :=
  match scanSyms safe .code l with
  | some (.code, out) => depth n (symBraces out) = some m
  | _ => false

/-- The nesting of a printed text is that of its template. -/
theorem moves_render (hsafe : Safe vars safe) {n m : ℕ} {l : List (Sym V)}
    (h : moves safe n m l = true) : ∃ text, render vars l = some text ∧ Moves n m text := by
  rw [moves] at h
  split at h
  · next out hout =>
    obtain ⟨hrender, hscan, hvars⟩ := scan_render hsafe hout
    refine ⟨_, hrender, ?_, ?_⟩
    · rw [hscan]
    · rw [hscan, braces_flatMap (hsafe.braces_value hvars)]
      exact of_decide_eq_true h
  · cases h

/-! ## Tokens -/

/-- The symbols of a template whose variables in code are parts of words. -/
def syms : Alphabet (Sym V) where
  word
    | .byte c => isWord c
    | .var _ => true
  space
    | .byte c => isSpace c
    | .var _ => false

/-- The values in code are parts of words. -/
def Words (vars : V → Option (List UInt8)) (safe : Mode → V → Bool) : Prop :=
  ∀ v, safe .code v = true → ∃ s, vars v = some s ∧ s ≠ [] ∧ ∀ c ∈ s, isWord c = true

/-- The last symbol is in no word. -/
def ended (l : List (Sym V)) : Bool :=
  match l.getLast? with
  | some (.byte c) => !isWord c
  | _ => false

/-- The tokens of a template that ends in code, and not within a word. -/
def symTokens (safe : Mode → V → Bool) (l : List (Sym V)) : Option (List (List (Sym V))) :=
  match scanSyms safe .code l with
  | some (.code, out) => if ended out then some (tokensFrom syms [] out) else none
  | _ => none

def symTokenBrace : List (Sym V) → Option DyckStep
  | [.byte c] => brace c
  | _ => none

theorem exists_of_ended {l : List (Sym V)} (h : ended l = true) :
    ∃ init c, l = init ++ [.byte c] ∧ isWord c = false := by
  rw [ended] at h
  split at h
  · next c hlast =>
    obtain ⟨init, rfl⟩ := List.getLast?_eq_some_iff.mp hlast
    exact ⟨init, c, rfl, by simpa using h⟩
  · cases h

theorem renders_value (hwords : Words vars safe) {a : Sym V}
    (ha : ∀ v, a = .var v → safe .code v = true) :
    Renders syms bytes (Sym.value vars) a := by
  rw [Renders]
  cases a with
  | byte c =>
    split
    · next hc => exact ⟨List.cons_ne_nil c [], fun b hb => List.mem_singleton.mp hb ▸ hc⟩
    · next hc => exact ⟨c, rfl, Bool.eq_false_iff.mpr hc, rfl⟩
  | var v =>
    obtain ⟨s, hs, hne, hword⟩ := hwords v (ha v rfl)
    have hvalue : (Sym.var v).value vars = s := by simp [Sym.value, hs]
    rw [if_pos (show syms.word (Sym.var v) = true from rfl), hvalue]
    exact ⟨hne, hword⟩

/-- A token is a brace when its rendering is one. -/
theorem tokenBrace_flatMap (hwords : Words vars safe) {out : List (Sym V)}
    (hout : ∀ v, Sym.var v ∈ out → safe .code v = true) :
    ∀ t ∈ tokensFrom syms [] out, tokenBrace (t.flatMap (Sym.value vars)) = symTokenBrace t := by
  intro t ht
  have hnil : ∀ a ∈ ([] : List (Sym V)), syms.word a = true := by simp
  obtain ⟨hmem, hword | ⟨a, rfl, ha⟩⟩ := mem_tokensFrom hnil ht
  · -- no part of a word is a brace
    have hbytes : ∀ c ∈ t.flatMap (Sym.value vars), isWord c = true := by
      intro c hc
      obtain ⟨a, hat, hca⟩ := List.mem_flatMap.mp hc
      have hrenders := renders_value hwords (a := a) fun v hv =>
        hout v (hv ▸ (hmem a hat).resolve_left List.not_mem_nil)
      rw [Renders, if_pos (hword a hat)] at hrenders
      exact hrenders.2 c hca
    rw [tokenBrace_word hbytes]
    unfold symTokenBrace
    split
    · next c =>
      have hc : isWord c = true := hword (.byte c) List.mem_cons_self
      exact (brace_word hc).symm
    · rfl
  · cases a with
    | byte c => rfl
    | var v => cases ha

/-- The tokens of a printed text are those of its template, rendered. -/
theorem yields_render (hsafe : Safe vars safe) (hwords : Words vars safe) {l : List (Sym V)}
    {ts : List (List (Sym V))} (h : symTokens safe l = some ts) :
    ∃ text, render vars l = some text ∧ Yields text (ts.map (List.flatMap (Sym.value vars))) := by
  rw [symTokens] at h
  split at h
  · next out hout =>
    split at h
    · next hlast =>
      cases h
      obtain ⟨hrender, hscan, hvars⟩ := scan_render hsafe hout
      refine ⟨_, hrender, ?_⟩
      have htokens : tokens (out.flatMap (Sym.value vars)) =
          (tokensFrom syms [] out).map (List.flatMap (Sym.value vars)) := by
        apply tokensFrom_flatMap (w := [])
        · simp
        · intro a ha
          exact renders_value hwords fun v hv => hvars v (hv ▸ ha)
      obtain ⟨init, c, rfl, hc⟩ := exists_of_ended hlast
      rw [← htokens]
      have hend : (init ++ [Sym.byte c]).flatMap (Sym.value vars) =
          init.flatMap (Sym.value vars) ++ [c] := by
        rw [List.flatMap_append]
        rfl
      rw [hend] at hscan ⊢
      exact yields_of_scan hscan hc
    · cases h
  · cases h

/-- The outline of a template that does not begin with an opening brace. -/
def symOutline (safe : Mode → V → Bool) (l : List (Sym V)) : Option (List (Brace (List (Sym V)))) :=
  (symTokens safe l).bind fun
    | t :: u :: ts =>
      if symTokenBrace t ≠ some U ∧ symTokenBrace u ≠ some U then
        some (outlineFrom symTokenBrace [] (t :: u :: ts))
      else none
    | _ => none

/-- The outline of a printed text is that of its template, rendered. -/
theorem outlines_render (hsafe : Safe vars safe) (hwords : Words vars safe) {l : List (Sym V)}
    {bs : List (Brace (List (Sym V)))} (h : symOutline safe l = some bs) :
    ∃ text ts, render vars l = some text ∧ Yields text ts ∧
      Outlines tokenBrace ts (bs.map (Brace.map (List.flatMap (Sym.value vars)))) := by
  obtain ⟨ts, hts, hbs⟩ := Option.bind_eq_some_iff.mp h
  obtain ⟨text, hrender, hyields⟩ := yields_render hsafe hwords hts
  refine ⟨text, _, hrender, hyields, ?_⟩
  have hkind : ∀ t ∈ ts, tokenBrace (t.flatMap (Sym.value vars)) = symTokenBrace t := by
    rw [symTokens] at hts
    split at hts
    · next out hout =>
      split at hts
      · cases hts
        exact tokenBrace_flatMap hwords (scan_render hsafe hout).2.2
      · cases hts
    · cases hts
  match ts, hbs with
  | t :: u :: ts, hbs =>
    simp only at hbs
    split at hbs
    · next hopen =>
      cases hbs
      rw [← outlineFrom_map hkind]
      apply outlines_of_nil
      · rw [hkind t List.mem_cons_self]
        exact hopen.1
      · rw [hkind u (List.mem_cons_of_mem t List.mem_cons_self)]
        exact hopen.2
    · cases hbs

/-- A template without braces in code has no outline. -/
def quiet (safe : Mode → V → Bool) (l : List (Sym V)) : Bool :=
  match scanSyms safe .code l with
  | some (.code, out) => ended out && symBraces out = []
  | _ => false

theorem quiet_render (hsafe : Safe vars safe) {l : List (Sym V)} (h : quiet safe l = true) :
    ∃ text ts, render vars l = some text ∧ Yields text ts ∧ Outlines tokenBrace ts [] := by
  rw [quiet] at h
  split at h
  · next out hout =>
    obtain ⟨hended, hbraces⟩ := Bool.and_eq_true_iff.mp h
    obtain ⟨hrender, hscan, hvars⟩ := scan_render hsafe hout
    obtain ⟨init, c, rfl, hc⟩ := exists_of_ended hended
    have hnone : braces ((init ++ [Sym.byte c]).flatMap (Sym.value vars)) = [] := by
      rw [braces_flatMap (hsafe.braces_value hvars)]
      exact of_decide_eq_true hbraces
    have hend : (init ++ [Sym.byte c]).flatMap (Sym.value vars) =
        init.flatMap (Sym.value vars) ++ [c] := by
      rw [List.flatMap_append]
      rfl
    rw [hend] at hscan hnone
    exact ⟨_, _, hrender, yields_of_scan hscan hc, outlines_of_braces hnone⟩
  · cases h

end Scan

/-! ## Parts printed one after the other -/

/-- What is printed takes the depth from `n` to `m`. -/
def MovesTo (n m : ℕ) (p : Option (List UInt8)) : Prop := ∃ text, p = some text ∧ Moves n m text

theorem MovesTo.nil (n : ℕ) : MovesTo n n (concat []) := ⟨[], rfl, .nil n⟩

theorem MovesTo.cons {n m k : ℕ} {p : Option (List UInt8)} {ps : List (Option (List UInt8))}
    (hp : MovesTo n m p) (hps : MovesTo m k (concat ps)) : MovesTo n k (concat (p :: ps)) := by
  obtain ⟨a, hpa, ha⟩ := hp
  obtain ⟨b, hpb, hb⟩ := hps
  exact ⟨a ++ b, concat_cons_eq_some.mpr ⟨a, b, hpa, hpb, rfl⟩, ha.append hb⟩

/-- A loop whose rounds keep the depth. -/
theorem MovesTo.each {ι : Type*} {n : ℕ} {f : ι → Option (List UInt8)} {xs : List ι}
    (h : ∀ x ∈ xs, MovesTo n n (f x)) : MovesTo n n (concat (xs.map f)) := by
  induction xs with
  | nil => exact .nil n
  | cons x xs ih =>
    exact .cons (h x List.mem_cons_self) (ih fun y hy => h y (List.mem_cons_of_mem x hy))

/-- What is printed has the given outline, wherever it stands. -/
def Outlined (p : Option (List UInt8)) (bs : List (Brace (List UInt8))) : Prop :=
  ∃ text ts, p = some text ∧ Yields text ts ∧ Outlines tokenBrace ts bs

theorem Outlined.nil : Outlined (concat []) [] := ⟨[], [], rfl, .nil, fun _ => rfl⟩

theorem Outlined.cons {p : Option (List UInt8)} {ps : List (Option (List UInt8))}
    {bs bs' : List (Brace (List UInt8))} (hp : Outlined p bs) (hps : Outlined (concat ps) bs') :
    Outlined (concat (p :: ps)) (bs ++ bs') := by
  obtain ⟨a, ts, hpa, ha, ha'⟩ := hp
  obtain ⟨b, us, hpb, hb, hb'⟩ := hps
  exact ⟨a ++ b, ts ++ us, concat_cons_eq_some.mpr ⟨a, b, hpa, hpb, rfl⟩, ha.append hb,
    ha'.append hb'⟩

/-- A loop, with the outline of each round. -/
theorem Outlined.each {ι : Type*} {f : ι → Option (List UInt8)}
    {g : ι → List (Brace (List UInt8))} {xs : List ι} (h : ∀ x ∈ xs, Outlined (f x) (g x)) :
    Outlined (concat (xs.map f)) (xs.flatMap g) := by
  induction xs with
  | nil => exact .nil
  | cons x xs ih =>
    exact .cons (h x List.mem_cons_self) (ih fun y hy => h y (List.mem_cons_of_mem x hy))

end Template
