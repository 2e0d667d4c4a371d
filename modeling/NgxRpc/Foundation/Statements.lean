import NgxRpc.Foundation.Template

/-!
# Statements of source texts

A text is read as a row of statements: its tokens, with the contents of string literals, up to
each semicolon or brace. What a statement does is told by patterns, which have places for the
names in it. Reading a template with its variables in place finds what reading every text printed
from it finds.

## Main definitions

- `lexemes` — the tokens of a text, with the contents of its literals
- `statementsFrom` — the statements among tokens
- `Rule`, `recognize` — patterns, and what they find in a statement
- `Finds` — what is found in a text that stands behind the beginning of a statement
- `symFinds` — what is found in a template, computed

## Main results

- `Finds.append`, `Finds.found_eq` — texts may be read one by one
- `finds_render` — what is found in a printed text is what is found in its template
-/

namespace SourceText

/-! ## Pieces -/

/-- A byte of the code, or of a string literal. -/
inductive Piece where
  | code (c : UInt8)
  | text (c : UInt8)
deriving DecidableEq

def Piece.byte : Piece → UInt8
  | .code c => c
  | .text c => c

/-- What a byte leaves of a text when the contents of string literals are kept. -/
def keep : Mode → UInt8 → List Piece
  | .str, c => if c = quote then [.code c] else [.text c]
  | .strEsc, c => [.text c]
  | m, c => (step m c).2.map .code

/-- The mode after a text, and its pieces. -/
def scanPieces : Mode → List UInt8 → Mode × List Piece
  | m, [] => (m, [])
  | m, c :: text =>
    let r := scanPieces (step m c).1 text
    (r.1, keep m c ++ r.2)

@[simp] theorem scanPieces_nil (m : Mode) : scanPieces m [] = (m, []) := rfl

theorem scanPieces_append (m : Mode) (a b : List UInt8) :
    scanPieces m (a ++ b) =
      ((scanPieces (scanPieces m a).1 b).1,
        (scanPieces m a).2 ++ (scanPieces (scanPieces m a).1 b).2) := by
  induction a generalizing m with
  | nil => rfl
  | cons c a ih => simp [scanPieces, ih, List.append_assoc]

/-- The pieces of a text that changes no mode. -/
def placed (m : Mode) (text : List UInt8) : List Piece :=
  match m with
  | .code => text.map .code
  | .str => text.map .text
  | _ => []

theorem placed_cons (m : Mode) (c : UInt8) (text : List UInt8) :
    placed m (c :: text) = placed m [c] ++ placed m text := by
  cases m <;> rfl

theorem keep_plain {m : Mode} (hm : m.steady = true) {c : UInt8} (hc : Plain c) :
    keep m c = placed m [c] := by
  have hquote : c ≠ quote := by
    rintro rfl
    revert hc
    decide
  have hstep := congrArg Prod.snd (step_plain hm hc)
  cases m with
  | str => rw [keep, if_neg hquote, placed, List.map_singleton]
  | code | line | block | chr => simp [keep, hstep, placed]
  | slash | lineEsc | star | strEsc | chrEsc => cases hm

/-- A plain text changes no mode. -/
theorem scanPieces_plain {m : Mode} (hm : m.steady = true) {text : List UInt8}
    (h : ∀ c ∈ text, Plain c) : scanPieces m text = (m, placed m text) := by
  induction text with
  | nil => cases m <;> rfl
  | cons c text ih =>
    have hc := h c List.mem_cons_self
    have htext := ih fun c hc => h c (List.mem_cons_of_mem _ hc)
    rw [scanPieces, step_plain hm hc, keep_plain hm hc]
    simp only [htext]
    rw [← placed_cons]

/-- A text without a quote and a backslash stays in a literal. -/
theorem scanPieces_str {text : List UInt8} (h : ∀ c ∈ text, c ≠ quote ∧ c ≠ backslash) :
    scanPieces .str text = (.str, placed .str text) := by
  induction text with
  | nil => rfl
  | cons c text ih =>
    obtain ⟨hquote, hbackslash⟩ := h c List.mem_cons_self
    have htext := ih fun c hc => h c (List.mem_cons_of_mem _ hc)
    have hc : step .str c = (.str, []) := by simp [step, hquote, hbackslash]
    rw [scanPieces, hc, keep, if_neg hquote]
    simp only [htext]
    rfl

/-! ## Lexemes -/

section Tokens

variable {α β : Type*} {A : Alphabet α} {B : Alphabet β} {f : α → List β}

/-- A sign at the end is a token. -/
theorem tokensFrom_sign (w a : List α) {c : α} (hc : A.word c = false)
    (hspace : A.space c = false) : tokensFrom A w (a ++ [c]) = tokensFrom A w a ++ [[c]] := by
  induction a generalizing w with
  | nil => simp [tokensFrom, hc, hspace, flush]
  | cons b a ih =>
    simp only [List.cons_append, tokensFrom, ih]
    split
    · rfl
    · split
      · rw [List.append_assoc]
      · rw [List.append_assoc, List.cons_append]

theorem tokensFrom_spaces {u : List α} (h : ∀ a ∈ u, A.word a = false ∧ A.space a = true)
    (l : List α) : tokensFrom A [] (u ++ l) = tokensFrom A [] l := by
  induction u with
  | nil => rfl
  | cons a u ih =>
    obtain ⟨hword, hspace⟩ := h a List.mem_cons_self
    rw [List.cons_append, tokensFrom, if_neg (by simp [hword]), if_pos hspace,
      ih fun b hb => h b (List.mem_cons_of_mem a hb)]
    rfl

/-- What `f` puts in the place of a symbol belongs to words where the symbol does. -/
def Fills (A : Alphabet α) (B : Alphabet β) (f : α → List β) (a : α) : Prop :=
  if A.word a then ∀ b ∈ f a, B.word b = true
  else ∃ b, f a = [b] ∧ B.word b = false ∧ B.space b = A.space a

theorem flush_fills {w : List α} (h : ∀ t ∈ flush w, t.flatMap f ≠ []) :
    flush (w.flatMap f) = (flush w).map (List.flatMap f) := by
  cases w with
  | nil => rfl
  | cons a w =>
    have hflush : flush (a :: w) = [a :: w] := if_neg (List.cons_ne_nil a w)
    have hne := h (a :: w) (by rw [hflush]; exact List.mem_cons_self)
    rw [hflush, flush, if_neg hne]
    rfl

/-- The tokens of a filled code are the filled tokens, unless one of them gets lost. -/
theorem tokensFrom_fills {w l : List α} (h : ∀ a ∈ l, Fills A B f a)
    (hne : ∀ t ∈ tokensFrom A w l, t.flatMap f ≠ []) :
    tokensFrom B (w.flatMap f) (l.flatMap f) = (tokensFrom A w l).map (List.flatMap f) := by
  induction l generalizing w with
  | nil => exact flush_fills hne
  | cons a l ih =>
    have hl : ∀ b ∈ l, Fills A B f b := fun b hb => h b (List.mem_cons_of_mem a hb)
    have ha := h a List.mem_cons_self
    rw [Fills] at ha
    rw [tokensFrom] at hne ⊢
    rw [List.flatMap_cons]
    split at ha
    · next hword =>
      rw [if_pos hword] at hne ⊢
      rw [tokensFrom_words _ ha, ← ih hl hne, List.flatMap_append, List.flatMap_singleton]
    · next hword =>
      obtain ⟨b, hb, hbword, hbspace⟩ := ha
      rw [if_neg hword] at hne ⊢
      rw [hb, List.singleton_append]
      simp only [tokensFrom, hbword, hbspace, Bool.false_eq_true, if_false]
      split at hne
      · next hspace =>
        have hnil := ih (w := []) hl fun t ht => hne t (List.mem_append_right _ ht)
        have hflush := flush_fills fun t ht => hne t (List.mem_append_left _ ht)
        rw [List.flatMap_nil] at hnil
        rw [if_pos hspace, if_pos hspace, List.map_append, hflush, hnil]
      · next hspace =>
        have hnil := ih (w := []) hl fun t ht =>
          hne t (List.mem_append_right _ (List.mem_cons_of_mem _ ht))
        have hflush := flush_fills fun t ht => hne t (List.mem_append_left _ ht)
        rw [List.flatMap_nil] at hnil
        rw [if_neg hspace, if_neg hspace, List.map_append, List.map_cons, hflush, hnil,
          List.flatMap_singleton, hb]

end Tokens

/-- Words are those of the code; what stands between two quotes is one word. -/
def pieces : Alphabet Piece where
  word
    | .code c => isWord c
    | .text _ => true
  space
    | .code c => isSpace c
    | .text _ => false

/-- The tokens of a text, with the contents of its literals. -/
def lexemes (text : List UInt8) : List (List Piece) :=
  tokensFrom pieces [] (scanPieces .code text).2

/-- The text ends in code, and its lexemes are `ts` whatever follows it. -/
def Lexes (text : List UInt8) (ts : List (List Piece)) : Prop :=
  (scanPieces .code text).1 = .code ∧
    ∀ rest, tokensFrom pieces [] ((scanPieces .code text).2 ++ rest) =
      ts ++ tokensFrom pieces [] rest

theorem Lexes.nil : Lexes [] [] := ⟨rfl, fun _ => rfl⟩

theorem Lexes.append {a b : List UInt8} {ts us : List (List Piece)} (ha : Lexes a ts)
    (hb : Lexes b us) : Lexes (a ++ b) (ts ++ us) := by
  refine ⟨?_, fun rest => ?_⟩
  · rw [scanPieces_append, ha.1]
    exact hb.1
  · rw [scanPieces_append, ha.1, List.append_assoc, ha.2, hb.2, List.append_assoc]

theorem Lexes.lexemes_eq {text : List UInt8} {ts : List (List Piece)} (h : Lexes text ts) :
    lexemes text = ts := by
  have hts := h.2 []
  rwa [List.append_nil, show tokensFrom pieces [] [] = [] from rfl, List.append_nil] at hts

/-- A text in front of a piece that is in no word has lexemes of its own. -/
theorem lexes_of_scan {text : List UInt8} {ps : List Piece} {p : Piece}
    (h : scanPieces .code text = (.code, ps ++ [p])) (hp : pieces.word p = false) :
    Lexes text (tokensFrom pieces [] (ps ++ [p])) := by
  refine ⟨by rw [h], fun rest => ?_⟩
  rw [h]
  exact tokensFrom_append [] ps hp rest

/-- A text with a sign at its end, and spaces behind it. -/
theorem lexes_of_sign {text : List UInt8} {ps spaces : List Piece} {p : Piece}
    (h : scanPieces .code text = (.code, ps ++ [p] ++ spaces)) (hp : pieces.word p = false)
    (hsign : pieces.space p = false)
    (hspaces : ∀ q ∈ spaces, pieces.word q = false ∧ pieces.space q = true) :
    Lexes text (tokensFrom pieces [] ps ++ [[p]]) := by
  refine ⟨by rw [h], fun rest => ?_⟩
  rw [h, List.append_assoc, tokensFrom_append [] ps hp, tokensFrom_spaces hspaces,
    tokensFrom_sign [] ps hp hsign]

/-! ## Statements -/

section Statements

variable {τ υ : Type*} {ends : τ → Bool}

/-- The statements among tokens that stand behind the tokens `w`, and what there is of the last
one. -/
def statementsFrom (ends : τ → Bool) : List τ → List τ → List (List τ) × List τ
  | w, [] => ([], w)
  | w, t :: ts =>
    if ends t then
      let r := statementsFrom ends [] ts
      ((w ++ [t]) :: r.1, r.2)
    else statementsFrom ends (w ++ [t]) ts

theorem statementsFrom_append (w a b : List τ) :
    statementsFrom ends w (a ++ b) =
      ((statementsFrom ends w a).1 ++ (statementsFrom ends (statementsFrom ends w a).2 b).1,
        (statementsFrom ends (statementsFrom ends w a).2 b).2) := by
  induction a generalizing w with
  | nil => rfl
  | cons t a ih =>
    simp only [List.cons_append, statementsFrom, ih]
    split
    · rfl
    · rfl

/-- Tokens that end nothing belong to the statement that has begun. -/
theorem statementsFrom_quiet (w : List τ) {ts : List τ} (h : ∀ t ∈ ts, ends t = false) :
    statementsFrom ends w ts = ([], w ++ ts) := by
  induction ts generalizing w with
  | nil => rw [List.append_nil, statementsFrom]
  | cons t ts ih =>
    rw [statementsFrom, h t List.mem_cons_self, if_neg Bool.false_ne_true,
      ih _ fun u hu => h u (List.mem_cons_of_mem t hu), List.append_assoc]
    rfl

/-- The statements among rendered tokens are the rendered ones. -/
theorem statementsFrom_map {ends' : υ → Bool} {g : τ → υ} {ts : List τ}
    (h : ∀ t ∈ ts, ends' (g t) = ends t) (w : List τ) :
    statementsFrom ends' (w.map g) (ts.map g) =
      ((statementsFrom ends w ts).1.map (List.map g), (statementsFrom ends w ts).2.map g) := by
  induction ts generalizing w with
  | nil => rfl
  | cons t ts ih =>
    have hts := ih fun u hu => h u (List.mem_cons_of_mem t hu)
    have hnil := hts []
    rw [List.map_nil] at hnil
    rw [List.map_cons, statementsFrom, statementsFrom, h t List.mem_cons_self, hnil]
    split
    · rw [List.map_cons, List.map_append, List.map_singleton]
    · rw [← hts, List.map_append, List.map_singleton]

end Statements

def semicolon : UInt8 := 59

/-- A semicolon or a brace. -/
def Piece.ends : Piece → Bool
  | .code c => c == semicolon || c == openBrace || c == closeBrace
  | .text _ => false

theorem Piece.ends_word {c : UInt8} (h : isWord c = true) : (Piece.code c).ends = false := by
  rw [Bool.eq_false_iff]
  intro hends
  simp only [Piece.ends, Bool.or_eq_true, beq_iff_eq] at hends
  obtain (rfl | rfl) | rfl := hends
  all_goals
    revert h
    decide

/-- The statements of a text. -/
def statements (text : List UInt8) : List (List (List Piece)) :=
  (statementsFrom (List.any · Piece.ends) [] (lexemes text)).1

/-! ## Patterns -/

/-- The tokens in the places of a pattern, when a statement has its form. -/
def matchPattern {τ : Type*} [DecidableEq τ] : List (Option τ) → List τ → Option (List τ)
  | [], [] => some []
  | none :: p, t :: ts => (matchPattern p ts).map (t :: ·)
  | some u :: p, t :: ts => if t = u then matchPattern p ts else none
  | _, _ => none

/-- A kind of statement and its form. -/
structure Rule (κ : Type*) where
  kind : κ
  pattern : List (Option (List Piece))

/-- The sign for a place in a pattern. -/
def hole : UInt8 := 36

/-- The pattern that is written like the statement, with holes. -/
def patternOf (text : List UInt8) : List (Option (List Piece)) :=
  (lexemes text).map fun t => if t.map Piece.byte = [hole] then none else some t

/-- A statement that was found: its kind, and what stands in its places. -/
structure Found (κ τ : Type*) where
  kind : κ
  parts : List τ
deriving DecidableEq

def Found.map {κ τ υ : Type*} (g : τ → υ) (f : Found κ τ) : Found κ υ := ⟨f.kind, f.parts.map g⟩

section Rules

variable {κ : Type*} {rules : List (Rule κ)}

/-- What the first rule with the form of the statement finds. -/
def recognize : List (Rule κ) → List (List Piece) → Option (Found κ (List Piece))
  | [], _ => none
  | r :: rules, s =>
    match matchPattern r.pattern s with
    | some parts => some ⟨r.kind, parts⟩
    | none => recognize rules s

/-- What is found in statements. -/
def foundIn (rules : List (Rule κ)) (ss : List (List (List Piece))) : List (Found κ (List UInt8)) :=
  (ss.filterMap (recognize rules)).map (Found.map (List.map Piece.byte))

@[simp] theorem foundIn_append (ss ss' : List (List (List Piece))) :
    foundIn rules (ss ++ ss') = foundIn rules ss ++ foundIn rules ss' := by
  rw [foundIn, List.filterMap_append, List.map_append]
  rfl

/-- What is found in a text. -/
def found (rules : List (Rule κ)) (text : List UInt8) : List (Found κ (List UInt8)) :=
  foundIn rules (statements text)

/-- What is found in a text behind the beginning of a statement that fulfils `P`; what it leaves
of the last statement fulfils `Q`. -/
def Finds (rules : List (Rule κ)) (P Q : List (List Piece) → Prop) (text : List UInt8)
    (fs : List (Found κ (List UInt8))) : Prop :=
  ∃ ts, Lexes text ts ∧ ∀ w, P w →
    Q (statementsFrom (List.any · Piece.ends) w ts).2 ∧
      foundIn rules (statementsFrom (List.any · Piece.ends) w ts).1 = fs

variable {P Q R : List (List Piece) → Prop} {a b : List UInt8}
  {fs gs : List (Found κ (List UInt8))}

theorem Finds.nil (P : List (List Piece) → Prop) : Finds rules P P [] [] :=
  ⟨[], .nil, fun _ hw => ⟨hw, rfl⟩⟩

theorem Finds.append (ha : Finds rules P Q a fs) (hb : Finds rules Q R b gs) :
    Finds rules P R (a ++ b) (fs ++ gs) := by
  obtain ⟨ts, hts, hfs⟩ := ha
  obtain ⟨us, hus, hgs⟩ := hb
  refine ⟨ts ++ us, hts.append hus, fun w hw => ?_⟩
  obtain ⟨hleft, hfound⟩ := hfs w hw
  obtain ⟨hleft', hfound'⟩ := hgs _ hleft
  rw [statementsFrom_append, foundIn_append, hfound, hfound']
  exact ⟨hleft', rfl⟩

theorem Finds.mono {P' Q' : List (List Piece) → Prop} (h : Finds rules P Q a fs)
    (hP : ∀ w, P' w → P w) (hQ : ∀ w, Q w → Q' w) : Finds rules P' Q' a fs := by
  obtain ⟨ts, hts, hfs⟩ := h
  exact ⟨ts, hts, fun w hw => ⟨hQ _ (hfs w (hP w hw)).1, (hfs w (hP w hw)).2⟩⟩

/-- The statement that ends here is none of those that are looked for. -/
theorem finds_silent {text : List UInt8} {ps spaces : List Piece} {p : Piece}
    (h : scanPieces .code text = (.code, ps ++ [p] ++ spaces)) (hps : ps.any Piece.ends = false)
    (hp : p.ends = true ∧ pieces.word p = false ∧ pieces.space p = false)
    (hspaces : ∀ q ∈ spaces, pieces.word q = false ∧ pieces.space q = true)
    (hnone : ∀ w, P w → recognize rules (w ++ tokensFrom pieces [] ps ++ [[p]]) = none)
    (hQ : Q []) : Finds rules P Q text [] := by
  have hquiet : ∀ t ∈ tokensFrom pieces [] ps, t.any Piece.ends = false := by
    intro t ht
    rw [List.any_eq_false] at hps ⊢
    intro q hq
    exact hps q (((mem_tokensFrom (by simp) ht).1 q hq).resolve_left List.not_mem_nil)
  have hends : [p].any Piece.ends = true := by simp [hp.1]
  refine ⟨_, lexes_of_sign h hp.2.1 hp.2.2 hspaces, fun w hw => ?_⟩
  rw [statementsFrom_append, statementsFrom_quiet w hquiet]
  simp only [statementsFrom, hends, if_true, List.nil_append]
  exact ⟨hQ, by rw [foundIn, List.filterMap_cons, hnone w hw]; rfl⟩

/-- What is found in a whole text. -/
theorem Finds.found_eq (h : Finds rules P Q a fs) (hP : P []) : found rules a = fs := by
  obtain ⟨ts, hts, hfs⟩ := h
  rw [found, statements, hts.lexemes_eq, (hfs [] hP).2]

end Rules

end SourceText

namespace Template
open SourceText

variable {V : Type}

/-! ## Templates -/

/-- A piece of a template, or a variable in code or in a literal. -/
inductive PieceSym (V : Type) where
  | piece (p : Piece)
  | inCode (v : V)
  | inText (v : V)
deriving DecidableEq

/-- What stands in a printed text for a symbol. -/
def PieceSym.value (vars : V → Option (List UInt8)) : PieceSym V → List Piece
  | .piece p => [p]
  | .inCode v => ((vars v).getD []).map .code
  | .inText v => ((vars v).getD []).map .text

/-- The bytes of a token of a template. -/
def spelled (vars : V → Option (List UInt8)) (t : List (PieceSym V)) : List UInt8 :=
  (t.flatMap (PieceSym.value vars)).map Piece.byte

/-- The symbol for a variable. -/
def placedVar (m : Mode) (v : V) : List (PieceSym V) :=
  match m with
  | .code => [.inCode v]
  | .str => [.inText v]
  | _ => []

/-- In each mode the variables that may stand there have values that do not change it, and words in
code. -/
structure Readable (vars : V → Option (List UInt8)) (safe : Mode → V → Bool) : Prop where
  value : ∀ m v, safe m v = true → ∃ s, vars v = some s ∧ scanPieces m s = (m, placed m s)
  word : ∀ v s, safe .code v = true → vars v = some s → s ≠ [] ∧ ∀ c ∈ s, isWord c = true

/-- The pieces of a template, unless a variable stands where it may not. -/
def scanPieceSyms (safe : Mode → V → Bool) : Mode → List (Sym V) → Option (Mode × List (PieceSym V))
  | m, [] => some (m, [])
  | m, .byte c :: l =>
    (scanPieceSyms safe (step m c).1 l).map fun r => (r.1, (keep m c).map .piece ++ r.2)
  | m, .var v :: l =>
    if safe m v then (scanPieceSyms safe m l).map fun r => (r.1, placedVar m v ++ r.2) else none

section Scan

variable {vars : V → Option (List UInt8)} {safe : Mode → V → Bool}

theorem flatMap_value_piece (ps : List Piece) :
    (ps.map (PieceSym.piece (V := V))).flatMap (PieceSym.value vars) = ps := by
  induction ps with
  | nil => rfl
  | cons p ps ih =>
    rw [List.map_cons, List.flatMap_cons, ih]
    rfl

@[simp] theorem spelled_nil : spelled vars [] = [] := rfl

@[simp] theorem spelled_append (t u : List (PieceSym V)) :
    spelled vars (t ++ u) = spelled vars t ++ spelled vars u := by
  simp [spelled]

@[simp] theorem spelled_piece (p : Piece) (t : List (PieceSym V)) :
    spelled vars (.piece p :: t) = p.byte :: spelled vars t := rfl

@[simp] theorem spelled_inCode (v : V) (t : List (PieceSym V)) :
    spelled vars (.inCode v :: t) = (vars v).getD [] ++ spelled vars t := by
  simp [spelled, PieceSym.value, Function.comp_def, Piece.byte]

@[simp] theorem spelled_inText (v : V) (t : List (PieceSym V)) :
    spelled vars (.inText v :: t) = (vars v).getD [] ++ spelled vars t := by
  simp [spelled, PieceSym.value, Function.comp_def, Piece.byte]

theorem map_flatMap_value_piece (w : List (List Piece)) :
    (w.map (List.map (PieceSym.piece (V := V)))).map (List.flatMap (PieceSym.value vars)) = w := by
  rw [List.map_map]
  exact (List.map_congr_left fun t _ => flatMap_value_piece t).trans (List.map_id w)

theorem flatMap_value_placedVar {m : Mode} {v : V} {s : List UInt8} (h : vars v = some s) :
    (placedVar m v).flatMap (PieceSym.value vars) = placed m s := by
  cases m <;> simp [placedVar, placed, PieceSym.value, h]

/-- Reading a printed text is reading its template, rendered. -/
theorem scanPieces_render (hsafe : Readable vars safe) {m m' : Mode} {l : List (Sym V)}
    {out : List (PieceSym V)} (h : scanPieceSyms safe m l = some (m', out)) :
    ∃ text, render vars l = some text ∧
      scanPieces m text = (m', out.flatMap (PieceSym.value vars)) ∧
        ∀ v, PieceSym.inCode v ∈ out → safe .code v = true := by
  induction l generalizing m out with
  | nil =>
    cases h
    exact ⟨[], rfl, rfl, by simp⟩
  | cons a l ih =>
    cases a with
    | byte c =>
      obtain ⟨⟨m₁, rest⟩, hrest, hr⟩ := Option.map_eq_some_iff.mp h
      obtain ⟨rfl, rfl⟩ := Prod.mk.inj hr
      obtain ⟨text, hrender, hread, hvars⟩ := ih hrest
      refine ⟨c :: text, ?_, ?_, fun v hv => hvars v ?_⟩
      · rw [render, hrender, Option.map_some]
      · rw [scanPieces, hread, List.flatMap_append, flatMap_value_piece]
      · simpa using hv
    | var v =>
      rw [scanPieceSyms] at h
      split at h
      · next hv =>
        obtain ⟨⟨m₁, rest⟩, hrest, hr⟩ := Option.map_eq_some_iff.mp h
        obtain ⟨rfl, rfl⟩ := Prod.mk.inj hr
        obtain ⟨text, hrender, hread, hvars⟩ := ih hrest
        obtain ⟨s, hs, hstay⟩ := hsafe.value m v hv
        refine ⟨s ++ text, ?_, ?_, fun u hu => ?_⟩
        · rw [render, hs, hrender, Option.bind_some, Option.map_some]
        · rw [scanPieces_append, hstay, List.flatMap_append, flatMap_value_placedVar hs]
          simp only [hread]
        · obtain hu | hu := List.mem_append.mp hu
          · cases m with
            | code =>
              obtain rfl : u = v := by simpa [placedVar] using hu
              exact hv
            | _ => simp [placedVar] at hu
          · exact hvars u hu
      · cases h

/-! ### Tokens -/

/-- The symbols of a template that are parts of words. -/
def pieceSyms : Alphabet (PieceSym V) where
  word
    | .piece p => pieces.word p
    | .inCode _ => true
    | .inText _ => true
  space
    | .piece p => pieces.space p
    | .inCode _ => false
    | .inText _ => false

/-- The symbol is never lost. -/
def PieceSym.solid : PieceSym V → Bool
  | .inText _ => false
  | _ => true

/-- The last symbol is in no word. -/
def endedPieces (l : List (PieceSym V)) : Bool :=
  match l.getLast? with
  | some (.piece p) => !pieces.word p
  | _ => false

/-- The tokens of a template that ends in code, and not within a word. -/
def symLexemes (safe : Mode → V → Bool) (l : List (Sym V)) :
    Option (List (List (PieceSym V))) :=
  match scanPieceSyms safe .code l with
  | some (.code, out) =>
    let ts := tokensFrom pieceSyms [] out
    if endedPieces out && ts.all (List.any · PieceSym.solid) then some ts else none
  | _ => none

theorem exists_of_endedPieces {l : List (PieceSym V)} (h : endedPieces l = true) :
    ∃ init p, l = init ++ [.piece p] ∧ pieces.word p = false := by
  rw [endedPieces] at h
  split at h
  · next p hlast =>
    obtain ⟨init, rfl⟩ := List.getLast?_eq_some_iff.mp hlast
    exact ⟨init, p, rfl, by simpa using h⟩
  · cases h

theorem fills_value (hsafe : Readable vars safe) {a : PieceSym V}
    (ha : ∀ v, a = .inCode v → safe .code v = true) :
    Fills pieceSyms pieces (PieceSym.value vars) a := by
  rw [Fills]
  cases a with
  | piece p =>
    split
    · next hp => exact fun b hb => List.mem_singleton.mp hb ▸ hp
    · next hp => exact ⟨p, rfl, Bool.eq_false_iff.mpr hp, rfl⟩
  | inCode v =>
    obtain ⟨s, hs, -⟩ := hsafe.value _ v (ha v rfl)
    have hword := (hsafe.word v s (ha v rfl) hs).2
    rw [if_pos (show pieceSyms.word (PieceSym.inCode v) = true from rfl)]
    simp only [PieceSym.value, hs, Option.getD_some]
    exact List.forall_mem_map.mpr hword
  | inText v =>
    rw [if_pos (show pieceSyms.word (PieceSym.inText v) = true from rfl)]
    exact List.forall_mem_map.mpr fun _ _ => rfl

/-- A token with a solid symbol is not lost. -/
theorem flatMap_value_ne_nil (hsafe : Readable vars safe) {t : List (PieceSym V)}
    (ht : ∀ v, PieceSym.inCode v ∈ t → safe .code v = true)
    (hsolid : t.any PieceSym.solid = true) : t.flatMap (PieceSym.value vars) ≠ [] := by
  obtain ⟨a, ha, hsolid⟩ := List.any_eq_true.mp hsolid
  intro hnil
  have hvalue := List.flatMap_eq_nil_iff.mp hnil a ha
  cases a with
  | piece p => cases hvalue
  | inCode v =>
    obtain ⟨s, hs, -⟩ := hsafe.value _ v (ht v ha)
    have hne := (hsafe.word v s (ht v ha) hs).1
    simp [PieceSym.value, hs, hne] at hvalue
  | inText v => cases hsolid

/-- The lexemes of a printed text are those of its template, rendered. -/
theorem lexes_render (hsafe : Readable vars safe) {l : List (Sym V)}
    {ts : List (List (PieceSym V))} (h : symLexemes safe l = some ts) :
    ∃ text, render vars l = some text ∧
      Lexes text (ts.map (List.flatMap (PieceSym.value vars))) ∧
        ∀ t ∈ ts, ∀ v, PieceSym.inCode v ∈ t → safe .code v = true := by
  rw [symLexemes] at h
  split at h
  · next out hout =>
    simp only at h
    split at h
    · next hok =>
      cases h
      obtain ⟨hended, hsolid⟩ := Bool.and_eq_true_iff.mp hok
      obtain ⟨text, hrender, hread, hvars⟩ := scanPieces_render hsafe hout
      have htokens : ∀ t ∈ tokensFrom pieceSyms [] out, ∀ v, PieceSym.inCode v ∈ t →
          safe .code v = true := by
        intro t ht v hv
        have hmem := (mem_tokensFrom (by simp) ht).1 _ hv
        exact hvars v (hmem.resolve_left List.not_mem_nil)
      refine ⟨text, hrender, ?_, htokens⟩
      have hfilled := tokensFrom_fills (B := pieces) (f := PieceSym.value vars) (w := []) (l := out)
        (fun a ha => fills_value hsafe fun v hv => hvars v (hv ▸ ha)) fun t ht =>
          flatMap_value_ne_nil hsafe (htokens t ht) (List.all_eq_true.mp hsolid t ht)
      obtain ⟨init, p, rfl, hp⟩ := exists_of_endedPieces hended
      rw [← hfilled, List.flatMap_nil]
      have hend : (init ++ [PieceSym.piece p]).flatMap (PieceSym.value vars) =
          init.flatMap (PieceSym.value vars) ++ [p] := by
        rw [List.flatMap_append]
        rfl
      rw [hend] at hread ⊢
      exact lexes_of_scan hread hp
    · cases h
  · cases h

/-! ### Patterns -/

/-- The pieces at the front of a token, before its variables. -/
def front : List (PieceSym V) → List Piece
  | .piece p :: t => p :: front t
  | _ => []

/-- Whether a token of a template is the given one: `none` when that depends on a variable. -/
def compare [DecidableEq V] (t : List (PieceSym V)) (u : List Piece) : Option Bool :=
  if t = u.map .piece then some true
  else if t.all (fun | .piece _ => true | _ => false) then some false
  else if front t <+: u ∧ (front t.reverse).reverse <:+ u then none
  else some false

/-- What stands in the places of a pattern, when it can be told whether the statement has its
form. -/
def symMatch [DecidableEq V] : List (Option (List Piece)) → List (List (PieceSym V)) →
    Option (Option (List (List (PieceSym V))))
  | [], [] => some (some [])
  | none :: p, t :: ts => (symMatch p ts).map (Option.map (t :: ·))
  | some u :: p, t :: ts =>
    match compare t u with
    | some true => symMatch p ts
    | some false => some none
    | none =>
      match symMatch p ts with
      | some none => some none
      | _ => none
  | _, _ => some none

/-- What is found in a statement of a template, when it can be told. -/
def symFind [DecidableEq V] {κ : Type*} : List (Rule κ) → List (List (PieceSym V)) →
    Option (Option (Found κ (List (PieceSym V))))
  | [], _ => some none
  | r :: rules, s =>
    match symMatch r.pattern s with
    | some (some parts) => some (some ⟨r.kind, parts⟩)
    | some none => symFind rules s
    | none => none

def symFindAll [DecidableEq V] {κ : Type*} (rules : List (Rule κ)) :
    List (List (List (PieceSym V))) → Option (List (Found κ (List (PieceSym V))))
  | [] => some []
  | s :: ss =>
    (symFind rules s).bind fun f => (symFindAll rules ss).map (f.toList ++ ·)

def PieceSym.ends : PieceSym V → Bool
  | .piece p => p.ends
  | _ => false

/-- What is found in a template behind the tokens `w`, and what it leaves of its last statement. -/
def symFinds [DecidableEq V] {κ : Type*} (safe : Mode → V → Bool) (rules : List (Rule κ))
    (l : List (Sym V)) (w : List (List Piece)) :
    Option (List (Found κ (List (PieceSym V))) × List (List (PieceSym V))) :=
  (symLexemes safe l).bind fun ts =>
    let r := statementsFrom (List.any · PieceSym.ends) (w.map (List.map .piece)) ts
    (symFindAll rules r.1).map fun fs => (fs, r.2)

theorem isPrefix_front (vars : V → Option (List UInt8)) (t : List (PieceSym V)) :
    front t <+: t.flatMap (PieceSym.value vars) := by
  induction t with
  | nil => exact List.nil_prefix
  | cons a t ih =>
    cases a with
    | piece p => exact List.cons_prefix_cons.mpr ⟨rfl, ih⟩
    | inCode v => exact List.nil_prefix
    | inText v => exact List.nil_prefix

theorem isSuffix_front_reverse (vars : V → Option (List UInt8)) (t : List (PieceSym V)) :
    (front t.reverse).reverse <:+ t.flatMap (PieceSym.value vars) := by
  induction t using List.reverseRecOn with
  | nil => exact List.nil_suffix
  | append_singleton t a ih =>
    rw [List.reverse_append, List.reverse_singleton, List.singleton_append, List.flatMap_append,
      List.flatMap_singleton]
    cases a with
    | piece p =>
      rw [front, List.reverse_cons]
      exact (List.suffix_append_inj_of_length_eq rfl).mpr ⟨ih, rfl⟩
    | inCode v => exact List.nil_suffix
    | inText v => exact List.nil_suffix

theorem exists_pieces {t : List (PieceSym V)}
    (h : t.all (fun | .piece _ => true | _ => false) = true) :
    ∃ ps : List Piece, t = ps.map .piece := by
  induction t with
  | nil => exact ⟨[], rfl⟩
  | cons a t ih =>
    obtain ⟨ha, ht⟩ := Bool.and_eq_true_iff.mp ((List.all_cons).symm.trans h)
    obtain ⟨ps, rfl⟩ := ih ht
    cases a with
    | piece p => exact ⟨p :: ps, rfl⟩
    | inCode v => cases ha
    | inText v => cases ha

variable [DecidableEq V] {κ : Type*} {rules : List (Rule κ)}

theorem compare_sound {t : List (PieceSym V)} {u : List Piece} {b : Bool}
    (h : compare t u = some b) : (t.flatMap (PieceSym.value vars) = u ↔ b = true) := by
  rw [compare] at h
  split at h
  · next ht =>
    cases h
    rw [ht, flatMap_value_piece]
    simp
  · next hne =>
    split at h
    · next hall =>
      cases h
      obtain ⟨ps, rfl⟩ := exists_pieces hall
      rw [flatMap_value_piece]
      simpa using fun heq => hne (by rw [heq])
    · split at h
      · cases h
      · next hapart =>
        cases h
        simp only [Bool.false_eq_true, iff_false]
        rintro rfl
        exact hapart ⟨isPrefix_front vars t, isSuffix_front_reverse vars t⟩

/-- A pattern that a template has or has not is one that every text printed from it has or has
not. -/
theorem symMatch_sound {p : List (Option (List Piece))} {s : List (List (PieceSym V))}
    {o : Option (List (List (PieceSym V)))} (h : symMatch p s = some o) :
    matchPattern p (s.map (List.flatMap (PieceSym.value vars))) =
      o.map (List.map (List.flatMap (PieceSym.value vars))) := by
  induction p generalizing s o with
  | nil =>
    cases s with
    | nil =>
      cases h
      rfl
    | cons t s =>
      cases h
      rfl
  | cons u p ih =>
    cases s with
    | nil =>
      cases u with
      | none =>
        cases h
        rfl
      | some u =>
        cases h
        rfl
    | cons t s =>
      cases u with
      | none =>
        obtain ⟨o', ho', rfl⟩ := Option.map_eq_some_iff.mp h
        rw [List.map_cons, matchPattern, ih ho']
        cases o' with
        | none => rfl
        | some parts => rfl
      | some u =>
        rw [List.map_cons, matchPattern]
        simp only [symMatch] at h
        split at h
        · next heq => rw [if_pos ((compare_sound heq).mpr rfl), ih h]
        · next hne =>
          cases h
          rw [if_neg (mt (compare_sound hne).mp Bool.false_ne_true)]
          rfl
        · split at h
          · next hrest =>
            cases h
            rw [ih hrest]
            split
            · rfl
            · rfl
          · cases h

theorem symFind_sound {s : List (List (PieceSym V))} {o : Option (Found κ (List (PieceSym V)))}
    (h : symFind rules s = some o) :
    recognize rules (s.map (List.flatMap (PieceSym.value vars))) =
      o.map (Found.map (List.flatMap (PieceSym.value vars))) := by
  induction rules with
  | nil =>
    cases h
    rfl
  | cons r rules ih =>
    rw [recognize]
    simp only [symFind] at h
    split at h
    · next parts hparts =>
      cases h
      rw [symMatch_sound hparts]
      rfl
    · next hnone =>
      rw [symMatch_sound hnone]
      exact ih h
    · cases h

theorem symFindAll_sound {ss : List (List (List (PieceSym V)))}
    {fs : List (Found κ (List (PieceSym V)))} (h : symFindAll rules ss = some fs) :
    foundIn rules (ss.map (List.map (List.flatMap (PieceSym.value vars)))) =
      fs.map (Found.map (spelled vars)) := by
  induction ss generalizing fs with
  | nil =>
    cases h
    rfl
  | cons s ss ih =>
    obtain ⟨o, ho, hrest⟩ := Option.bind_eq_some_iff.mp h
    obtain ⟨fs, hfs, rfl⟩ := Option.map_eq_some_iff.mp hrest
    have htail := ih hfs
    rw [List.map_cons, foundIn, List.filterMap_cons, symFind_sound ho]
    cases o with
    | none => exact htail
    | some f =>
      rw [foundIn] at htail
      simp only [Option.map_some, List.map_cons, htail, Option.toList_some, List.singleton_append]
      rw [Found.map, Found.map, List.map_map]
      rfl

omit [DecidableEq V] in
/-- No value of a variable ends a statement. -/
theorem ends_value (hsafe : Readable vars safe) {t : List (PieceSym V)}
    (ht : ∀ v, PieceSym.inCode v ∈ t → safe .code v = true) :
    (t.flatMap (PieceSym.value vars)).any Piece.ends = t.any PieceSym.ends := by
  rw [List.any_flatMap, Bool.eq_iff_iff, List.any_eq_true, List.any_eq_true]
  refine exists_congr fun a => and_congr_right fun ha => ?_
  cases a with
  | piece p => simp [PieceSym.value, PieceSym.ends]
  | inCode v =>
    obtain ⟨s, hs, -⟩ := hsafe.value _ v (ht v ha)
    have hword := (hsafe.word v s (ht v ha) hs).2
    simp only [PieceSym.value, hs, Option.getD_some, PieceSym.ends, List.any_map,
      List.any_eq_true, Bool.false_eq_true, iff_false, not_exists, not_and, Function.comp_apply]
    exact fun c hc => Bool.eq_false_iff.mp (Piece.ends_word (hword c hc))
  | inText v => simp [PieceSym.value, PieceSym.ends, Piece.ends, Function.comp_def]

/-- What is found in a printed text is what is found in its template, rendered. -/
theorem finds_render (hsafe : Readable vars safe) {l : List (Sym V)} {ws : List (List (List Piece))}
    (hws : ws ≠ []) {Q : List (List Piece) → Prop} {fs : List (Found κ (List (PieceSym V)))}
    (h : ∀ w ∈ ws, ∃ left, symFinds safe rules l w = some (fs, left) ∧
      Q (left.map (List.flatMap (PieceSym.value vars)))) :
    ∃ text, render vars l = some text ∧
      Finds rules (· ∈ ws) Q text (fs.map (Found.map (spelled vars))) := by
  obtain ⟨w₀, hw₀⟩ := List.exists_mem_of_ne_nil ws hws
  obtain ⟨_, h₀, -⟩ := h w₀ hw₀
  obtain ⟨ts, hts, -⟩ := Option.bind_eq_some_iff.mp h₀
  obtain ⟨text, hrender, hlexes, hvars⟩ := lexes_render hsafe hts
  refine ⟨text, hrender, _, hlexes, fun w hw => ?_⟩
  obtain ⟨left, hfinds, hleft⟩ := h w hw
  rw [symFinds, hts, Option.bind_some] at hfinds
  obtain ⟨fs', hfs', heq⟩ := Option.map_eq_some_iff.mp hfinds
  obtain ⟨rfl, rfl⟩ := Prod.mk.inj heq
  have hmap := @statementsFrom_map _ _ (List.any · PieceSym.ends) (List.any · Piece.ends)
    (List.flatMap (PieceSym.value vars)) ts (fun t ht => ends_value hsafe (hvars t ht))
    (w.map (List.map .piece))
  rw [map_flatMap_value_piece] at hmap
  rw [hmap, symFindAll_sound hfs']
  exact ⟨hleft, rfl⟩

end Scan

/-! ## Parts printed one after the other -/

section Parts

variable {κ : Type*} {rules : List (Rule κ)} {P Q R : List (List Piece) → Prop}
  {p : Option (List UInt8)} {ps : List (Option (List UInt8))} {fs gs : List (Found κ (List UInt8))}

/-- What is printed is found there. -/
def FindsIn (rules : List (Rule κ)) (P Q : List (List Piece) → Prop) (p : Option (List UInt8))
    (fs : List (Found κ (List UInt8))) : Prop :=
  ∃ text, p = some text ∧ Finds rules P Q text fs

theorem FindsIn.nil (P : List (List Piece) → Prop) : FindsIn rules P P (concat []) [] :=
  ⟨[], rfl, .nil P⟩

theorem FindsIn.cons (hp : FindsIn rules P Q p fs) (hps : FindsIn rules Q R (concat ps) gs) :
    FindsIn rules P R (concat (p :: ps)) (fs ++ gs) := by
  obtain ⟨a, hpa, ha⟩ := hp
  obtain ⟨b, hpb, hb⟩ := hps
  exact ⟨a ++ b, concat_cons_eq_some.mpr ⟨a, b, hpa, hpb, rfl⟩, ha.append hb⟩

/-- Nothing is found in a part. -/
theorem FindsIn.skip (hp : FindsIn rules P Q p []) (hps : FindsIn rules Q R (concat ps) gs) :
    FindsIn rules P R (concat (p :: ps)) gs :=
  hp.cons hps

/-- A loop, with what each round finds. -/
theorem FindsIn.each {ι : Type*} {f : ι → Option (List UInt8)}
    {g : ι → List (Found κ (List UInt8))} {xs : List ι}
    (h : ∀ x ∈ xs, FindsIn rules P P (f x) (g x)) :
    FindsIn rules P P (concat (xs.map f)) (xs.flatMap g) := by
  induction xs with
  | nil => exact .nil P
  | cons x xs ih =>
    exact .cons (h x List.mem_cons_self) (ih fun y hy => h y (List.mem_cons_of_mem x hy))

end Parts

end Template
