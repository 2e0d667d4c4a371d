import Mathlib.Combinatorics.Enumerative.DyckWord

/-!
# Texts in C++

The first thing a compiler does with a text is to drop its comments and to find its literals.
The module has this scan, the nesting of the braces in what is left, and the outline of a
text: its braces, with the words in front of each opening one.

## Main definitions

- `scan` — the code in a text, without comments and the contents of literals
- `WellNested` — the braces of the code are balanced
- `tokens`, `outline` — the words and signs of the code, and the braces among them

## Main results

- `scan_append` — texts that leave the scan in code can be scanned one by one
- `scan_plain` — a text without special bytes changes no mode
- `exists_dyckWord` — counting the depth decides whether braces are balanced
- `outline_append`, `tokens_append` — outlines and tokens of texts put together
-/

namespace SourceText

/-! ## Comments and literals -/

/-- Where the scan is. In `slash`, `star` and the modes named `Esc` it has to see the next
byte; a backslash continues a line comment. -/
inductive Mode where
  | code | slash | line | lineEsc | block | star | str | strEsc | chr | chrEsc
deriving DecidableEq

def newline : UInt8 := 10
def space : UInt8 := 32
def quote : UInt8 := 34
def apostrophe : UInt8 := 39
def star : UInt8 := 42
def slash : UInt8 := 47
def backslash : UInt8 := 92
def openBrace : UInt8 := 123
def closeBrace : UInt8 := 125

/-- A byte in code: the mode after it, and what it leaves of the text. A literal leaves its
first quote. -/
def codeStep (c : UInt8) : Mode × List UInt8 :=
  if c = slash then (.slash, [])
  else if c = quote then (.str, [c])
  else if c = apostrophe then (.chr, [c])
  else (.code, [c])

/-- A byte of the text. -/
def step : Mode → UInt8 → Mode × List UInt8
  | .code, c => codeStep c
  | .slash, c =>
    if c = slash then (.line, [])
    else if c = star then (.block, [])
    else ((codeStep c).1, slash :: (codeStep c).2)
  | .line, c =>
    if c = newline then (.code, [c]) else if c = backslash then (.lineEsc, []) else (.line, [])
  | .lineEsc, c => if c = backslash then (.lineEsc, []) else (.line, [])
  | .block, c => if c = star then (.star, []) else (.block, [])
  | .star, c =>
    if c = slash then (.code, [space]) else if c = star then (.star, []) else (.block, [])
  | .str, c =>
    if c = quote then (.code, []) else if c = backslash then (.strEsc, []) else (.str, [])
  | .strEsc, _ => (.str, [])
  | .chr, c =>
    if c = apostrophe then (.code, []) else if c = backslash then (.chrEsc, []) else (.chr, [])
  | .chrEsc, _ => (.chr, [])

/-- The mode after a text, and the code in it. -/
def scan : Mode → List UInt8 → Mode × List UInt8
  | m, [] => (m, [])
  | m, c :: text =>
    let r := scan (step m c).1 text
    (r.1, (step m c).2 ++ r.2)

@[simp] theorem scan_nil (m : Mode) : scan m [] = (m, []) := rfl

theorem scan_append (m : Mode) (a b : List UInt8) :
    scan m (a ++ b) =
      ((scan (scan m a).1 b).1, (scan m a).2 ++ (scan (scan m a).1 b).2) := by
  induction a generalizing m with
  | nil => rfl
  | cons c a ih => simp [scan, ih, List.append_assoc]

/-- None of the bytes that change a mode, and no brace. -/
def Plain (c : UInt8) : Prop :=
  c ∉ [newline, quote, apostrophe, star, slash, backslash, openBrace, closeBrace]

instance : DecidablePred Plain := fun c => inferInstanceAs (Decidable (c ∉ _))

/-- The modes in which a plain byte changes nothing. -/
def Mode.steady : Mode → Bool
  | .code | .line | .block | .str | .chr => true
  | _ => false

theorem step_plain {m : Mode} (hm : m.steady = true) {c : UInt8} (hc : Plain c) :
    step m c = (m, if m = .code then [c] else []) := by
  simp only [Plain, List.mem_cons, List.not_mem_nil, or_false, not_or] at hc
  obtain ⟨hnewline, hquote, hapostrophe, hstar, hslash, hbackslash, -, -⟩ := hc
  cases m with
  | code => simp [step, codeStep, hslash, hquote, hapostrophe]
  | line => simp [step, hnewline, hbackslash]
  | block => simp [step, hstar]
  | str => simp [step, hquote, hbackslash]
  | chr => simp [step, hapostrophe, hbackslash]
  | slash => cases hm
  | lineEsc => cases hm
  | star => cases hm
  | strEsc => cases hm
  | chrEsc => cases hm

/-- A plain text is code where there is code, and nothing elsewhere. -/
theorem scan_plain {m : Mode} (hm : m.steady = true) {text : List UInt8}
    (h : ∀ c ∈ text, Plain c) : scan m text = (m, if m = .code then text else []) := by
  induction text with
  | nil => simp
  | cons c text ih =>
    have hc := step_plain hm (h c List.mem_cons_self)
    have htext := ih fun c hc => h c (List.mem_cons_of_mem _ hc)
    rw [scan, hc]
    simp only [htext]
    split
    · rfl
    · rfl

/-- A text without a quote and a backslash stays in a literal. -/
theorem scan_str {text : List UInt8} (h : ∀ c ∈ text, c ≠ quote ∧ c ≠ backslash) :
    scan .str text = (.str, []) := by
  induction text with
  | nil => rfl
  | cons c text ih =>
    obtain ⟨hquote, hbackslash⟩ := h c List.mem_cons_self
    have hc : step .str c = (.str, []) := by simp [step, hquote, hbackslash]
    rw [scan, hc]
    simp only [ih fun c hc => h c (List.mem_cons_of_mem _ hc), List.nil_append]

/-! ## Braces -/

open DyckStep

/-- The brace that a byte is. -/
def brace (c : UInt8) : Option DyckStep :=
  if c = openBrace then some U else if c = closeBrace then some D else none

def braces (code : List UInt8) : List DyckStep := code.filterMap brace

@[simp] theorem braces_append (a b : List UInt8) : braces (a ++ b) = braces a ++ braces b :=
  List.filterMap_append

theorem braces_plain {code : List UInt8} (h : ∀ c ∈ code, Plain c) : braces code = [] := by
  rw [braces, List.filterMap_eq_nil_iff]
  intro c hc
  have hplain := h c hc
  simp only [Plain, List.mem_cons, List.not_mem_nil, or_false, not_or] at hplain
  simp [brace, hplain]

/-- The text ends in code, and there each closing brace has an opening one before it, and
each opening one a closing one after it. -/
def WellNested (text : List UInt8) : Prop :=
  (scan .code text).1 = .code ∧ ∃ w : DyckWord, w.toList = braces (scan .code text).2

/-- The number of open braces after the given ones, from `n` at the start. -/
def depth : ℕ → List DyckStep → Option ℕ
  | n, [] => some n
  | n, U :: l => depth (n + 1) l
  | 0, D :: _ => none
  | n + 1, D :: l => depth n l

@[simp] theorem depth_nil (n : ℕ) : depth n [] = some n := by simp [depth]

@[simp] theorem depth_U (n : ℕ) (l : List DyckStep) : depth n (U :: l) = depth (n + 1) l := by
  simp [depth]

@[simp] theorem depth_succ_D (n : ℕ) (l : List DyckStep) : depth (n + 1) (D :: l) = depth n l := by
  simp [depth]

theorem depth_append (n : ℕ) (a b : List DyckStep) :
    depth n (a ++ b) = (depth n a).bind fun m => depth m b := by
  induction a generalizing n with
  | nil => simp
  | cons s a ih =>
    cases s with
    | U => simp [ih]
    | D =>
      cases n with
      | zero => simp [depth]
      | succ n => simp [ih]

theorem depth_append_of {n m : ℕ} {a b : List DyckStep} (h : depth n a = some m) :
    depth n (a ++ b) = depth m b := by
  rw [depth_append, h, Option.bind_some]

/-- Parts that keep the depth keep it together. -/
theorem depth_flatMap {ι : Type*} {n : ℕ} {f : ι → List DyckStep} {xs : List ι}
    (h : ∀ x ∈ xs, depth n (f x) = some n) : depth n (xs.flatMap f) = some n := by
  induction xs with
  | nil => exact depth_nil n
  | cons x xs ih =>
    rw [List.flatMap_cons, depth_append_of (h x List.mem_cons_self)]
    exact ih fun y hy => h y (List.mem_cons_of_mem x hy)

theorem depth_replicate_U (n k : ℕ) : depth n (List.replicate k U) = some (n + k) := by
  induction k generalizing n with
  | zero => exact depth_nil n
  | succ k ih => rw [List.replicate_succ, depth_U, ih, Nat.add_right_comm, Nat.add_assoc]

theorem depth_replicate_D (n k : ℕ) : depth (n + k) (List.replicate k D) = some n := by
  induction k with
  | zero => exact depth_nil n
  | succ k ih => rw [List.replicate_succ, ← Nat.add_assoc, depth_succ_D, ih]

/-- The depth counts opening and closing braces. -/
theorem count_of_depth {n m : ℕ} {l : List DyckStep} (h : depth n l = some m) :
    n + l.count U = m + l.count D := by
  induction l generalizing n with
  | nil =>
    cases h
    simp
  | cons s l ih =>
    cases s with
    | U =>
      rw [depth_U] at h
      have hl := ih h
      simp only [List.count_cons, beq_self_eq_true, if_true]
      simp only [beq_iff_eq, reduceCtorEq, if_false]
      omega
    | D =>
      cases n with
      | zero => simp [depth] at h
      | succ n =>
        rw [depth_succ_D] at h
        have hl := ih h
        simp only [List.count_cons, beq_self_eq_true, if_true]
        simp only [beq_iff_eq, reduceCtorEq, if_false]
        omega

/-- Braces that bring the depth back to zero, and never below it, are balanced. -/
theorem exists_dyckWord {l : List DyckStep} (h : depth 0 l = some 0) :
    ∃ w : DyckWord, w.toList = l := by
  refine ⟨⟨l, ?_, fun i => ?_⟩, rfl⟩
  · have hcount := count_of_depth h
    omega
  · -- the depth after the first `i` braces is a number
    rw [← List.take_append_drop i l, depth_append] at h
    obtain ⟨m, hm, -⟩ := Option.bind_eq_some_iff.mp h
    have hcount := count_of_depth hm
    omega

/-- Scanned from code, the text ends in code and takes the depth from `n` to `m`. -/
def Moves (n m : ℕ) (text : List UInt8) : Prop :=
  (scan .code text).1 = .code ∧ depth n (braces (scan .code text).2) = some m

theorem Moves.nil (n : ℕ) : Moves n n [] := ⟨rfl, by simp [braces]⟩

theorem Moves.append {n m k : ℕ} {a b : List UInt8} (ha : Moves n m a) (hb : Moves m k b) :
    Moves n k (a ++ b) := by
  refine ⟨?_, ?_⟩
  · rw [scan_append, ha.1]
    exact hb.1
  · rw [scan_append, ha.1, braces_append, depth_append_of ha.2]
    exact hb.2

theorem Moves.wellNested {text : List UInt8} (h : Moves 0 0 text) : WellNested text :=
  ⟨h.1, exists_dyckWord h.2⟩

/-! ## Tokens -/

/-- The symbols of a code, some of which belong to words or separate them. -/
structure Alphabet (α : Type*) where
  word : α → Bool
  space : α → Bool

section Tokens

variable {α β : Type*} {A : Alphabet α} {B : Alphabet β} {f : α → List β}

/-- The token that ends behind the symbols `w` of a word. -/
def flush (w : List α) : List (List α) := if w = [] then [] else [w]

/-- The tokens of a code behind the symbols `w` of a word: words, and each other symbol that
is not a space as a token of its own. -/
def tokensFrom (A : Alphabet α) : List α → List α → List (List α)
  | w, [] => flush w
  | w, a :: l =>
    if A.word a then tokensFrom A (w ++ [a]) l
    else if A.space a then flush w ++ tokensFrom A [] l
    else flush w ++ [a] :: tokensFrom A [] l

theorem tokensFrom_words (w : List α) {u : List α} (h : ∀ a ∈ u, A.word a = true) (l : List α) :
    tokensFrom A w (u ++ l) = tokensFrom A (w ++ u) l := by
  induction u generalizing w with
  | nil => simp
  | cons a u ih =>
    rw [List.cons_append, tokensFrom, if_pos (h a List.mem_cons_self)]
    rw [ih (w ++ [a]) fun b hb => h b (List.mem_cons_of_mem a hb), List.append_assoc]
    rfl

/-- A symbol that is in no word separates the tokens before it from those behind it. -/
theorem tokensFrom_append (w a : List α) {c : α} (hc : A.word c = false) (l : List α) :
    tokensFrom A w (a ++ [c] ++ l) = tokensFrom A w (a ++ [c]) ++ tokensFrom A [] l := by
  induction a generalizing w with
  | nil =>
    by_cases hspace : A.space c = true
    · simp [tokensFrom, hc, hspace, flush]
    · simp [tokensFrom, hc, hspace, flush]
  | cons b a ih =>
    simp only [List.cons_append, tokensFrom]
    split
    · exact ih _
    · split
      · rw [ih, List.append_assoc]
      · rw [ih, List.append_assoc]
        rfl

theorem mem_flush {w t : List α} (ht : t ∈ flush w) : t = w := by
  rw [flush] at ht
  split at ht
  · cases ht
  · exact List.mem_singleton.mp ht

/-- The symbols of a token are those of the code. A token is a word, or a sign. -/
theorem mem_tokensFrom {w l t : List α} (hw : ∀ a ∈ w, A.word a = true)
    (ht : t ∈ tokensFrom A w l) :
    (∀ a ∈ t, a ∈ w ∨ a ∈ l) ∧ ((∀ a ∈ t, A.word a = true) ∨ ∃ a, t = [a] ∧ A.word a = false) := by
  induction l generalizing w with
  | nil =>
    rw [mem_flush ht]
    exact ⟨fun a ha => Or.inl ha, Or.inl hw⟩
  | cons a l ih =>
    have hnil : ∀ b ∈ ([] : List α), A.word b = true := by simp
    simp only [tokensFrom] at ht
    split at ht
    · next ha =>
      have hw' : ∀ b ∈ w ++ [a], A.word b = true := by
        intro b hb
        obtain hb | hb := List.mem_append.mp hb
        · exact hw b hb
        · rw [List.mem_singleton.mp hb]
          exact ha
      obtain ⟨hmem, hkind⟩ := ih hw' ht
      refine ⟨fun b hb => ?_, hkind⟩
      obtain h | h := hmem b hb
      · obtain h | h := List.mem_append.mp h
        · exact Or.inl h
        · exact Or.inr (List.mem_singleton.mp h ▸ List.mem_cons_self)
      · exact Or.inr (List.mem_cons_of_mem a h)
    · next ha =>
      split at ht
      · obtain ht | ht := List.mem_append.mp ht
        · rw [mem_flush ht]
          exact ⟨fun b hb => Or.inl hb, Or.inl hw⟩
        · obtain ⟨hmem, hkind⟩ := ih hnil ht
          refine ⟨fun b hb => Or.inr (List.mem_cons_of_mem a ?_), hkind⟩
          exact (hmem b hb).resolve_left List.not_mem_nil
      · obtain ht | ht := List.mem_append.mp ht
        · rw [mem_flush ht]
          exact ⟨fun b hb => Or.inl hb, Or.inl hw⟩
        · obtain rfl | ht := List.mem_cons.mp ht
          · refine ⟨fun b hb => Or.inr (List.mem_singleton.mp hb ▸ List.mem_cons_self), Or.inr ?_⟩
            exact ⟨a, rfl, by simpa using ha⟩
          · obtain ⟨hmem, hkind⟩ := ih hnil ht
            refine ⟨fun b hb => Or.inr (List.mem_cons_of_mem a ?_), hkind⟩
            exact (hmem b hb).resolve_left List.not_mem_nil

/-- What `f` puts in the place of a symbol is a part of a word for a symbol of a word, and a
symbol of the same kind for every other one. -/
def Renders (A : Alphabet α) (B : Alphabet β) (f : α → List β) (a : α) : Prop :=
  if A.word a then f a ≠ [] ∧ ∀ b ∈ f a, B.word b = true
  else ∃ b, f a = [b] ∧ B.word b = false ∧ B.space b = A.space a

theorem flush_flatMap {w : List α} (hw : ∀ a ∈ w, f a ≠ []) :
    flush (w.flatMap f) = (flush w).map (List.flatMap f) := by
  cases w with
  | nil => rfl
  | cons a w =>
    have hne : (a :: w).flatMap f ≠ [] := by
      rw [List.flatMap_cons]
      exact List.append_ne_nil_of_left_ne_nil (hw a List.mem_cons_self) _
    rw [flush, if_neg hne, flush, if_neg (List.cons_ne_nil a w)]
    rfl

/-- The tokens of a rendered code are the rendered tokens. -/
theorem tokensFrom_flatMap {w l : List α} (hw : ∀ a ∈ w, f a ≠ []) (h : ∀ a ∈ l, Renders A B f a) :
    tokensFrom B (w.flatMap f) (l.flatMap f) = (tokensFrom A w l).map (List.flatMap f) := by
  induction l generalizing w with
  | nil => exact flush_flatMap hw
  | cons a l ih =>
    have hl : ∀ b ∈ l, Renders A B f b := fun b hb => h b (List.mem_cons_of_mem a hb)
    have hnil := ih (w := []) (by simp) hl
    have ha := h a List.mem_cons_self
    rw [Renders] at ha
    rw [List.flatMap_cons]
    split at ha
    · next hword =>
      obtain ⟨hne, hbytes⟩ := ha
      have hw' : ∀ b ∈ w ++ [a], f b ≠ [] := by
        intro b hb
        obtain hb | hb := List.mem_append.mp hb
        · exact hw b hb
        · rw [List.mem_singleton.mp hb]
          exact hne
      rw [tokensFrom_words _ hbytes, tokensFrom, if_pos hword, ← ih hw' hl]
      simp
    · next hword =>
      obtain ⟨b, hb, hbword, hbspace⟩ := ha
      rw [hb, List.singleton_append]
      simp only [tokensFrom, hbword, hbspace, if_neg hword, Bool.false_eq_true, if_false]
      rw [List.flatMap_nil] at hnil
      split
      · rw [List.map_append, flush_flatMap hw, hnil]
      · rw [List.map_append, List.map_cons, flush_flatMap hw, hnil, ← hb]
        simp

end Tokens

/-! ## Outlines -/

/-- A brace in a list of tokens; an opening one with the two tokens in front of it, the
nearest one first. -/
inductive Brace (τ : Type*) where
  | opens (before : List τ)
  | closes
deriving DecidableEq

section Outline

variable {τ υ : Type*} {kind : τ → Option DyckStep} {prev : List τ}

/-- The braces among tokens that stand behind `prev`. -/
def outlineFrom (kind : τ → Option DyckStep) : List τ → List τ → List (Brace τ)
  | _, [] => []
  | prev, t :: ts =>
    match kind t with
    | some U => .opens prev :: outlineFrom kind (t :: prev.take 1) ts
    | some D => .closes :: outlineFrom kind (t :: prev.take 1) ts
    | none => outlineFrom kind (t :: prev.take 1) ts

/-- The two last tokens, the last one first. -/
def lastTwo : List τ → List τ → List τ
  | prev, [] => prev
  | prev, t :: ts => lastTwo (t :: prev.take 1) ts

theorem outlineFrom_append (prev a b : List τ) :
    outlineFrom kind prev (a ++ b) =
      outlineFrom kind prev a ++ outlineFrom kind (lastTwo prev a) b := by
  induction a generalizing prev with
  | nil => rfl
  | cons t a ih =>
    simp only [List.cons_append, outlineFrom, lastTwo, ih]
    split
    · rfl
    · rfl
    · rfl

def Brace.map (g : τ → υ) : Brace τ → Brace υ
  | .opens before => .opens (before.map g)
  | .closes => .closes

/-- The outline of rendered tokens is the rendered outline. -/
theorem outlineFrom_map {kind' : υ → Option DyckStep} {g : τ → υ} {ts : List τ}
    (h : ∀ t ∈ ts, kind' (g t) = kind t) (prev : List τ) :
    outlineFrom kind' (prev.map g) (ts.map g) = (outlineFrom kind prev ts).map (Brace.map g) := by
  induction ts generalizing prev with
  | nil => rfl
  | cons t ts ih =>
    have hts := ih (fun u hu => h u (List.mem_cons_of_mem t hu)) (t :: prev.take 1)
    rw [List.map_cons, List.map_take] at hts
    simp only [List.map_cons, outlineFrom, h t List.mem_cons_self, hts]
    split
    · rfl
    · rfl
    · rfl

/-- The outline, when it is the same whatever stands in front of the tokens. -/
def Outlines (kind : τ → Option DyckStep) (ts : List τ) (bs : List (Brace τ)) : Prop :=
  ∀ prev, outlineFrom kind prev ts = bs

theorem Outlines.append {a b : List τ} {bs bs' : List (Brace τ)} (ha : Outlines kind a bs)
    (hb : Outlines kind b bs') : Outlines kind (a ++ b) (bs ++ bs') := by
  intro prev
  rw [outlineFrom_append, ha, hb]

/-- Two tokens that are no opening braces hide what stands in front of them. -/
theorem outlines_of_nil {t u : τ} {ts : List τ} (ht : kind t ≠ some U) (hu : kind u ≠ some U) :
    Outlines kind (t :: u :: ts) (outlineFrom kind [] (t :: u :: ts)) := by
  intro prev
  simp only [outlineFrom]
  split
  · next h => exact absurd h ht
  · split
    · next h => exact absurd h hu
    · rfl
    · rfl
  · split
    · next h => exact absurd h hu
    · rfl
    · rfl

end Outline

/-! ## Bytes -/

/-- A letter, a digit or an underscore. -/
def isWord (c : UInt8) : Bool :=
  (97 ≤ c && c ≤ 122) || (65 ≤ c && c ≤ 90) || (48 ≤ c && c ≤ 57) || c == 95

def isSpace (c : UInt8) : Bool := c == space || (9 ≤ c && c ≤ 13)

/-- The symbols of a text. -/
def bytes : Alphabet UInt8 := ⟨isWord, isSpace⟩

/-- The tokens of a code. -/
def tokens (code : List UInt8) : List (List UInt8) := tokensFrom bytes [] code

/-- The brace that a token is. -/
def tokenBrace : List UInt8 → Option DyckStep
  | [c] => brace c
  | _ => none

/-- No brace is in a class of bytes that leaves out the two braces. -/
theorem brace_eq_none {p : UInt8 → Bool} (hopen : p openBrace = false)
    (hclose : p closeBrace = false) {c : UInt8} (h : p c = true) : brace c = none := by
  have hc : c ≠ openBrace ∧ c ≠ closeBrace := by
    constructor
    · rintro rfl
      rw [hopen] at h
      cases h
    · rintro rfl
      rw [hclose] at h
      cases h
  rw [brace, if_neg hc.1, if_neg hc.2]

theorem brace_word {c : UInt8} (h : isWord c = true) : brace c = none :=
  brace_eq_none (by decide) (by decide) h

theorem brace_space {c : UInt8} (h : isSpace c = true) : brace c = none :=
  brace_eq_none (by decide) (by decide) h

theorem tokenBrace_word {t : List UInt8} (h : ∀ c ∈ t, isWord c = true) : tokenBrace t = none := by
  unfold tokenBrace
  split
  · exact brace_word (h _ List.mem_cons_self)
  · rfl

def Brace.step {τ : Type*} : Brace τ → DyckStep
  | .opens _ => U
  | .closes => D

theorem outlineFrom_word {prev : List (List UInt8)} {w : List UInt8}
    (h : ∀ c ∈ w, isWord c = true) : outlineFrom tokenBrace prev (flush w) = [] := by
  rw [flush]
  split
  · rfl
  · simp [outlineFrom, tokenBrace_word h]

/-- An outline has all the braces. -/
theorem map_step_outlineFrom {w : List UInt8} (hw : ∀ c ∈ w, isWord c = true)
    (prev : List (List UInt8)) (code : List UInt8) :
    (outlineFrom tokenBrace prev (tokensFrom bytes w code)).map Brace.step = braces code := by
  induction code generalizing w prev with
  | nil =>
    rw [tokensFrom, outlineFrom_word hw]
    rfl
  | cons c code ih =>
    have hnil : ∀ c ∈ ([] : List UInt8), isWord c = true := by simp
    simp only [tokensFrom]
    split
    · next hc =>
      have hw' : ∀ b ∈ w ++ [c], isWord b = true := by
        intro b hb
        obtain hb | hb := List.mem_append.mp hb
        · exact hw b hb
        · rw [List.mem_singleton.mp hb]
          exact hc
      rw [braces, List.filterMap_cons, brace_word hc]
      exact ih hw' prev
    · split
      · next hc =>
        rw [outlineFrom_append, outlineFrom_word hw, List.nil_append, braces, List.filterMap_cons,
          brace_space hc]
        exact ih hnil _
      · rw [outlineFrom_append, outlineFrom_word hw, List.nil_append, braces, List.filterMap_cons]
        simp only [outlineFrom, tokenBrace]
        split
        · next hc =>
          rw [hc, List.map_cons]
          exact congrArg (U :: ·) (ih hnil _)
        · next hc =>
          rw [hc, List.map_cons]
          exact congrArg (D :: ·) (ih hnil _)
        · next hc =>
          rw [hc]
          exact ih hnil _

/-- Without braces there is no outline. -/
theorem outlines_of_braces {code : List UInt8} (h : braces code = []) :
    Outlines tokenBrace (tokens code) [] := by
  intro prev
  have hsteps := map_step_outlineFrom (w := []) (by simp) prev code
  rw [h] at hsteps
  exact List.map_eq_nil_iff.mp hsteps

/-- The outline of a text. -/
def outline (text : List UInt8) : List (Brace (List UInt8)) :=
  outlineFrom tokenBrace [] (tokens (scan .code text).2)

/-- The text ends in code, and its tokens are `ts` whatever follows it. -/
def Yields (text : List UInt8) (ts : List (List UInt8)) : Prop :=
  (scan .code text).1 = .code ∧
    ∀ code, tokens ((scan .code text).2 ++ code) = ts ++ tokens code

theorem Yields.nil : Yields [] [] := ⟨rfl, fun _ => rfl⟩

theorem Yields.append {a b : List UInt8} {ts us : List (List UInt8)} (ha : Yields a ts)
    (hb : Yields b us) : Yields (a ++ b) (ts ++ us) := by
  refine ⟨?_, fun code => ?_⟩
  · rw [scan_append, ha.1]
    exact hb.1
  · rw [scan_append, ha.1, List.append_assoc, ha.2, hb.2, List.append_assoc]

theorem Yields.outline {text : List UInt8} {ts : List (List UInt8)} (h : Yields text ts) :
    outline text = outlineFrom tokenBrace [] ts := by
  have htokens := h.2 []
  rw [List.append_nil, show tokens [] = [] from rfl, List.append_nil] at htokens
  rw [SourceText.outline, htokens]

/-- A text in front of a byte that is in no word has tokens of its own. -/
theorem yields_of_scan {text code : List UInt8} {c : UInt8}
    (h : scan .code text = (.code, code ++ [c])) (hc : isWord c = false) :
    Yields text (tokens (code ++ [c])) := by
  refine ⟨by rw [h], fun rest => ?_⟩
  rw [h]
  exact tokensFrom_append [] code hc rest

/-- The nesting of a text can be read off its outline. -/
theorem wellNested_of_outline {text : List UInt8} (hcode : (scan .code text).1 = .code)
    (h : depth 0 ((outline text).map Brace.step) = some 0) : WellNested text := by
  rw [outline, tokens, map_step_outlineFrom (by simp)] at h
  exact ⟨hcode, exists_dyckWord h⟩

end SourceText
