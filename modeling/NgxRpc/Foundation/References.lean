import NgxRpc.Foundation.Template

/-!
# References in printed lines

A line refers to a file when the name of the file stands between a fixed opening and a fixed
closing. What the printed lines of a template refer to is found by reading the template, and can
be computed: a line in which the values of variables might decide the matter has no reading.

## Main definitions

- `Mark`, `references` — the names in a line
- `Mark.symBetween`, `templateReferences` — the names in a template, computed

## Main results

- `between_render` — a name in a printed line is one in the template, rendered
- `cites_template` — so are the names in all printed lines
-/

namespace Template

variable {V : Type} {vars : V → Option (List UInt8)}

/-- How a line that refers to a file begins and ends, and how the names that matter end. -/
structure Mark where
  opening : List UInt8
  closing : List UInt8
  suffixes : List (List UInt8)

namespace Mark

variable (m : Mark)

/-- What is left between the opening and the closing. -/
def middle {α : Type} (l : List α) : List α :=
  (l.drop m.opening.length).take (l.length - m.opening.length - m.closing.length)

/-- The name in a line. -/
def between (line : List UInt8) : Option (List UInt8) :=
  if line = m.opening ++ m.middle line ++ m.closing ∧ ∃ s ∈ m.suffixes, s <:+ m.middle line then
    some (m.middle line)
  else none

theorem between_eq_some_iff {line name : List UInt8} : m.between line = some name ↔
    line = m.opening ++ name ++ m.closing ∧ ∃ s ∈ m.suffixes, s <:+ name := by
  constructor
  · intro h
    rw [between] at h
    split at h
    · next hline =>
      obtain rfl := Option.some.inj h
      exact hline
    · cases h
  · rintro ⟨rfl, hsuffix⟩
    have hname : m.middle (m.opening ++ name ++ m.closing) = name := by simp [middle]
    rw [between, hname, if_pos ⟨rfl, hsuffix⟩]

end Mark

/-- The names in a line. -/
def references (marks : List Mark) (line : List UInt8) : List (List UInt8) :=
  marks.flatMap fun m => (m.between line).toList

/-! ## Reading a template -/

/-- A text that is printed from `l` does not begin with `pre`. -/
def cannotBegin : List UInt8 → List (Sym V) → Bool
  | [], _ => false
  | _ :: _, [] => true
  | p :: pre, .byte c :: l => p ≠ c || cannotBegin pre l
  | _ :: _, .var _ :: _ => false

/-- It does not end with `post`. -/
def cannotEnd (post : List UInt8) (l : List (Sym V)) : Bool :=
  cannotBegin post.reverse l.reverse

/-- The name in a line of a template; `none` when the template does not decide it. -/
def Mark.symBetween [DecidableEq V] (m : Mark) (l : List (Sym V)) :
    Option (Option (List (Sym V))) :=
  match render (fun _ => none) l with
  | some line => some ((m.between line).map (List.map .byte))
  | none =>
    if cannotBegin m.opening l || cannotEnd m.closing l then some none
    else if l = m.opening.map .byte ++ m.middle l ++ m.closing.map .byte ∧
        ∃ s ∈ m.suffixes, s.map .byte <:+ m.middle l then some (some (m.middle l))
    else none

/-- A symbol with a value when the variables `vs` have one. -/
def Sym.among [DecidableEq V] (vs : List V) : Sym V → Bool
  | .byte _ => true
  | .var v => v ∈ vs

/-- The names in a line of a template in which only the variables `vs` occur. -/
def symReferences [DecidableEq V] (marks : List Mark) (vs : List V) (l : List (Sym V)) :
    Option (List (List (Sym V))) :=
  if l.all (Sym.among vs) then concat (marks.map fun m => (m.symBetween l).map Option.toList)
  else none

/-- The names in the lines of a template. -/
def templateReferences [DecidableEq V] (delimiter : UInt8) (ofName : List UInt8 → Option V)
    (marks : List Mark) (vs : List V) (lines : List (List UInt8)) :
    Option (List (List (Sym V))) :=
  concat (lines.map fun line => (parse delimiter ofName line).bind (symReferences marks vs))

theorem not_prefix_of_cannotBegin {pre : List UInt8} {l : List (Sym V)} {text : List UInt8}
    (h : cannotBegin pre l = true) (hl : render vars l = some text) : ¬pre <+: text := by
  induction l generalizing pre text with
  | nil =>
    cases pre with
    | nil => cases h
    | cons p pre =>
      cases hl
      simp
  | cons a l ih =>
    cases pre with
    | nil => cases h
    | cons p pre =>
      cases a with
      | var v => cases h
      | byte c =>
        obtain ⟨rest, hrest, rfl⟩ := Option.map_eq_some_iff.mp hl
        rw [List.cons_prefix_cons]
        rintro ⟨rfl, hpre⟩
        simp only [cannotBegin, ne_eq, not_true_eq_false, decide_false, Bool.false_or] at h
        exact ih h hrest hpre

theorem render_reverse {l : List (Sym V)} {text : List UInt8} (hl : render vars l = some text) :
    render (fun v => (vars v).map List.reverse) l.reverse = some text.reverse := by
  induction l generalizing text with
  | nil =>
    cases hl
    rfl
  | cons a l ih =>
    rw [List.reverse_cons, render_append]
    cases a with
    | byte c =>
      obtain ⟨rest, hrest, rfl⟩ := Option.map_eq_some_iff.mp hl
      rw [ih hrest, Option.bind_some, List.reverse_cons]
      rfl
    | var v =>
      obtain ⟨s, hs, hl⟩ := Option.bind_eq_some_iff.mp hl
      obtain ⟨rest, hrest, rfl⟩ := Option.map_eq_some_iff.mp hl
      rw [ih hrest, Option.bind_some, List.reverse_append]
      simp [render, hs]

theorem not_suffix_of_cannotEnd {post : List UInt8} {l : List (Sym V)} {text : List UInt8}
    (h : cannotEnd post l = true) (hl : render vars l = some text) : ¬post <:+ text := by
  rw [← List.reverse_prefix]
  exact not_prefix_of_cannotBegin h (render_reverse hl)

section Read

variable [DecidableEq V] {m : Mark} {marks : List Mark} {vs : List V} {l : List (Sym V)}
  {line : List UInt8}

/-- A name in a printed line is one in the template, rendered. -/
theorem between_render {name : Option (List (Sym V))} (h : m.symBetween l = some name)
    (hl : render vars l = some line) :
    m.between line = name.map (List.flatMap (Sym.value vars)) := by
  rw [Mark.symBetween] at h
  split at h
  · next closed hclosed =>
    -- a line without variables
    have hsame : render vars l = some closed := render_mono (fun _ _ hv => by cases hv) hclosed
    obtain rfl := Option.some.inj (hl.symm.trans hsame)
    obtain rfl := Option.some.inj h
    cases m.between line with
    | none => rfl
    | some s => simp
  · split at h
    · next hnot =>
      obtain rfl := Option.some.inj h
      rw [Option.map_none, Option.eq_none_iff_forall_ne_some]
      intro s hs
      obtain ⟨rfl, -⟩ := m.between_eq_some_iff.mp hs
      obtain hbegin | hend := Bool.or_eq_true_iff.mp hnot
      · refine not_prefix_of_cannotBegin hbegin hl ?_
        rw [List.append_assoc]
        exact List.prefix_append _ _
      · exact not_suffix_of_cannotEnd hend hl (List.suffix_append _ _)
    · split at h
      · next hmark =>
        obtain rfl := Option.some.inj h
        obtain ⟨hline, s, hs, front, hfront⟩ := hmark
        rw [Option.map_some, m.between_eq_some_iff]
        refine ⟨?_, s, hs, front.flatMap (Sym.value vars), ?_⟩
        · rw [eq_flatMap_of_render hl]
          conv_lhs => rw [hline]
          simp only [List.flatMap_append, flatMap_value_byte]
        · rw [← hfront, List.flatMap_append, flatMap_value_byte]
      · cases h

theorem references_render {names : List (List (Sym V))} (h : symReferences marks vs l = some names)
    (hl : render vars l = some line) :
    references marks line = names.map (List.flatMap (Sym.value vars)) := by
  rw [symReferences] at h
  split at h
  · induction marks generalizing names with
    | nil =>
      cases h
      rfl
    | cons m marks ih =>
      obtain ⟨a, b, ha, hb, rfl⟩ := concat_cons_eq_some.mp h
      obtain ⟨name, hname, rfl⟩ := Option.map_eq_some_iff.mp ha
      rw [references, List.flatMap_cons, between_render hname hl, List.map_append, ← ih hb]
      cases name <;> rfl
  · cases h

end Read

/-! ## Printed pieces -/

/-- The variables `vs` have values. -/
def Filled (vars : V → Option (List UInt8)) (vs : List V) : Prop := ∀ v ∈ vs, (vars v).isSome

/-- The lines are printed, and refer to these files. -/
def Cites (marks : List Mark) (lines : Option (List (List UInt8))) (names : List (List UInt8)) :
    Prop :=
  ∃ ls, lines = some ls ∧ ls.flatMap (references marks) = names

section Cites

variable {marks : List Mark} {vs : List V}

theorem Cites.nil : Cites marks (concat []) [] := ⟨[], rfl, rfl⟩

theorem Cites.cons {p : Option (List (List UInt8))} {ps : List (Option (List (List UInt8)))}
    {names names' : List (List UInt8)} (hp : Cites marks p names)
    (hps : Cites marks (concat ps) names') : Cites marks (concat (p :: ps)) (names ++ names') := by
  obtain ⟨a, rfl, ha⟩ := hp
  obtain ⟨b, hb, hnames⟩ := hps
  refine ⟨a ++ b, concat_cons_eq_some.mpr ⟨a, b, rfl, hb, rfl⟩, ?_⟩
  rw [List.flatMap_append, ha, hnames]

/-- A part that refers to nothing. -/
theorem Cites.skip {p : Option (List (List UInt8))} {ps : List (Option (List (List UInt8)))}
    {names : List (List UInt8)} (hp : Cites marks p [])
    (hps : Cites marks (concat ps) names) : Cites marks (concat (p :: ps)) names :=
  hp.cons hps

/-- Parts that refer to nothing. -/
theorem Cites.each {ι : Type*} {f : ι → Option (List (List UInt8))} {xs : List ι}
    (h : ∀ x ∈ xs, Cites marks (f x) []) : Cites marks (concat (xs.map f)) [] := by
  induction xs with
  | nil => exact .nil
  | cons x xs ih =>
    exact (h x List.mem_cons_self).skip (ih fun y hy => h y (List.mem_cons_of_mem x hy))

theorem exists_render [DecidableEq V] (h : Filled vars vs) {l : List (Sym V)}
    (hl : l.all (Sym.among vs) = true) : ∃ text, render vars l = some text := by
  induction l with
  | nil => exact ⟨[], rfl⟩
  | cons a l ih =>
    rw [List.all_cons, Bool.and_eq_true] at hl
    obtain ⟨text, htext⟩ := ih hl.2
    cases a with
    | byte c => exact ⟨c :: text, by rw [render, htext, Option.map_some]⟩
    | var v =>
      obtain ⟨s, hs⟩ := Option.isSome_iff_exists.mp (h v (of_decide_eq_true hl.1))
      exact ⟨s ++ text, by rw [render, hs, Option.bind_some, htext, Option.map_some]⟩

/-- The names in the printed lines of a template are those in the template, rendered. -/
theorem cites_template [DecidableEq V] (h : Filled vars vs) {delimiter : UInt8}
    {ofName : List UInt8 → Option V} {lines : List (List UInt8)} {names : List (List (Sym V))}
    (hnames : templateReferences delimiter ofName marks vs lines = some names) :
    Cites marks
      (concat (lines.map fun line => ((parse delimiter ofName line).bind (render vars)).map ([·])))
      (names.map (List.flatMap (Sym.value vars))) := by
  induction lines generalizing names with
  | nil =>
    cases hnames
    exact .nil
  | cons line lines ih =>
    obtain ⟨a, b, ha, hb, rfl⟩ := concat_cons_eq_some.mp hnames
    obtain ⟨l, hl, ha⟩ := Option.bind_eq_some_iff.mp ha
    have hall : l.all (Sym.among vs) = true := by
      by_contra hnot
      rw [symReferences, if_neg hnot] at ha
      cases ha
    obtain ⟨text, htext⟩ := exists_render h hall
    rw [List.map_append]
    refine Cites.cons ⟨[text], ?_, ?_⟩ (ih hb)
    · simp only [hl, Option.bind_some, htext, Option.map_some]
    · rw [List.flatMap_singleton, references_render ha htext]

end Cites

end Template
