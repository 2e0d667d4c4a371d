import NgxRpc.Foundation.Template

/-!
# Programs that print

A program sets variables and prints texts that depend on them. The variables keep their values
until they are set again. A triple says what a program prints from all variables that extend
the given ones, so what was set before and is not needed may be forgotten. A text is a list, of
bytes or of pieces that are kept apart.

## Main definitions

- `Printer` — the programs, over the variables and the text printed so far
- `Prints` — the triples

## Main results

- `Prints.forM` — a loop prints what its passes print, if each leaves the variables it started
  from
-/

namespace Template

/-- The variables of a printer, and what it has printed. -/
structure Output (V α : Type) where
  vars : V → Option (List UInt8)
  text : List α

abbrev Printer (V α : Type) := StateT (Output V α) Option

variable {V α : Type}

/-- Changes the variables. -/
def assign (f : (V → Option (List UInt8)) → V → Option (List UInt8)) : Printer V α Unit :=
  fun o => some ((), { o with vars := f o.vars })

/-- Prints a text that depends on the variables. -/
def write (f : (V → Option (List UInt8)) → Option (List α)) : Printer V α Unit :=
  fun o => (f o.vars).map fun s => ((), { o with text := o.text ++ s })

/-- What a program prints when no variable is set. -/
def Printer.output (p : Printer V α Unit) : Option (List α) :=
  (p.run ⟨fun _ => none, []⟩).map fun r => r.2.text

/-- From variables that extend `vars`, the program prints `t`, if `t` is a text, and leaves
variables that extend `vars'`. -/
def Prints (vars : V → Option (List UInt8)) (p : Printer V α Unit) (t : Option (List α))
    (vars' : V → Option (List UInt8)) : Prop :=
  ∀ text, t = some text → ∀ o, Extends vars o.vars →
    ∃ o', p.run o = some ((), o') ∧ o'.text = o.text ++ text ∧ Extends vars' o'.vars

section Rules

variable {vars vars' vars'' : V → Option (List UInt8)} {p q : Printer V α Unit}
  {t : Option (List α)} {ts : List (Option (List α))}

theorem Prints.output (vars : V → Option (List UInt8)) (h : Prints (fun _ => none) p t vars)
    {text : List α} (ht : t = some text) : p.output = some text := by
  obtain ⟨o, hrun, htext, -⟩ := h text ht ⟨fun _ => none, []⟩ (Extends.refl _)
  rw [Printer.output, hrun, Option.map_some, htext, List.nil_append]

theorem Prints.mono (h : Prints vars p t vars') (hext : Extends vars'' vars') :
    Prints vars p t vars'' := by
  intro text ht o ho
  obtain ⟨o', hrun, htext, ho'⟩ := h text ht o ho
  exact ⟨o', hrun, htext, hext.trans ho'⟩

theorem Prints.skip : Prints vars (pure () : Printer V α Unit) (concat []) vars := by
  rintro text ⟨⟩ o ho
  exact ⟨o, rfl, (List.append_nil _).symm, ho⟩

theorem Prints.seq (hp : Prints vars p t vars') (hq : Prints vars' q (concat ts) vars'') :
    Prints vars (p >>= fun _ => q) (concat (t :: ts)) vars'' := by
  intro text htext o ho
  obtain ⟨a, b, ha, hb, rfl⟩ := concat_cons_eq_some.mp htext
  obtain ⟨o₁, hrun₁, htext₁, ho₁⟩ := hp a ha o ho
  obtain ⟨o₂, hrun₂, htext₂, ho₂⟩ := hq b hb o₁ ho₁
  refine ⟨o₂, ?_, ?_, ho₂⟩
  · rw [StateT.run_bind, hrun₁]
    exact hrun₂
  · rw [htext₂, htext₁, List.append_assoc]

/-- The last part of a program. -/
theorem Prints.last (h : Prints vars p t vars') : Prints vars p (concat [t]) vars' := by
  intro text htext
  obtain ⟨a, b, ha, hb, rfl⟩ := concat_cons_eq_some.mp htext
  cases hb
  rw [List.append_nil]
  exact h a ha

theorem Prints.assign {f : (V → Option (List UInt8)) → V → Option (List UInt8)}
    (hf : ∀ vars₁, Extends vars vars₁ → Extends (f vars) (f vars₁))
    (hp : Prints (f vars) p t vars') : Prints vars (Template.assign f >>= fun _ => p) t vars' := by
  intro text ht o ho
  exact hp text ht { o with vars := f o.vars } (hf o.vars ho)

theorem Prints.write {f : (V → Option (List UInt8)) → Option (List α)}
    (hf : ∀ vars₁, Extends vars vars₁ → ∀ text, f vars = some text → f vars₁ = some text) :
    Prints vars (Template.write f) (f vars) vars := by
  intro text htext o ho
  refine ⟨{ o with text := o.text ++ text }, ?_, rfl, ho⟩
  exact congrArg _ (hf o.vars ho text htext)

/-- A loop whose passes print with variables of their own. -/
theorem Prints.forM {ι : Type} {body : ι → Printer V α Unit} {f : ι → Option (List α)}
    {xs : List ι} (h : ∀ x ∈ xs, Prints vars (body x) (f x) vars) :
    Prints vars (xs.forM body) (concat (xs.map f)) vars := by
  induction xs with
  | nil => exact .skip
  | cons x xs ih =>
    have hx := h x List.mem_cons_self
    have hxs := ih fun y hy => h y (List.mem_cons_of_mem x hy)
    exact hx.seq hxs

end Rules

end Template
