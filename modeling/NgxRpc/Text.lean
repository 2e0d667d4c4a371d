import NgxRpc.Foundation.Loop
import NgxRpc.Foundation.Search

/-!
# Texts of the generator

`Replace` of `ngx_rpc_generator.cpp`, by which the generator turns the name of a package
into a path and into namespaces. A `std::string` is the list of its bytes.

## Main definitions

- `replace` — the function, for a number of rounds of its loop

## Main results

- `replace_eq_some` — with a search string that is not empty it ends
- `replace_splits` — it replaces the occurrences from left to right
-/

namespace NgxRpc
open Loop Search

/-- `subject.find(search, pos)`, with `none` for `npos`. -/
def find (subject search : List UInt8) (pos : ℕ) : Option ℕ :=
  if pos ≤ subject.length then (indexOf search (subject.drop pos)).map (pos + ·) else none

/-- One round of the loop in `Replace`, on `subject` and `pos`. -/
def replaceBody (search rep : List UInt8) (s : List UInt8 × ℕ) :
    (List UInt8 × ℕ) ⊕ List UInt8 :=
  match find s.1 search s.2 with
  | none => .inr s.1
  | some pos =>
    .inl (s.1.take pos ++ rep ++ s.1.drop (pos + search.length), pos + rep.length)

/-- `Replace`, given at most `fuel` rounds of its loop. -/
def replace (fuel : ℕ) (input search rep : List UInt8) : Option (List UInt8) :=
  loop (replaceBody search rep) fuel (input, 0)

variable {search rep : List UInt8}

theorem find_append (done rest : List UInt8) :
    find (done ++ rest) search done.length = (indexOf search rest).map (done.length + ·) := by
  rw [find, if_pos (by simp), List.drop_left]

/-- The loop has dealt with `done`; each round shortens what is left by an occurrence. -/
theorem loop_replaceBody (hs : search ≠ []) {fuel : ℕ} (done rest : List UInt8)
    (hfuel : rest.length < fuel) :
    loop (replaceBody search rep) fuel (done ++ rest, done.length) =
      some (done ++ replaced search rep rest) := by
  induction fuel generalizing done rest with
  | zero => omega
  | succ fuel ih =>
    cases hi : indexOf search rest with
    | none =>
      have hbody : replaceBody search rep (done ++ rest, done.length) = .inr (done ++ rest) := by
        simp [replaceBody, find_append, hi]
      rw [loop_stop hbody, replaced_of_indexOf_none hi]
    | some i =>
      obtain ⟨a, b, rfl, rfl, hrep⟩ := replaced_of_indexOf_some rep hs hi
      have hbody : replaceBody search rep (done ++ (a ++ (search ++ b)), done.length) =
          .inl ((done ++ a ++ rep) ++ b, (done ++ a ++ rep).length) := by
        have htake : (done ++ (a ++ (search ++ b))).take (done.length + a.length) = done ++ a := by
          rw [← List.append_assoc, ← List.length_append, List.take_left]
        simp [replaceBody, find_append, hi, htake, Nat.add_assoc]
      have hpos := List.length_pos_iff.mpr hs
      simp only [List.length_append] at hfuel
      rw [loop_next hbody, ih (done ++ a ++ rep) b (by omega), hrep]
      simp

/-- A search string that is not empty is replaced wherever it occurs. -/
theorem replace_eq_some (hs : search ≠ []) {fuel : ℕ} {input : List UInt8}
    (hfuel : input.length < fuel) :
    replace fuel input search rep = some (replaced search rep input) :=
  loop_replaceBody hs [] input hfuel

/-- The occurrences that are replaced are the first one, the first one behind it in the input,
and so on: the input is split at them in one way only, and the parts stay in order. -/
theorem replace_splits (hs : search ≠ []) (input rep : List UInt8) :
    ∃ pieces, Splits search input pieces ∧ (∀ pieces', Splits search input pieces' →
      pieces' = pieces) ∧ search.intercalate pieces = input ∧
        ∀ fuel, input.length < fuel →
          replace fuel input search rep = some (rep.intercalate pieces) := by
  obtain ⟨pieces, hsplits, hrep⟩ := exists_splits hs rep input
  refine ⟨pieces, hsplits, fun pieces' h => h.unique hsplits, hsplits.intercalate, ?_⟩
  intro fuel hfuel
  rw [replace_eq_some hs hfuel, hrep]

/-- What is put in makes a new occurrence with the byte behind it, and that one stays. -/
theorem replace_splits_again : ∃ pieces, Splits [97, 97] [97, 97, 97, 98] pieces ∧
    replace 5 [97, 97, 97, 98] [97, 97] [97] = some ([97].intercalate pieces) ∧
      replace 5 [97, 97, 97, 98] [97, 97] [97] = some [97, 97, 98] := by
  obtain ⟨pieces, hsplits, -, -, hrep⟩ :=
    replace_splits (List.cons_ne_nil 97 [97]) [97, 97, 97, 98] [97]
  exact ⟨pieces, hsplits, hrep 5 (by decide), by decide⟩

end NgxRpc
