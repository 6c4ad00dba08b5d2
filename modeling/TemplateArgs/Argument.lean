/-
Arguments as they are written, and the sequence of them at the front of a text.

An argument is an operand, or a name unit, an `=` and an operand with any blanks
around the `=`. A bare path can be either, and the named reading is tried
first: `a = b` is one argument and not two. Where the named reading fails after
its `=`, the text is read again as an operand, so that `a = )` is the argument
`a` and then something that is no argument.

`Argument.sequence` goes on for as long as there is an argument to recognise.
Blanks behind an argument are skipped and none are needed, since an operand ends
where it must. What is left over at the end is part of the answer: the text was
arguments throughout exactly if nothing is left.
-/
import TemplateArgs.Operand

set_option autoImplicit false

namespace TemplateArgs

/-- One argument as written: brackets, quotes and escapes are still there. -/
inductive Argument where
  | positional (value : List Char)
  | named (name value : List Char)
deriving DecidableEq, Repr

namespace Argument

/-! ## One argument -/

/-- The named argument at the front of a text, and what follows it. -/
def named? (s : List Char) : Option (Argument × List Char) :=
  (NameUnit.split? s).bind fun (n, s) =>
    match skipBlanks s with
    | '=' :: s => (Operand.split? (skipBlanks s)).map fun (v, s) => (named n v, s)
    | _ => none

/-- The positional argument at the front of a text, and what follows it. -/
def positional? (s : List Char) : Option (Argument × List Char) :=
  (Operand.split? s).map fun (v, s) => (positional v, s)

/-- The argument at the front of a text, and what follows it. -/
def split? (s : List Char) : Option (Argument × List Char) :=
  named? s <|> positional? s

/-- The parts of a named argument, read off a split. -/
theorem named?_eq_some_iff {s r : List Char} {a : Argument} :
    named? s = some (a, r) ↔ ∃ n v t u, NameUnit.split? s = some (n, t) ∧
      skipBlanks t = '=' :: u ∧ Operand.split? (skipBlanks u) = some (v, r) ∧
      a = named n v := by
  simp only [named?, Option.bind_eq_some_iff, Prod.exists]
  constructor
  · rintro ⟨n, t, hn, h⟩
    split at h
    · next u hu =>
      obtain ⟨⟨v, r'⟩, hv, he⟩ := Option.map_eq_some_iff.1 h
      cases he
      exact ⟨n, v, t, u, hn, hu, hv, rfl⟩
    · cases h
  · rintro ⟨n, v, t, u, hn, hu, hv, rfl⟩
    refine ⟨n, t, hn, ?_⟩
    simp only [hu, hv, Option.map_some]

theorem positional?_eq_some_iff {s r : List Char} {a : Argument} :
    positional? s = some (a, r) ↔ ∃ v, Operand.split? s = some (v, r) ∧ a = positional v := by
  simp only [positional?, Option.map_eq_some_iff, Prod.exists, Prod.mk.injEq]
  constructor
  · rintro ⟨v, _, hv, rfl, rfl⟩
    exact ⟨v, hv, rfl⟩
  · rintro ⟨v, hv, rfl⟩
    exact ⟨v, r, hv, rfl, rfl⟩

/-! ## Progress -/

theorem length_lt_of_named? {s r : List Char} {a : Argument} (h : named? s = some (a, r)) :
    r.length + 3 ≤ s.length := by
  obtain ⟨n, v, t, u, hn, hu, hv, -⟩ := named?_eq_some_iff.1 h
  have h₁ := NameUnit.length_lt_of_split? hn
  have h₂ := length_skipBlanks_le t
  have h₃ := length_skipBlanks_le u
  have h₄ := Operand.length_lt_of_split? hv
  simp only [hu, List.length_cons] at h₂
  omega

theorem length_lt_of_positional? {s r : List Char} {a : Argument}
    (h : positional? s = some (a, r)) : r.length < s.length := by
  obtain ⟨v, hv, -⟩ := positional?_eq_some_iff.1 h
  exact Operand.length_lt_of_split? hv

/-- What follows an argument is shorter than the text. -/
theorem length_lt_of_split? {s r : List Char} {a : Argument} (h : split? s = some (a, r)) :
    r.length < s.length := by
  simp only [split?, Option.orElse_eq_orElse, Option.orElse_eq_or, Option.or_eq_some_iff] at h
  rcases h with h | ⟨-, h⟩
  · have := length_lt_of_named? h
    omega
  · exact length_lt_of_positional? h

/-! ## The sequence of arguments -/

/-- The arguments at the front of a text, one after the other, and what is left
where the next one cannot be recognised. -/
def sequence (s : List Char) : List Argument × List Char :=
  match _h : split? s with
  | some (a, r) =>
    let (more, rest) := sequence (skipBlanks r)
    (a :: more, rest)
  | none => ([], s)
termination_by s.length
decreasing_by
  have := length_lt_of_split? ‹_›
  have := length_skipBlanks_le r
  omega

end Argument

end TemplateArgs
