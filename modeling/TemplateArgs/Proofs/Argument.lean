/-
What `Argument.split?` and `Argument.sequence` find, and what text behind does
to it.

An argument in front is found if its operand is complete and if no `=` turns a
positional argument into a name (`split?_of_spelled`). The named reading, though
tried first, is never a danger otherwise: an operand without an `=` behind it is
not the beginning of a named argument (`named?_eq_none`).

`Argument.sequence` is then described by its first argument and the sequence of
the rest (`sequence_eq_cons_iff`), which is what inductions go by.
-/
import TemplateArgs.Proofs.Operand

set_option autoImplicit false

namespace TemplateArgs.Argument

variable {s t u v n r y : List Char} {a : Argument} {as : List Argument}

/-- The operand of an argument, as written. -/
def value : Argument → List Char
  | positional v => v
  | named _ v => v

/-! ## One argument -/

theorem split?_eq_some_iff : split? s = some (a, r) ↔
    named? s = some (a, r) ∨ named? s = none ∧ positional? s = some (a, r) := by
  simp only [split?, Option.orElse_eq_orElse, Option.orElse_eq_or, Option.or_eq_some_iff]

/-- A unit that is followed by blanks and an `=` is all that an operand can
take. -/
theorem operand_split?_of_unit (hn : NameUnit.split? s = some (n, t))
    (ht : skipBlanks t = '=' :: u) : Operand.split? s = some (n, t) := by
  obtain ⟨hs, hunit, hend⟩ := NameUnit.split?_iff.1 hn
  -- Neither a dot nor a slash is in front of `t`, since neither would be skipped.
  have hsep : ∀ c v, t = c :: v → c ≠ '.' ∧ c ≠ '/' := by
    rintro c v rfl
    constructor <;> rintro rfl <;>
      · rw [skipBlanks_of_noneInFront (noneInFront_cons.2 (by decide))] at ht
        exact absurd (List.cons.inj ht).1 (by decide)
  have hpath := Path.isPath_of_isNameUnit hunit
  refine Operand.split?_iff.2 ⟨hs, .inl hpath, fun _ => ?_,
    fun h => absurd h (Operand.not_isSpecial_of_isPath hpath)⟩
  refine (Path.endsBefore_of_isNameUnit hunit).2 ⟨hend, ?_, ?_⟩
  · intro c hc
    obtain ⟨v, hv⟩ := List.head?_eq_some_iff.1 hc
    simpa using (hsep c v hv).1
  · intro v hv
    exact absurd rfl (hsep '/' v hv).2

/-- An operand with no `=` behind it is not the beginning of a named argument. -/
theorem named?_eq_none (h : Operand.split? s = some (v, r))
    (heq : NoneInFront (· == '=') (skipBlanks r)) : named? s = none := by
  cases hnamed : named? s with
  | none => rfl
  | some ar =>
    -- The name would be the whole operand, with an `=` behind it after all.
    obtain ⟨a, r'⟩ := ar
    obtain ⟨n, v', t, u, hn, hu, -, -⟩ := named?_eq_some_iff.1 hnamed
    have hs := operand_split?_of_unit hn hu
    obtain ⟨-, rfl⟩ := Prod.mk.inj (Option.some.inj (h.symm.trans hs))
    rw [hu] at heq
    exact absurd (noneInFront_cons.1 heq) (by decide)

/-- What is found as a named argument is one. -/
theorem exists_spelled_of_named? (h : named? s = some (a, r)) :
    ∃ t, s = t ++ r ∧ Spelled a t ∧ Operand.EndsBefore a.value r := by
  obtain ⟨n, v, t, u, hn, hu, hv, rfl⟩ := named?_eq_some_iff.1 h
  obtain ⟨rfl, hunit, -⟩ := NameUnit.split?_iff.1 hn
  obtain ⟨hs, hoperand, hend⟩ := Operand.split?_iff.1 hv
  obtain ⟨w₁, hw₁, ht⟩ := exists_blanks_append_skipBlanks t
  obtain ⟨w₂, hw₂, hu'⟩ := exists_blanks_append_skipBlanks u
  refine ⟨n ++ (w₁ ++ '=' :: (w₂ ++ v)), ?_, .named hunit hoperand hw₁ hw₂, hend⟩
  rw [← ht, hu, ← hu', hs]
  simp

theorem exists_spelled_of_split? (h : split? s = some (a, r)) :
    ∃ t, s = t ++ r ∧ Spelled a t ∧ Operand.EndsBefore a.value r := by
  rcases split?_eq_some_iff.1 h with h | ⟨-, h⟩
  · exact exists_spelled_of_named? h
  · obtain ⟨v, hv, rfl⟩ := positional?_eq_some_iff.1 h
    obtain ⟨hs, hoperand, hend⟩ := Operand.split?_iff.1 hv
    exact ⟨v, hs, .positional hoperand, hend⟩

/-- A unit ends before an `=`, with blanks in between or without. -/
theorem unit_split?_append_equals {w : List Char} (hn : IsNameUnit n) (hw : IsBlankText w)
    (x : List Char) : NameUnit.split? (n ++ (w ++ '=' :: x)) = some (n, w ++ '=' :: x) := by
  refine NameUnit.split?_append_of_endsBefore hn fun _ => ?_
  cases w with
  | nil => exact noneInFront_cons.2 (by decide)
  | cons c w => exact noneInFront_cons.2 (by simp [isNameChar, hw c (by simp)])

theorem skipBlanks_append_equals {w : List Char} (hw : IsBlankText w) (x : List Char) :
    skipBlanks (w ++ '=' :: x) = '=' :: x :=
  skipBlanks_append_of_noneInFront hw (noneInFront_cons.2 (by decide))

/-- Behind a name, an `=` and any blanks around it, what is found is up to the
operand. -/
theorem named?_append {w₁ w₂ x : List Char} (hn : IsNameUnit n) (hw₁ : IsBlankText w₁)
    (hw₂ : IsBlankText w₂) (hx : NoneInFront isBlank x) :
    named? (n ++ (w₁ ++ '=' :: (w₂ ++ x))) =
      (Operand.split? x).map fun (v, r) => (named n v, r) := by
  rw [named?, unit_split?_append_equals hn hw₁]
  simp only [Option.bind_some, skipBlanks_append_equals hw₁,
    skipBlanks_append_of_noneInFront hw₂ hx]

/-- An argument in front is found if its operand is complete and no `=` makes a
name of it. -/
theorem split?_of_spelled (ht : Spelled a t) (hend : Operand.EndsBefore a.value r)
    (heq : NoneInFront (· == '=') (skipBlanks r)) : split? (t ++ r) = some (a, r) := by
  rw [split?_eq_some_iff]
  cases ht with
  | positional hv =>
    have h := Operand.split?_append_of_endsBefore hv hend
    exact .inr ⟨named?_eq_none h heq, positional?_eq_some_iff.2 ⟨_, h, rfl⟩⟩
  | @named n v w₁ w₂ hn hv hw₁ hw₂ =>
    have h := named?_append hn hw₁ hw₂ (Operand.noneInFront_isBlank_of_isOperand hv r)
    rw [Operand.split?_append_of_endsBefore hv hend] at h
    left
    simpa using h

/-- Text put behind an argument leaves it as it is, if the operand is still
complete and no `=` comes next. -/
theorem split?_append (h : split? s = some (a, r)) (hend : Operand.EndsBefore a.value (r ++ y))
    (heq : NoneInFront (· == '=') (skipBlanks (r ++ y))) :
    split? (s ++ y) = some (a, r ++ y) := by
  obtain ⟨t, rfl, ht, -⟩ := exists_spelled_of_split? h
  rw [List.append_assoc]
  exact split?_of_spelled ht hend heq

/-- A named argument in front of any text means that one of that name is found,
with an operand at least as long. -/
theorem exists_named?_append (ht : Spelled (named n v) t) (s : List Char) :
    ∃ v' r, named? (t ++ s) = some (named n v', r) ∧ v ++ s = v' ++ r ∧ r.length ≤ s.length := by
  cases ht with
  | @named n v w₁ w₂ hn hv hw₁ hw₂ =>
    obtain ⟨v', r, h, hr⟩ := Operand.exists_split?_append hv s
    refine ⟨v', r, ?_, (Operand.append_of_split? h).symm, hr⟩
    have hnamed := named?_append hn hw₁ hw₂ (Operand.noneInFront_isBlank_of_isOperand hv s)
    rw [h] at hnamed
    simpa using hnamed

/-- Whichever way an argument is read, it begins with an operand. -/
theorem exists_operand_of_split? (h : split? s = some (a, r)) :
    ∃ v t, Operand.split? s = some (v, t) := by
  rcases split?_eq_some_iff.1 h with h | ⟨-, h⟩
  · obtain ⟨n, v, t, u, hn, hu, -, -⟩ := named?_eq_some_iff.1 h
    exact ⟨n, t, operand_split?_of_unit hn hu⟩
  · obtain ⟨v, hv, -⟩ := positional?_eq_some_iff.1 h
    exact ⟨v, r, hv⟩

/-- Where no argument is found there is no operand, so no name either. -/
theorem not_prefix_of_split?_eq_none (h : split? s = none) (hv : IsOperand v) : ¬v <+: s := by
  rw [split?, Option.orElse_eq_orElse, Option.orElse_eq_or, Option.or_eq_none_iff, positional?,
    Option.map_eq_none_iff] at h
  exact Operand.isCut.eq_none_iff.1 h.2 v hv

@[simp] theorem split?_nil : split? ([] : List Char) = none := rfl

/-! ## The sequence -/

theorem sequence_of_split? (h : split? s = some (a, r)) :
    sequence s = (a :: (sequence (skipBlanks r)).1, (sequence (skipBlanks r)).2) := by
  rw [sequence]
  split
  · next h' =>
    obtain ⟨rfl, rfl⟩ := Prod.mk.inj (Option.some.inj (h.symm.trans h'))
    rfl
  · next h' => exact absurd (h.symm.trans h') (by simp)

theorem sequence_of_none (h : split? s = none) : sequence s = ([], s) := by
  rw [sequence]
  split
  · next h' => exact absurd (h.symm.trans h') (by simp)
  · rfl

/-- Nothing is recognised in a text only if nothing is in front of it. -/
theorem sequence_eq_nil_iff : sequence s = ([], r) ↔ split? s = none ∧ s = r := by
  constructor
  · intro h
    cases hs : split? s with
    | none => exact ⟨rfl, (Prod.mk.inj ((sequence_of_none hs).symm.trans h)).2⟩
    | some ar =>
      rw [sequence_of_split? hs] at h
      exact absurd (Prod.mk.inj h).1 (List.cons_ne_nil _ _)
  · rintro ⟨hs, rfl⟩
    exact sequence_of_none hs

/-- The first argument of a sequence is the one in front, and the others are the
sequence of what follows it. -/
theorem sequence_eq_cons_iff : sequence s = (a :: as, t) ↔
    ∃ r, split? s = some (a, r) ∧ sequence (skipBlanks r) = (as, t) := by
  constructor
  · intro h
    cases hs : split? s with
    | none =>
      rw [sequence_of_none hs] at h
      exact absurd (Prod.mk.inj h).1.symm (List.cons_ne_nil _ _)
    | some ar =>
      rw [sequence_of_split? hs] at h
      obtain ⟨hcons, ht⟩ := Prod.mk.inj h
      obtain ⟨ha, has⟩ := List.cons.inj hcons
      exact ⟨ar.2, by rw [← ha], Prod.ext has ht⟩
  · rintro ⟨r, hs, h⟩
    rw [sequence_of_split? hs, h]

/-- A text that is arguments throughout is empty or has an operand in front. -/
theorem eq_nil_or_operand_of_sequence (h : sequence s = (as, [])) :
    s = [] ∨ ∃ v t, Operand.split? s = some (v, t) := by
  cases as with
  | nil => exact .inl (sequence_eq_nil_iff.1 h).2
  | cons a as =>
    obtain ⟨r, hs, -⟩ := sequence_eq_cons_iff.1 h
    exact .inr (exists_operand_of_split? hs)

end TemplateArgs.Argument
