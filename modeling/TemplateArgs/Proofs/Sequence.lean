/-
Sequences of arguments in texts that are put together.

A text that is arguments throughout stays so, argument by argument, whatever is
put behind it, as long as this is held off by a blank or by a closing quote and
does not begin with an `=` (`sequence_append`). Failed attempts look far ahead,
for a closing bracket or a closing quote, so it has to be shown that none of
them was the reason for a cut. The invariant of the induction is that what
follows an argument is nothing, or has a blank in front, or has an operand
there, and each of the three leaves the argument complete.

Arguments that are written with blanks between them are read back as they are
(`sequence_of_spaced`), however they came to be next to each other.
-/
import TemplateArgs.Proofs.Argument

set_option autoImplicit false

namespace TemplateArgs.Argument

variable {s t u v n r y w : List Char} {a : Argument} {as : List Argument}

/-! ## What an operand has in front -/

theorem noneInFront_isBlank (h : Operand.split? s = some (v, t)) : NoneInFront isBlank s := by
  obtain ⟨rfl, hv, -⟩ := Operand.split?_iff.1 h
  exact Operand.noneInFront_isBlank_of_isOperand hv t

theorem noneInFront_equals (h : Operand.split? s = some (v, t)) (y : List Char) :
    NoneInFront (· == '=') (s ++ y) := by
  obtain ⟨rfl, hv, -⟩ := Operand.split?_iff.1 h
  obtain ⟨c, v, rfl, hc⟩ := Operand.exists_cons_of_isOperand hv
  exact noneInFront_beq hc (by decide)

/-! ## Text behind a sequence -/

/-- An operand with a sequence of arguments behind it is complete before more
text, too, unless there is nothing to hold that text off. -/
theorem endsBefore_append_of_sequence (hend : Operand.EndsBefore v r)
    (hr : sequence (skipBlanks r) = (as, [])) (hy : r = [] → Operand.EndsBefore v y) :
    Operand.EndsBefore v (r ++ y) := by
  cases r with
  | nil => exact hy rfl
  | cons c r =>
    apply hend.append (List.cons_ne_nil c r)
    cases hc : isBlank c with
    | true => exact Operand.settled_of_blank (noneInFront_cons.2 (by rw [hc]; rfl))
    | false =>
      rw [skipBlanks_of_noneInFront (noneInFront_cons.2 hc)] at hr
      rcases eq_nil_or_operand_of_sequence hr with h | ⟨v', t, h⟩
      · exact absurd h (List.cons_ne_nil c r)
      · exact Operand.settled_of_split? h

/-- Only what is put behind all arguments can bring an `=` into play. -/
theorem noneInFront_equals_append (hr : sequence (skipBlanks r) = (as, []))
    (hy : NoneInFront (· == '=') (skipBlanks y)) :
    NoneInFront (· == '=') (skipBlanks (r ++ y)) := by
  rcases eq_nil_or_operand_of_sequence hr with h | ⟨v, t, h⟩
  · rwa [skipBlanks_append (skipBlanks_eq_nil_iff.1 h)]
  · have hne : skipBlanks r ≠ [] := by
      intro hnil
      rw [hnil] at h
      exact absurd (Operand.length_lt_of_split? h) (Nat.not_lt_zero _)
    rw [skipBlanks_append_of_ne_nil hne]
    exact noneInFront_equals h y

/-- What is put behind a text that is arguments throughout is recognised as if
it stood alone, and the arguments before it are what they were. -/
theorem sequence_append (hs : sequence (skipBlanks s) = (as, []))
    (hjoin : ∀ a, as.getLast? = some a → Operand.EndsBefore a.value y)
    (heq : NoneInFront (· == '=') (skipBlanks y)) :
    sequence (skipBlanks (s ++ y)) =
      (as ++ (sequence (skipBlanks y)).1, (sequence (skipBlanks y)).2) := by
  -- By the arguments of `s`: each is complete before the others, and these before `y`.
  induction as generalizing s with
  | nil =>
    have hblank := skipBlanks_eq_nil_iff.1 (sequence_eq_nil_iff.1 hs).2
    rw [skipBlanks_append hblank, List.nil_append]
  | cons a as ih =>
    obtain ⟨r, hsplit, hr⟩ := sequence_eq_cons_iff.1 hs
    have hend : Operand.EndsBefore a.value (r ++ y) := by
      obtain ⟨t, -, -, hend⟩ := exists_spelled_of_split? hsplit
      apply endsBefore_append_of_sequence hend hr
      rintro rfl
      -- With nothing left, `a` is the last argument, and it is `y` that it meets.
      cases as with
      | nil => exact hjoin a rfl
      | cons b bs =>
        obtain ⟨r', h, -⟩ := sequence_eq_cons_iff.1 hr
        exact absurd h (by rw [skipBlanks_nil, split?_nil]; simp)
    have hjoin' : ∀ b, as.getLast? = some b → Operand.EndsBefore b.value y := by
      intro b hb
      apply hjoin b
      rw [List.getLast?_cons, hb]
      rfl
    have hne : skipBlanks s ≠ [] := by
      intro hnil
      rw [hnil, split?_nil] at hsplit
      exact absurd hsplit (by simp)
    rw [skipBlanks_append_of_ne_nil hne,
      sequence_of_split? (split?_append hsplit hend (noneInFront_equals_append hr heq)),
      ih hr hjoin']
    rfl

/-! ## Arguments with blanks between them -/

theorem noneInFront_isBlank_of_spelled (ht : Spelled a t) (r : List Char) :
    NoneInFront isBlank (t ++ r) := by
  cases ht with
  | positional hv => exact Operand.noneInFront_isBlank_of_isOperand hv r
  | named hn hv hw₁ hw₂ =>
    rw [List.append_assoc]
    exact Operand.noneInFront_isBlank_of_isOperand (.inl (Path.isPath_of_isNameUnit hn)) _

theorem noneInFront_isBlank_of_spaced (hs : Spaced as s) : NoneInFront isBlank s := by
  cases hs with
  | nil => exact noneInFront_nil
  | last ht => simpa using noneInFront_isBlank_of_spelled ht []
  | cons ht _ _ _ => exact noneInFront_isBlank_of_spelled ht _

/-- Such a text does not end with a blank, either: an operand is last. -/
theorem noneInFront_reverse_of_spelled (ht : Spelled a t) (r : List Char) :
    NoneInFront isBlank (r ++ t).reverse := by
  cases ht with
  | positional hv => exact Operand.noneInFront_reverse_of_isOperand hv r
  | @named n v w₁ w₂ _ hv _ _ =>
    have h := Operand.noneInFront_reverse_of_isOperand hv (r ++ (n ++ (w₁ ++ '=' :: w₂)))
    simpa using h

theorem noneInFront_reverse_of_spaced (hs : Spaced as s) (hne : as ≠ []) (r : List Char) :
    NoneInFront isBlank (r ++ s).reverse := by
  induction hs generalizing r with
  | nil => exact absurd rfl hne
  | last ht => exact noneInFront_reverse_of_spelled ht r
  | @cons a b as t w s _ _ _ _ ih =>
    have h := ih (List.cons_ne_nil b as) (r ++ (t ++ w))
    simpa using h

/-- There is nothing to trim where no blanks were put at the ends. -/
theorem trimBlanks_of_spaced (hs : Spaced as s) : trimBlanks s = s := by
  rw [← trims_iff]
  refine ⟨[], [], isBlankText_nil, isBlankText_nil, by simp, noneInFront_isBlank_of_spaced hs, ?_⟩
  by_cases has : as = []
  · subst has
    cases hs
    exact noneInFront_nil
  · exact noneInFront_reverse_of_spaced hs has []

@[simp] theorem sequence_nil : sequence [] = ([], []) := sequence_of_none split?_nil

/-- Arguments are read back if blanks keep them apart. -/
theorem sequence_of_spaced (hs : Spaced as s) : sequence s = (as, []) := by
  induction hs with
  | nil => exact sequence_nil
  | last ht =>
    have h := split?_of_spelled ht (Operand.endsBefore_of_blank noneInFront_nil) noneInFront_nil
    rw [List.append_nil] at h
    rw [sequence_of_split? h, skipBlanks_nil, sequence_nil]
  | @cons a b as t w s ht hw hne hs ih =>
    have hskip := skipBlanks_append_of_noneInFront hw (noneInFront_isBlank_of_spaced hs)
    -- What comes next is an argument, and none begins with an `=`.
    have heq : NoneInFront (· == '=') (skipBlanks (w ++ s)) := by
      rw [hskip]
      rcases eq_nil_or_operand_of_sequence ih with rfl | ⟨v, r, h⟩
      · exact noneInFront_nil
      · simpa using noneInFront_equals h []
    have hblank : NoneInFront (!isBlank ·) (w ++ s) := by
      obtain ⟨c, w, rfl⟩ := List.exists_cons_of_ne_nil hne
      exact noneInFront_cons.2 (by rw [hw c (by simp)]; rfl)
    rw [sequence_of_split? (split?_of_spelled ht (Operand.endsBefore_of_blank hblank) heq),
      hskip, ih]

end TemplateArgs.Argument
