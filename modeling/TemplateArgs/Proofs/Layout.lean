/-
Where arguments stand in a text, and how little of it matters.

The words of an argument, its name and its operand, are one thing and the blanks
around and between them another. `Argument.IsGrammatical` speaks of the words
alone, `Argument.Written` and `Row` of the blanks alone, and together they make
up what the language calls spelled and spaced.

A text that was gone through is a row of the arguments that were found, from its
first character to where the scan stopped (`Argument.exists_row_of_sequence`).
Read the other way round, any row of words that keeps them apart is a text with
these arguments. In the first text they may have been kept apart by luck, as in
`foo.../bar`, where the path `foo.` ends because no unit follows its dot; one
blank between them does as well.
-/
import TemplateArgs.Proofs.Run

set_option autoImplicit false

namespace TemplateArgs

variable {s t : List Char} {a : Argument} {as bs : List Argument}

/-! ## Words and blanks -/

/-- Whether the words of an argument are words of the grammar. -/
def Argument.IsGrammatical : Argument → Prop
  | positional v => IsOperand v
  | named n v => IsNameUnit n ∧ IsOperand v

/-- The text of an argument, whatever its words: the name and the operand of a
named one have an `=` between them, and blanks around that as one likes. -/
inductive Argument.Written : Argument → List Char → Prop
  | positional {v : List Char} : Written (.positional v) v
  | named {n v w₁ w₂ : List Char} : IsBlankText w₁ → IsBlankText w₂ →
      Written (.named n v) (n ++ (w₁ ++ '=' :: (w₂ ++ v)))

/-- The language asks for the words and for the blanks, and for no more. -/
theorem Argument.spelled_iff : a.Spelled t ↔ a.IsGrammatical ∧ a.Written t := by
  constructor
  · intro h
    cases h with
    | positional hv => exact ⟨hv, .positional⟩
    | named hn hv hw₁ hw₂ => exact ⟨⟨hn, hv⟩, .named hw₁ hw₂⟩
  · rintro ⟨ha, ht⟩
    cases ht with
    | positional => exact .positional ha
    | named hw₁ hw₂ => exact .named ha.1 ha.2 hw₁ hw₂

/-! ## Rows -/

/-- At least one blank, and nothing else. -/
def IsGap (w : List Char) : Prop := IsBlankText w ∧ w ≠ []

/-- Arguments one behind the other, with a gap of some kind between any two. -/
inductive Row (Gap : List Char → Prop) : List Argument → List Char → Prop
  | nil : Row Gap [] []
  | last {a : Argument} {t : List Char} : a.Written t → Row Gap [a] t
  | cons {a b : Argument} {as : List Argument} {t w s : List Char} :
      a.Written t → Gap w → Row Gap (b :: as) s → Row Gap (a :: b :: as) (t ++ (w ++ s))

/-- Words of the grammar that are kept apart are what the language calls spaced. -/
theorem Row.spaced (hs : Row IsGap as s) (has : ∀ a ∈ as, a.IsGrammatical) : Spaced as s := by
  induction hs with
  | nil => exact .nil
  | last ht => exact .last (Argument.spelled_iff.2 ⟨has _ List.mem_cons_self, ht⟩)
  | cons ht hw _ ih =>
    obtain ⟨ha, has⟩ := List.forall_mem_cons.1 has
    exact .cons (Argument.spelled_iff.2 ⟨ha, ht⟩) hw.1 hw.2 (ih has)

theorem Spaced.laidOut (hs : Spaced as s) : LaidOut as s :=
  ⟨[], s, [], isBlankText_nil, hs, isBlankText_nil, by simp⟩

/-! ## The arguments of a text -/

namespace Argument

/-- What is recognised is made of words of the grammar. -/
theorem isGrammatical_of_sequence {rest : List Char} (h : sequence s = (as, rest)) :
    ∀ a ∈ as, a.IsGrammatical := by
  induction as generalizing s with
  | nil => exact List.forall_mem_nil _
  | cons a as ih =>
    obtain ⟨r, hsplit, hr⟩ := sequence_eq_cons_iff.1 h
    obtain ⟨t, -, ht, -⟩ := exists_spelled_of_split? hsplit
    exact List.forall_mem_cons.2 ⟨(spelled_iff.1 ht).1, ih hr⟩

/-- The first arguments of a text are a row at its front, and the others are the
arguments of what follows the row. -/
theorem exists_row_of_sequence {rest : List Char} (hs : NoneInFront isBlank s)
    (h : sequence s = (as ++ bs, rest)) :
    ∃ t u, s = t ++ u ∧ Row IsBlankText as t ∧ sequence (skipBlanks u) = (bs, rest) := by
  induction as generalizing s with
  | nil => exact ⟨[], s, rfl, .nil, by rwa [skipBlanks_of_noneInFront hs]⟩
  | cons a as ih =>
    obtain ⟨r, hsplit, hr⟩ := sequence_eq_cons_iff.1 h
    obtain ⟨t, rfl, ht, -⟩ := exists_spelled_of_split? hsplit
    have hwritten := (spelled_iff.1 ht).2
    cases as with
    -- Nothing more belongs to the row, so the blanks behind `a` do not, either.
    | nil => exact ⟨t, r, rfl, .last hwritten, hr⟩
    | cons b as =>
      obtain ⟨t', u, hu, hrow, hrest⟩ := ih noneInFront_skipBlanks hr
      obtain ⟨w, hw, hskip⟩ := exists_blanks_append_skipBlanks r
      refine ⟨t ++ (w ++ t'), u, ?_, .cons hwritten hw hrow, hrest⟩
      rw [← hskip, hu]
      simp

/-- Arguments are read back from any layout. -/
theorem sequence_of_laidOut (hs : LaidOut as s) : sequence (trimBlanks s) = (as, []) := by
  obtain ⟨w₁, t, w₂, hw₁, ht, hw₂, rfl⟩ := hs
  rw [trimBlanks_blanks_append hw₁, trimBlanks_append_blanks hw₂, trimBlanks_of_spaced ht,
    sequence_of_spaced ht]

end Argument

namespace ArgumentList

open Bindings (AllAccepted)

variable {policy : DuplicatePolicy} {x y : String} {l : ArgumentList}

theorem run_of_laidOut (hy : LaidOut as y.toList) (hall : AllAccepted policy ∅ as) :
    run policy y = accepted y as :=
  run_eq_accepted (Argument.sequence_of_laidOut hy) hall

/-- **Layout does not matter.** Let a text be accepted, and let another have the
words of its arguments in the same order, with blanks between any two arguments,
and with blanks or none at both ends and around each `=`. Then the same arguments
are recognised in it, and it is accepted as the same list but for the text. -/
theorem parse_of_row (hx : parse policy x = .ok l)
    (hy : ∃ w₁ t w₂, IsBlankText w₁ ∧ Row IsGap (run policy x).recognised t ∧
      IsBlankText w₂ ∧ y.toList = w₁ ++ (t ++ w₂)) :
    parse policy y = .ok { l with input := y } ∧ (run policy y).log = (run policy x).log := by
  obtain ⟨as, hs, hall, rfl⟩ := parse_eq_ok_iff_allAccepted.1 hx
  have hrun : run policy x = accepted x as := run_eq_accepted hs hall
  obtain ⟨w₁, t, w₂, hw₁, hrow, hw₂, hsplit⟩ := hy
  rw [hrun, recognised_accepted] at hrow
  have hspaced := hrow.spaced (Argument.isGrammatical_of_sequence hs)
  have hrun' := run_of_laidOut ⟨w₁, t, w₂, hw₁, hspaced, hw₂, hsplit⟩ hall
  rw [parse, hrun', hrun]
  exact ⟨rfl, rfl⟩

/-- Words that only end because of what follows them, and the same words with
blanks between them and around the `=`. -/
theorem parse_of_row_without_blanks :
    ∃ l, parse .reject "foo.../bar@indexX'q'n=1" = .ok l ∧
      parse .reject "\tfoo. ../bar\n@index X 'q' n = 1 " =
        .ok { l with input := "\tfoo. ../bar\n@index X 'q' n = 1 " } := by
  have hx : parse .reject "foo.../bar@indexX'q'n=1" =
      .ok ⟨⟨#[.path "foo.", .path "../bar", .path "@index", .path "X", .literal "q"],
        ⟨[("n", .literal "1")], by decide⟩⟩, "foo.../bar@indexX'q'n=1"⟩ := by decide +kernel
  have hwords : (run .reject "foo.../bar@indexX'q'n=1").recognised =
      [.positional ['f', 'o', 'o', '.'], .positional ['.', '.', '/', 'b', 'a', 'r'],
        .positional ['@', 'i', 'n', 'd', 'e', 'x'], .positional ['X'],
        .positional ['\'', 'q', '\''], .named ['n'] ['1']] := by decide +kernel
  have hspace : IsBlankText [' '] := List.forall_mem_singleton.2 rfl
  have hgap : IsGap [' '] := ⟨hspace, List.cons_ne_nil _ _⟩
  have hline : IsGap ['\n'] := ⟨List.forall_mem_singleton.2 rfl, List.cons_ne_nil _ _⟩
  refine ⟨_, hx, (parse_of_row hx ?_).1⟩
  rw [hwords]
  refine ⟨['\t'], _, [' '], List.forall_mem_singleton.2 rfl,
    .cons .positional hgap <| .cons .positional hline <| .cons .positional hgap <|
      .cons .positional hgap <| .cons .positional hgap <| .last (.named hspace hspace),
    hspace, rfl⟩

end ArgumentList

end TemplateArgs
