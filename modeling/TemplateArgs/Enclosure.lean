/-
Text that stands between two marks, such as the brackets of a name unit or the
quotes of a literal.

Both marks have to be there as characters of their own. That is what keeps a
lone quote from being an empty literal: it would have to open and close at once.
-/
set_option autoImplicit false

namespace TemplateArgs

/-- The text between `opening` and `closing`, if the whole of `t` stands
between these two. A text of one character is not enough for both. -/
def between? (opening closing : Char) : List Char → Option (List Char)
  | c :: s => if c = opening ∧ s.getLast? = some closing then some s.dropLast else none
  | [] => none

/-- Stripping undoes enclosing, and succeeds on nothing else. -/
theorem between?_eq_some_iff {opening closing : Char} {t m : List Char} :
    between? opening closing t = some m ↔ t = opening :: (m ++ [closing]) := by
  cases t with
  | nil => simp [between?]
  | cons c s =>
    simp only [between?, Option.ite_none_right_eq_some, Option.some.injEq, List.cons.injEq]
    constructor
    · rintro ⟨⟨rfl, h⟩, rfl⟩
      obtain ⟨m, rfl⟩ := List.getLast?_eq_some_iff.1 h
      simp
    · rintro ⟨rfl, rfl⟩
      simp

end TemplateArgs
