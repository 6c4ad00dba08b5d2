/-
Operands: the three ways to write the value of an argument.

An operand is a path, a quoted literal or a special variable, which is an `@`
and a run of lowercase ASCII letters. Which of the three it can be shows in the
first character: a quote, an `@`, or anything else that opens a path. So the
order of the alternatives in `Operand.split?` decides nothing.
-/
import TemplateArgs.Path
import TemplateArgs.Quoted

set_option autoImplicit false

namespace TemplateArgs

namespace Special

/-- The special variable at the front of a text, and what follows it. Its name
ends at the first character that is no lowercase ASCII letter, as in `@index.x`,
where the `.x` is left. -/
def split? : List Char → Option (List Char × List Char)
  | '@' :: s =>
    match s.takeWhile Char.isLower with
    | [] => none
    | n => some ('@' :: n, s.dropWhile Char.isLower)
  | _ => none

/-- A special variable and what follows it are the text. -/
theorem append_of_split? {s t r : List Char} (h : split? s = some (t, r)) : t ++ r = s := by
  unfold split? at h
  split at h
  · split at h
    · cases h
    · cases h; simp only [List.cons_append, List.takeWhile_append_dropWhile]
  · cases h

theorem ne_nil_of_split? {s t r : List Char} (h : split? s = some (t, r)) : t ≠ [] := by
  unfold split? at h
  split at h
  · split at h
    · cases h
    · cases h; simp
  · cases h

end Special

namespace Operand

/-- The operand at the front of a text, and what follows it. -/
def split? (s : List Char) : Option (List Char × List Char) :=
  Path.split? s <|> Quoted.split? s <|> Special.split? s

theorem split?_eq_some {s t r : List Char} (h : split? s = some (t, r)) :
    Path.split? s = some (t, r) ∨ Quoted.split? s = some (t, r) ∨
      Special.split? s = some (t, r) := by
  simp only [split?, Option.orElse_eq_orElse, Option.orElse_eq_or, Option.or_eq_some_iff] at h
  rcases h with h | ⟨-, h | ⟨-, h⟩⟩
  · exact .inl h
  · exact .inr (.inl h)
  · exact .inr (.inr h)

/-- An operand and what follows it are the text. -/
theorem append_of_split? {s t r : List Char} (h : split? s = some (t, r)) : t ++ r = s := by
  rcases split?_eq_some h with h | h | h
  · exact Path.append_of_split? h
  · exact Quoted.append_of_split? h
  · exact Special.append_of_split? h

theorem ne_nil_of_split? {s t r : List Char} (h : split? s = some (t, r)) : t ≠ [] := by
  rcases split?_eq_some h with h | h | h
  · exact Path.ne_nil_of_split? h
  · exact Quoted.ne_nil_of_split? h
  · exact Special.ne_nil_of_split? h

/-- What follows an operand is shorter than the text. -/
theorem length_lt_of_split? {s t r : List Char} (h : split? s = some (t, r)) :
    r.length < s.length := by
  have ht := List.length_pos_iff.2 (ne_nil_of_split? h)
  rw [← append_of_split? h, List.length_append]
  omega

end Operand

end TemplateArgs
