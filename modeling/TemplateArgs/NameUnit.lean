/-
Name units: the words that paths are made of and that name arguments.

A unit is bare, a run of name characters, or bracketed, any text without a
closing bracket between `[` and `]`. `NameUnit.split?` cuts the unit off the
front of a text. The two forms begin with different characters, so at most one
of them is there, and each is as long as it can be: a bare unit takes the whole
run, a bracketed one ends at the first `]`.

`NameUnit.name` forgets which form was written. What an argument is called
is the text inside the brackets, so `[size]` and `size` are one name.
-/
import TemplateArgs.Alphabet
import TemplateArgs.Enclosure

set_option autoImplicit false

namespace TemplateArgs

namespace NameUnit

/-! ## Cutting a unit off the front -/

/-- The run of name characters at the front of a text, if there is one. -/
def bare? (s : List Char) : Option (List Char × List Char) :=
  match s.takeWhile isNameChar with
  | [] => none
  | u => some (u, s.dropWhile isNameChar)

/-- The bracketed unit at the front of a text, if there is one. Its content
ends at the first `]` and is not empty; line feeds are as good as any. -/
def bracketed? : List Char → Option (List Char × List Char)
  | '[' :: s =>
    match s.takeWhile (· != ']'), s.dropWhile (· != ']') with
    | c :: m, _ :: r => some ('[' :: c :: m ++ [']'], r)
    | _, _ => none
  | _ => none

/-- The name unit at the front of a text, and what follows it. -/
def split? (s : List Char) : Option (List Char × List Char) :=
  bare? s <|> bracketed? s

/-! ## What a unit takes from the text -/

theorem append_of_bare? {s u r : List Char} (h : bare? s = some (u, r)) : u ++ r = s := by
  unfold bare? at h
  split at h
  · cases h
  · cases h; exact List.takeWhile_append_dropWhile

theorem ne_nil_of_bare? {s u r : List Char} (h : bare? s = some (u, r)) : u ≠ [] := by
  unfold bare? at h
  split at h
  · cases h
  · next hne => cases h; exact hne

theorem append_of_bracketed? {s u r : List Char} (h : bracketed? s = some (u, r)) :
    u ++ r = s := by
  unfold bracketed? at h
  split at h
  · next s =>
    split at h
    · next c m d r' hm hr =>
      have hd : d = ']' := by
        have := List.head?_dropWhile_not (· != ']') s
        simpa [hr] using this
      cases h
      rw [← List.takeWhile_append_dropWhile (p := (· != ']')) (l := s), hm, hr, hd]
      simp
    · cases h
  · cases h

theorem ne_nil_of_bracketed? {s u r : List Char} (h : bracketed? s = some (u, r)) : u ≠ [] := by
  unfold bracketed? at h
  split at h
  · split at h
    · cases h; simp
    · cases h
  · cases h

/-- A unit and what follows it are the text. -/
theorem append_of_split? {s u r : List Char} (h : split? s = some (u, r)) : u ++ r = s := by
  simp only [split?, Option.orElse_eq_orElse, Option.orElse_eq_or, Option.or_eq_some_iff] at h
  rcases h with h | ⟨-, h⟩
  · exact append_of_bare? h
  · exact append_of_bracketed? h

theorem ne_nil_of_split? {s u r : List Char} (h : split? s = some (u, r)) : u ≠ [] := by
  simp only [split?, Option.orElse_eq_orElse, Option.orElse_eq_or, Option.or_eq_some_iff] at h
  rcases h with h | ⟨-, h⟩
  · exact ne_nil_of_bare? h
  · exact ne_nil_of_bracketed? h

/-- What follows a unit is shorter than the text. -/
theorem length_lt_of_split? {s u r : List Char} (h : split? s = some (u, r)) :
    r.length < s.length := by
  have hu := List.length_pos_iff.2 (ne_nil_of_split? h)
  rw [← append_of_split? h, List.length_append]
  omega

/-! ## The name a unit stands for -/

/-- The name that a unit stands for: the text inside the brackets if it has
both of them, and the unit itself otherwise. -/
def name (u : List Char) : List Char := (between? '[' ']' u).getD u

/-- The name that a unit stands for. Text that is no unit is taken the same way:
it loses its brackets if it begins and ends with them. -/
def nameOf (unit : String) : String := String.ofList (name unit.toList)

end NameUnit

end TemplateArgs
