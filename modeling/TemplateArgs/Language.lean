/-
The language of argument text, said without reading any.

Everything that `split?` and `sequence` cut off the front of a text is described
here as a set of texts: what a name unit is, a path, a quoted literal, a special
variable, an operand, a named argument. Nothing here looks at what follows or
decides between alternatives.

Which text is taken where several could be is a rule of its own and stands last.
`Argument.Next` says which argument comes next in a text: a named one if any text
of that form is at the front, and then the longest, otherwise the longest
operand. `Divides` repeats it, with blanks in between, until nothing is left.
-/
import TemplateArgs.Argument

set_option autoImplicit false

namespace TemplateArgs

/-! ## Words -/

/-- Blanks and nothing else, or nothing at all. -/
def IsBlankText (w : List Char) : Prop := ∀ c ∈ w, isBlank c = true

/-- A run of name characters, or text without a `]` between brackets. -/
def IsNameUnit (u : List Char) : Prop :=
  (u ≠ [] ∧ ∀ c ∈ u, isNameChar c = true) ∨
    ∃ m, m ≠ [] ∧ (∀ c ∈ m, c ≠ ']') ∧ u = '[' :: (m ++ [']'])

/-- Steps up, units that each have a separator behind them, one more unit, and
a closing dot or not. -/
def IsPath (t : List Char) : Prop :=
  ∃ (climbs : Nat) (steps : List (List Char × Char)) (last closing : List Char),
    (∀ s ∈ steps, IsNameUnit s.1 ∧ (s.2 = '.' ∨ s.2 = '/')) ∧ IsNameUnit last ∧
    (closing = [] ∨ closing = ['.']) ∧
    t = (List.replicate climbs ['.', '.', '/']).flatten ++
      (steps.flatMap (fun s => s.1 ++ [s.2]) ++ (last ++ closing))

/-- What the content of a literal between quotes `q` is made of: a character
that means nothing special there, or an escaped pair. -/
def IsQuotedPiece (q : Char) (p : List Char) : Prop :=
  (∃ c, c ≠ q ∧ c ≠ '\\' ∧ c ≠ '\n' ∧ p = [c]) ∨ ∃ c, c ≠ '\n' ∧ p = ['\\', c]

/-- Pieces between two equal quotes. -/
def IsQuoted (t : List Char) : Prop :=
  ∃ (q : Char) (pieces : List (List Char)), (q = '\"' ∨ q = '\'') ∧
    (∀ p ∈ pieces, IsQuotedPiece q p) ∧ t = q :: (pieces.flatten ++ [q])

/-- An `@` and a run of lowercase ASCII letters. -/
def IsSpecial (t : List Char) : Prop :=
  ∃ n, n ≠ [] ∧ (∀ c ∈ n, 'a' ≤ c ∧ c ≤ 'z') ∧ t = '@' :: n

/-- One of the three ways to write a value. -/
def IsOperand (t : List Char) : Prop := IsPath t ∨ IsQuoted t ∨ IsSpecial t

/-- A run of decimal digits, with or without a minus sign. -/
def IsInteger (t : List Char) : Prop :=
  ∃ ds, ds ≠ [] ∧ (∀ c ∈ ds, '0' ≤ c ∧ c ≤ '9') ∧ (t = ds ∨ t = '-' :: ds)

/-! ## Arguments -/

/-- How an argument may be written: the name and the value of a named one have
an `=` between them, and blanks around that as one likes. -/
inductive Argument.Spelled : Argument → List Char → Prop
  | positional {v : List Char} : IsOperand v → Spelled (.positional v) v
  | named {n v w₁ w₂ : List Char} : IsNameUnit n → IsOperand v → IsBlankText w₁ →
      IsBlankText w₂ → Spelled (.named n v) (n ++ (w₁ ++ '=' :: (w₂ ++ v)))

/-- A text that is a named argument. -/
def IsNamed (t : List Char) : Prop := ∃ n v, Argument.Spelled (.named n v) t

/-! ## Which text is taken -/

/-- The longest word of a language at the front of `s` is `t`. -/
def LongestInFront (L : List Char → Prop) (s t : List Char) : Prop :=
  L t ∧ t <+: s ∧ ∀ u, L u → u <+: s → u.length ≤ t.length

/-- The next argument in `s` is `a`, and it is spelled `t`. -/
inductive Argument.Next (s : List Char) : Argument → List Char → Prop
  | named {n v t : List Char} : Spelled (.named n v) t → LongestInFront IsNamed s t →
      Next s (.named n v) t
  | positional {v : List Char} : (∀ t, IsNamed t → ¬t <+: s) → LongestInFront IsOperand s v →
      Next s (.positional v) v

/-- The text is one next argument after the other, with blanks or nothing in
between. -/
inductive Divides : List Char → List Argument → Prop
  | nil : Divides [] []
  | cons {t w s : List Char} {a : Argument} {as : List Argument} :
      Argument.Next (t ++ (w ++ s)) a t → IsBlankText w → Divides s as →
      Divides (t ++ (w ++ s)) (a :: as)

/-! ## Layout -/

/-- Arguments with blanks between any two of them. -/
inductive Spaced : List Argument → List Char → Prop
  | nil : Spaced [] []
  | last {a : Argument} {t : List Char} : a.Spelled t → Spaced [a] t
  | cons {a b : Argument} {as : List Argument} {t w s : List Char} :
      a.Spelled t → IsBlankText w → w ≠ [] → Spaced (b :: as) s →
      Spaced (a :: b :: as) (t ++ (w ++ s))

/-- Arguments with blanks between any two of them, and blanks at the two ends
or none. -/
def LaidOut (as : List Argument) (s : List Char) : Prop :=
  ∃ w₁ t w₂, IsBlankText w₁ ∧ Spaced as t ∧ IsBlankText w₂ ∧ s = w₁ ++ (t ++ w₂)

end TemplateArgs
