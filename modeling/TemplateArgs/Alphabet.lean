/-
The alphabet of argument text: which characters are blank, which may stand in a
bare name, and which open a quoted literal.

Three classes carry the whole grammar, and they are chosen so that the first
character of an argument says what it can be. A quote and an `@` are reserved,
so neither can open a name; a blank is in no name, so blanks separate; `=` is
reserved, so no name runs into the value it is given. Everything outside the
two short lists below, control characters and all of Unicode beyond ASCII
included, may stand in a name.
-/

set_option autoImplicit false

namespace TemplateArgs

/-! ## Blanks -/

/-- The blanks: space, tab, line feed, vertical tab, form feed, carriage
return. ASCII only: a no-break space is a name character. -/
def blanks : List Char := [' ', '\t', '\n', '\x0b', '\x0c', '\r']

/-- Whether a character separates arguments. -/
def isBlank (c : Char) : Bool := blanks.contains c

/-- The text from its first character that is no blank. -/
def skipBlanks (s : List Char) : List Char := s.dropWhile isBlank

/-- The text without the blanks at its two ends. -/
def trimBlanks (s : List Char) : List Char := (skipBlanks (skipBlanks s).reverse).reverse

theorem length_skipBlanks_le (s : List Char) : (skipBlanks s).length ≤ s.length :=
  (List.dropWhile_sublist isBlank).length_le

/-- What stands before the first character that is no blank is blank. -/
theorem exists_blanks_append_skipBlanks (s : List Char) :
    ∃ w : List Char, (∀ c ∈ w, isBlank c = true) ∧ w ++ skipBlanks s = s :=
  ⟨s.takeWhile isBlank, List.all_eq_true.1 List.all_takeWhile, List.takeWhile_append_dropWhile⟩

/-! ## Name characters and quotes -/

/-- The visible ASCII characters that no bare name may hold. The three written
as numbers are the back quote, the opening brace and the closing brace. -/
def reserved : List Char :=
  ['!', '\"', '#', '%', '&', '\'', '(', ')', '*', '+', ',', '.', '/', ';', '<', '=', '>', '@',
    '[', '\\', ']', '^', '\x60', '\x7b', '|', '\x7d', '~']

/-- Whether a character may stand in a bare name. -/
def isNameChar (c : Char) : Bool := !isBlank c && !reserved.contains c

/-- Whether a character opens a quoted literal, and then closes it. -/
def isQuote (c : Char) : Bool := c == '\"' || c == '\''

end TemplateArgs
