/-
Writing values, names and bindings as argument text.

A path is written as it is. A literal is written between quotes of either kind,
with a backslash before each backslash and each quote of that kind, and with a
line feed as `\n`; everything else stands for itself, so no other escape is
needed. A name is written bare or between brackets. Arguments are put one behind
the other with a space between them, the positional ones first.

Not every value can be written. A path has to be one that reads as a path again
(`Value.IsWritable`), and a name has to be one that a name unit can stand for
(`IsName`).
-/
import TemplateArgs.Bindings
import TemplateArgs.Language

set_option autoImplicit false

namespace TemplateArgs

/-! ## What can be written -/

/-- A name that a unit stands for: text without a `]`, and some of it. -/
def IsName (name : String) : Prop := name.toList ≠ [] ∧ ']' ∉ name.toList

/-- Literals, and paths whose text is a special variable or a path that is no
integer. -/
def Value.IsWritable : Value → Prop
  | .path t => IsSpecial t.toList ∨ (IsPath t.toList ∧ ¬IsInteger t.toList)
  | .literal _ => True

/-! ## Values and names -/

/-- The two kinds of quotes. -/
inductive Quote where
  | single
  | double
deriving DecidableEq, Repr

/-- The character of a quote. -/
def Quote.char : Quote → Char
  | single => '\''
  | double => '\"'

/-- How a character is written in a literal between quotes of one kind. -/
def Quote.escaped (q : Quote) (c : Char) : List Char :=
  if c = '\\' ∨ c = q.char then ['\\', c]
  else if c = '\n' then ['\\', 'n']
  else [c]

/-- How a value is written, a literal between quotes of one kind. -/
def Value.chars (q : Quote) : Value → List Char
  | .path t => t.toList
  | .literal t => q.char :: (t.toList.flatMap q.escaped ++ [q.char])

/-- The two forms of a name unit. -/
inductive NameForm where
  | bare
  | bracketed
deriving DecidableEq, Repr

/-- How a name is written in a form. -/
def NameForm.chars (name : String) : NameForm → List Char
  | bare => name.toList
  | bracketed => '[' :: (name.toList ++ [']'])

/-- Whether a name can be written in a form. -/
def NameForm.Allows (name : String) : NameForm → Prop
  | bare => ∀ c ∈ name.toList, isNameChar c = true
  | bracketed => True

/-! ## Arguments -/

/-- A value to be written, and between which quotes. -/
structure PrintedValue where
  quote : Quote
  value : Value
deriving DecidableEq, Repr

/-- A named value to be written, and how. -/
structure PrintedEntry extends PrintedValue where
  form : NameForm
  name : String
deriving DecidableEq, Repr

/-- The text of a value to be written. -/
def PrintedValue.chars (p : PrintedValue) : List Char := p.value.chars p.quote

/-- The text of a named value to be written: its name, an `=` and the value. -/
def PrintedEntry.chars (p : PrintedEntry) : List Char :=
  p.form.chars p.name ++ '=' :: p.toPrintedValue.chars

/-- Positional values and named ones behind them, a space between any two. -/
def printed (ps : List PrintedValue) (es : List PrintedEntry) : String :=
  String.ofList ([' '].intercalate (ps.map PrintedValue.chars ++ es.map PrintedEntry.chars))

namespace Bindings

/-- The positional values of some bindings, each between double quotes if it is a
literal. -/
def printedValues (b : Bindings) : List PrintedValue :=
  b.positional.toList.map fun v => ⟨.double, v⟩

/-- The named ones, written alike, with every name between brackets. -/
def printedEntries (b : Bindings) : List PrintedEntry :=
  b.named.entries.map fun (name, v) => ⟨⟨.double, v⟩, .bracketed, name⟩

/-- Bindings with double quotes and bracketed names. -/
def printed (b : Bindings) : String := TemplateArgs.printed b.printedValues b.printedEntries

end Bindings

end TemplateArgs
