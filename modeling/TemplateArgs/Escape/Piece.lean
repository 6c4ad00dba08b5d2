/-
The pieces of escaped text: every way in which one character can be spelled.

A text decodes piece by piece, and each piece stands for one character whatever
is around it. Only where a piece ends depends on what follows: a number that
could take another digit goes on. `Piece.EndsBefore` says when a piece is
complete, and `AreComplete` that every piece of a list is.

The tables and the values here are said on their own and not by way of
`Escape.decode`, which is to be held against them.
-/
set_option autoImplicit false

namespace TemplateArgs.Escape

/-! ## Letters and digits -/

/-- The letters that name a control character, each with the one it names. -/
def controls : List (Char × Char) :=
  [('n', '\n'), ('t', '\t'), ('r', '\r'), ('a', '\x07'), ('v', '\x0b'), ('b', '\x08'),
    ('f', '\x0c')]

/-- The octal digits in the order of their values. -/
def octalDigits : List Char := ['0', '1', '2', '3', '4', '5', '6', '7']

/-- The hexadecimal digits in the order of their values, and the upper case
letters among them after these. -/
def hexDigits : List Char :=
  ['0', '1', '2', '3', '4', '5', '6', '7', '8', '9', 'a', 'b', 'c', 'd', 'e', 'f',
    'A', 'B', 'C', 'D', 'E', 'F']

/-- The value of a digit of either kind: its place in the order, with an upper
case letter worth what the lower case one is. -/
def digitValue (c : Char) : Nat :=
  let place := hexDigits.idxOf c
  if place < 16 then place else place - 6

/-- The number that digits spell. -/
def numeral (radix : Nat) : List Char → Nat
  | [] => 0
  | c :: ds => digitValue c * radix ^ ds.length + numeral radix ds

/-! ## Pieces -/

/-- One character of a text, as it may be spelled. -/
inductive Piece where
  /-- a character for itself -/
  | plain (c : Char)
  /-- a backslash and a letter, for a control character -/
  | control (letter value : Char)
  /-- a backslash, an `x` and hexadecimal digits -/
  | hex (digits : List Char)
  /-- a backslash and an `x`, for the letter -/
  | bareX
  /-- a backslash and octal digits -/
  | octal (digits : List Char)
  /-- a backslash and any other character, for that character -/
  | escaped (c : Char)
  /-- a backslash and nothing behind it -/
  | dangling
deriving DecidableEq, Repr

namespace Piece

/-- Whether a piece is one of its kind. -/
def IsValid : Piece → Prop
  | plain c => c ≠ '\\'
  | control letter value => (letter, value) ∈ controls
  | hex ds => (ds.length = 1 ∨ ds.length = 2) ∧ ∀ c ∈ ds, c ∈ hexDigits
  | bareX => True
  | octal ds => (ds.length = 1 ∨ ds.length = 2 ∨ ds.length = 3) ∧ ∀ c ∈ ds, c ∈ octalDigits
  | escaped c => c ∉ controls.map Prod.fst ∧ c ≠ 'x' ∧ c ∉ octalDigits
  | dangling => True

/-- The text of a piece. -/
def text : Piece → List Char
  | plain c => [c]
  | control letter _ => ['\\', letter]
  | hex ds => '\\' :: 'x' :: ds
  | bareX => ['\\', 'x']
  | octal ds => '\\' :: ds
  | escaped c => ['\\', c]
  | dangling => ['\\']

/-- The character that a piece stands for. -/
def value : Piece → Char
  | plain c => c
  | control _ value => value
  | hex ds => Char.ofNat (numeral 16 ds)
  | bareX => 'x'
  | octal ds => Char.ofNat (numeral 8 ds % 256)
  | escaped c => c
  | dangling => '\\'

/-- Whether a piece is complete with the text `s` behind it. -/
def EndsBefore (s : List Char) : Piece → Prop
  | hex ds => ds.length < 2 → ∀ c ∈ s.head?, c ∉ hexDigits
  | bareX => ∀ c ∈ s.head?, c ∉ hexDigits
  | octal ds => ds.length < 3 → ∀ c ∈ s.head?, c ∉ octalDigits
  | dangling => s = []
  | _ => True

end Piece

/-- The text of a list of pieces. -/
def spelling (ps : List Piece) : List Char := ps.flatMap Piece.text

/-- Every piece is one of its kind, and complete with the others behind it. -/
def AreComplete : List Piece → Prop
  | [] => True
  | p :: ps => p.IsValid ∧ p.EndsBefore (spelling ps) ∧ AreComplete ps

end TemplateArgs.Escape
