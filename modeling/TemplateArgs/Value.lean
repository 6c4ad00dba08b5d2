/-
Values: what an operand means to the one who asked for it.

A value is either known already, a literal, or a path that has yet to be looked
up. Which of the two is read off the operand alone. Quotes make a literal of
what is between them, with its escapes resolved; an integer is a literal as it
stands, digits and sign, and stays text; all else is a path as it stands, special
variables among them.

`Value.ofOperand` is defined for every text and not for operands alone. Text that
only begins with a quote, or is nothing but one, is a path.
-/
import TemplateArgs.Alphabet
import TemplateArgs.Enclosure
import TemplateArgs.Escape

set_option autoImplicit false

namespace TemplateArgs

/-- The value of an argument. -/
inductive Value where
  /-- a path to be looked up, as written -/
  | path (text : String)
  /-- text that is known already -/
  | literal (text : String)
deriving DecidableEq, Repr

namespace Value

/-! ## Reading a value -/

/-- The text of a value, whichever kind it is. -/
def text : Value → String
  | path t => t
  | literal t => t

/-- Whether a value has yet to be looked up. -/
def isPath : Value → Bool
  | path _ => true
  | literal _ => false

/-- Whether a value is known already. -/
def isLiteral : Value → Bool
  | path _ => false
  | literal _ => true

/-- A value is shown as its text, without a hint at its kind. -/
instance : ToString Value := ⟨text⟩

/-! ## The value of an operand -/

/-- The text between two equal quotes, if the whole of `t` is that. -/
def unquote? : List Char → Option (List Char)
  | [] => none
  | q :: s => if isQuote q then between? q q (q :: s) else none

/-- Whether a text is a run of decimal digits, with or without a minus sign. -/
def isInteger : List Char → Bool
  | '-' :: s => !s.isEmpty && s.all Char.isDigit
  | s => !s.isEmpty && s.all Char.isDigit

/-- The value that an operand stands for. -/
def ofOperand (t : List Char) : Value :=
  match unquote? t with
  | some m => literal (String.ofList (Escape.decode m))
  | none => if isInteger t then literal (String.ofList t) else path (String.ofList t)

/-- What is unquoted stood between two equal quotes, and nothing else is. -/
theorem unquote?_eq_some_iff {t m : List Char} :
    unquote? t = some m ↔ ∃ q, isQuote q = true ∧ t = q :: (m ++ [q]) := by
  cases t with
  | nil => simp [unquote?]
  | cons q s =>
    simp only [unquote?, Option.ite_none_right_eq_some, between?_eq_some_iff]
    constructor
    · rintro ⟨hq, h⟩
      exact ⟨q, hq, h⟩
    · rintro ⟨q', hq, h⟩
      cases h
      exact ⟨hq, rfl⟩

end Value

end TemplateArgs
