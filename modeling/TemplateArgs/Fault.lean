/-
Faults: the three reasons to refuse the text of an argument list.

A fault keeps what tells it from another of its kind, and a refusal adds the
text that was refused, as it was given. The wording is in `Refusal.message` and
nowhere else.
-/
set_option autoImplicit false

namespace TemplateArgs

/-- What is wrong with an argument list. -/
inductive Fault where
  /-- some of the text is no argument -/
  | malformed
  /-- a positional argument, here as written, stands behind a named one -/
  | positionalAfterNamed (value : List Char)
  /-- a name, here without brackets, is given again though it may not be -/
  | duplicateName (name : String)
deriving DecidableEq, Repr

/-- The text of an argument list that was refused, and why. -/
structure Refusal where
  fault : Fault
  input : String
deriving DecidableEq, Repr

/-- What to tell the author of the text. The text and the name are put in as
they are, quotes in them and all. -/
def Refusal.message (e : Refusal) : String :=
  match e.fault with
  | .malformed => "malformed arguments string: \"" ++ e.input ++ "\""
  | .positionalAfterNamed _ => "positional arguments cannot follow named arguments"
  | .duplicateName name => "duplicate named argument \"" ++ name ++ "\""

end TemplateArgs
