/-
Argument lists: a text, the bindings it makes, and what was seen on the way.

The text is trimmed, cut into arguments as far as that goes, and the arguments
are accepted in turn. Text left over is a fault of its own and the last one to
be found, since it stands behind every argument. A list is therefore accepted
exactly if all of its text is arguments and each of them is accepted.

A `Run` also tells what happened on the way: an event for every argument that
was looked at, the one that failed among them, and one for the refusal if there
is one. `ArgumentList.parse` is its outcome.
-/
import TemplateArgs.Bindings

set_option autoImplicit false

namespace TemplateArgs

/-! ## The list -/

/-- The bindings that a text makes, and the text as it was given. -/
structure ArgumentList extends Bindings where
  input : String
deriving DecidableEq, Repr

namespace ArgumentList

/-- The list of an empty text. -/
instance : Inhabited ArgumentList := ⟨⟨∅, ""⟩⟩

/-- A list is shown as the text it was read from. -/
instance : ToString ArgumentList := ⟨input⟩

end ArgumentList

/-! ## Events -/

/-- How much an event matters. -/
inductive Level where
  | debug
  | trace
deriving DecidableEq, Repr

/-- Something that happened while a text was read. -/
inductive Event where
  /-- an argument was recognised, whether or not it is then accepted -/
  | recognised (argument : Argument)
  /-- the text was refused -/
  | refused (refusal : Refusal)
deriving DecidableEq, Repr

namespace Event

/-- Only a refusal is worth more than a trace. -/
def level : Event → Level
  | recognised _ => .trace
  | refused _ => .debug

/-- What happened, in words. -/
def message : Event → String
  | recognised (.named _ _) => "named argument"
  | recognised (.positional _) => "positional argument"
  | refused ⟨.malformed, _⟩ => "malformed helper arguments"
  | refused ⟨.positionalAfterNamed _, _⟩ => "positional argument after named arguments"
  | refused ⟨.duplicateName _, _⟩ => "duplicate named argument"

/-- What it happened to. Arguments are given as written. -/
def fields : Event → List (String × String)
  | recognised (.named n v) => [("name", String.ofList n), ("value", String.ofList v)]
  | recognised (.positional v) => [("value", String.ofList v)]
  | refused ⟨.malformed, input⟩ => [("input", input)]
  | refused ⟨.positionalAfterNamed v, input⟩ =>
    [("input", input), ("value", String.ofList v)]
  | refused ⟨.duplicateName name, input⟩ => [("input", input), ("name", name)]

end Event

/-! ## Reading a text -/

/-- What was seen in a text, and what came of it. -/
structure Run where
  log : List Event
  outcome : Except Refusal ArgumentList

namespace ArgumentList

/-- Reads a text and tells of it. -/
def run (policy : DuplicatePolicy) (input : String) : Run :=
  let (arguments, rest) := Argument.sequence (trimBlanks input.toList)
  let (seen, verdict) := Bindings.acceptAll policy ∅ arguments
  let recognised := seen.map Event.recognised
  let refuse (fault : Fault) : Run :=
    ⟨recognised ++ [.refused ⟨fault, input⟩], .error ⟨fault, input⟩⟩
  match verdict with
  | .error fault => refuse fault
  | .ok bindings =>
    if rest.isEmpty then ⟨recognised, .ok ⟨bindings, input⟩⟩ else refuse .malformed

/-- The argument list that a text is, or why it is none. -/
def parse (policy : DuplicatePolicy) (input : String) : Except Refusal ArgumentList :=
  (run policy input).outcome

end ArgumentList

end TemplateArgs
