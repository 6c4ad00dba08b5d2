/-
Bindings: the values that arguments give to positions and to names.

Arguments are accepted one after the other, and each is held against what came
before it and nothing else. A positional argument may not stand behind a named
one. A named one may always, unless names are to be given once only. Names are
compared without their brackets.

`Bindings.acceptAll` stops at the first argument that it cannot accept and answers
which arguments it looked at, that one included. So it never knows of a later
fault, and of two faults the one further left is the one that counts.
-/
import TemplateArgs.Argument
import TemplateArgs.Fault
import TemplateArgs.Table
import TemplateArgs.Value

set_option autoImplicit false

namespace TemplateArgs

/-- What becomes of a name that is given again. -/
inductive DuplicatePolicy where
  /-- its new value takes the place of the old one -/
  | overwrite
  /-- the argument list is refused -/
  | reject
deriving DecidableEq, Repr

/-- Unless something else is asked for, the later value counts. -/
instance : Inhabited DuplicatePolicy := ⟨.overwrite⟩

/-- The values of positions and names. -/
structure Bindings where
  positional : Array Value
  named : Table String Value
deriving DecidableEq, Repr

namespace Bindings

/-- No position and no name has a value. -/
def empty : Bindings := ⟨#[], ∅⟩

instance : EmptyCollection Bindings := ⟨empty⟩

instance : Inhabited Bindings := ⟨∅⟩

/-- Whether there is no value at all. -/
def isEmpty (b : Bindings) : Bool := b.positional.isEmpty && b.named.isEmpty

/-- The bindings with one more argument, or what is wrong with it. -/
def accept (policy : DuplicatePolicy) (b : Bindings) : Argument → Except Fault Bindings
  | .positional v =>
    if b.named.isEmpty then .ok { b with positional := b.positional.push (Value.ofOperand v) }
    else .error (.positionalAfterNamed v)
  | .named n v =>
    let name := String.ofList (NameUnit.name n)
    if policy = .reject ∧ b.named.contains name then .error (.duplicateName name)
    else .ok { b with named := b.named.insert name (Value.ofOperand v) }

/-- The arguments that were looked at, and the bindings with all of them or
what is wrong with the last. -/
def acceptAll (policy : DuplicatePolicy) (b : Bindings) :
    List Argument → List Argument × Except Fault Bindings
  | [] => ([], .ok b)
  | a :: as =>
    match accept policy b a with
    | .error fault => ([a], .error fault)
    | .ok b =>
      let (seen, verdict) := acceptAll policy b as
      (a :: seen, verdict)

end Bindings

end TemplateArgs
