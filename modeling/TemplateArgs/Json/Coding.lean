/-
The JSON of values, tables and argument lists.

A value is an object with one member. Its key tells the kind of the value and
its string the text, and nothing else is the JSON of a value: `Value.ofJson?`
refuses further members, other keys and other kinds of content. A table is an
object with a member for every entry, in the order of the table, and an object
with a key given twice is no table.
-/
import TemplateArgs.ArgumentList
import TemplateArgs.Json

set_option autoImplicit false

namespace TemplateArgs

/-- The JSON of a value. -/
def Value.toJson : Value → Json
  | path t => .object [("VariablePath", .string t)]
  | literal t => .object [("Literal", .string t)]

/-- The value that a JSON value stands for. -/
def Value.ofJson? : Json → Option Value
  | .object [("VariablePath", .string t)] => some (path t)
  | .object [("Literal", .string t)] => some (literal t)
  | _ => none

/-- Reading undoes writing. -/
@[simp] theorem Value.ofJson?_toJson (v : Value) : ofJson? v.toJson = some v := by
  cases v <;> rfl

/-- The JSON of a table of values. -/
def Table.toJson (t : Table String Value) : Json :=
  .object (t.entries.map fun (name, v) => (name, v.toJson))

/-- The table that a JSON value stands for. -/
def Table.ofJson? : Json → Option (Table String Value)
  | .object members => do
    let entries ← members.mapM fun (name, j) => (Value.ofJson? j).map fun v => (name, v)
    if h : (entries.map Prod.fst).Nodup then some ⟨entries, h⟩ else none
  | _ => none

/-- The JSON of an argument list. -/
def ArgumentList.toJson (l : ArgumentList) : Json :=
  .object [("positional", .array (l.positional.toList.map Value.toJson)),
    ("named", l.named.toJson), ("original", .string l.input)]

/-- The argument list that a JSON value stands for. -/
def ArgumentList.ofJson? : Json → Option ArgumentList
  | .object [("positional", .array items), ("named", table), ("original", .string text)] => do
    let positional ← items.mapM Value.ofJson?
    let named ← Table.ofJson? table
    some ⟨⟨positional.toArray, named⟩, text⟩
  | _ => none

end TemplateArgs
