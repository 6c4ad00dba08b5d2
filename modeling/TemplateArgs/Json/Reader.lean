/-
Reading compact JSON text back.

The reader goes down into a value as the writer came up from it. It takes text
without blanks, and a `/` or a character that needs no escape may be escaped all
the same. Numbers are taken as runs of the characters that numbers are made of;
surrogates, which are no characters, are refused.

Every step of the descent uses up text, so the length of the text bounds it.
-/
import TemplateArgs.Json

set_option autoImplicit false

namespace TemplateArgs.Json

/-! ## Strings -/

/-- The value of a hexadecimal digit, of either case. -/
def hexValue? (c : Char) : Option Nat :=
  if c.isDigit then some (c.toNat - '0'.toNat)
  else if 'a' ≤ c ∧ c ≤ 'f' then some (c.toNat - 'a'.toNat + 10)
  else if 'A' ≤ c ∧ c ≤ 'F' then some (c.toNat - 'A'.toNat + 10)
  else none

/-- The character with a code point of four hexadecimal digits. -/
def ofHex? (a b c d : Char) : Option Char := do
  let n := 4096 * (← hexValue? a) + 256 * (← hexValue? b) + 16 * (← hexValue? c) + (← hexValue? d)
  if n.isValidChar then some (Char.ofNat n) else none

/-- The character that a letter behind a backslash stands for. -/
def ofShortEscape? : Char → Option Char
  | '\"' => some '\"'
  | '\\' => some '\\'
  | '/' => some '/'
  | 'b' => some '\x08'
  | 't' => some '\t'
  | 'n' => some '\n'
  | 'f' => some '\x0c'
  | 'r' => some '\r'
  | _ => none

/-- The characters of a string up to its closing quote, and what follows that. -/
def readString? : List Char → Option (List Char × List Char)
  | [] => none
  | '\"' :: s => some ([], s)
  | '\\' :: 'u' :: a :: b :: c :: d :: s => do
    let e ← ofHex? a b c d
    let (m, r) ← readString? s
    some (e :: m, r)
  | '\\' :: c :: s => do
    let e ← ofShortEscape? c
    let (m, r) ← readString? s
    some (e :: m, r)
  | c :: s => do
    if c = '\\' ∨ c.toNat < 0x20 then none
    let (m, r) ← readString? s
    some (c :: m, r)

/-- The key of a member and the colon behind it, and what follows. -/
def readKey? : List Char → Option (String × List Char)
  | '\"' :: s => do
    let (key, ':' :: r) ← readString? s | none
    some (String.ofList key, r)
  | _ => none

/-! ## Values -/

/-- Whether a character may stand in a number. -/
def isNumberChar (c : Char) : Bool :=
  c.isDigit || c == '-' || c == '+' || c == '.' || c == 'e' || c == 'E'

mutual

/-- The value at the front of a text, and what follows it. -/
def readValue? : Nat → List Char → Option (Json × List Char)
  | 0, _ => none
  | _, 'n' :: 'u' :: 'l' :: 'l' :: s => some (null, s)
  | _, 't' :: 'r' :: 'u' :: 'e' :: s => some (bool true, s)
  | _, 'f' :: 'a' :: 'l' :: 's' :: 'e' :: s => some (bool false, s)
  | _, '\"' :: s => do
    let (m, r) ← readString? s
    some (string (String.ofList m), r)
  | _, '[' :: ']' :: s => some (array [], s)
  | depth + 1, '[' :: s => do
    let (j, s) ← readValue? depth s
    let (items, s) ← readItems? depth s
    some (array (j :: items), s)
  | _, '\x7b' :: '\x7d' :: s => some (object [], s)
  | depth + 1, '\x7b' :: s => do
    let (key, s) ← readKey? s
    let (j, s) ← readValue? depth s
    let (members, s) ← readMembers? depth s
    some (object ((key, j) :: members), s)
  | _, s =>
    match s.takeWhile isNumberChar with
    | [] => none
    | literal => some (number (String.ofList literal), s.dropWhile isNumberChar)

/-- The items of an array behind the first one, and what follows its `]`. -/
def readItems? : Nat → List Char → Option (List Json × List Char)
  | _, ']' :: s => some ([], s)
  | depth + 1, ',' :: s => do
    let (j, s) ← readValue? depth s
    let (items, s) ← readItems? depth s
    some (j :: items, s)
  | _, _ => none

/-- The members of an object behind the first one, and what follows its closing
brace. -/
def readMembers? : Nat → List Char → Option (List (String × Json) × List Char)
  | _, '\x7d' :: s => some ([], s)
  | depth + 1, ',' :: s => do
    let (key, s) ← readKey? s
    let (j, s) ← readValue? depth s
    let (members, s) ← readMembers? depth s
    some ((key, j) :: members, s)
  | _, _ => none

end

/-- The value that a text is, if it is one. -/
def ofText? (text : String) : Option Json :=
  match readValue? (text.length + 1) text.toList with
  | some (j, []) => some j
  | _ => none

end TemplateArgs.Json
