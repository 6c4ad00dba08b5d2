/-
JSON values and their compact text.

The members of an object are kept in the order in which they are written, for
the order of an argument table is part of what it says. Numbers are kept by
their literals, which nothing here looks into.

The compact text has no blanks. In a string, the quote and the backslash get a
backslash, and so do the five control characters that have a letter for it; the
other control characters are written by number, and all else stands as it is.
-/
set_option autoImplicit false

namespace TemplateArgs

/-- A JSON value. -/
inductive Json where
  | null
  | bool (b : Bool)
  | number (literal : String)
  | string (s : String)
  | array (items : List Json)
  | object (members : List (String × Json))
deriving Inhabited, Repr

namespace Json

/-! ## Strings -/

/-- The letter that a control character is written with behind a backslash. -/
def shortEscape? : Char → Option Char
  | '\x08' => some 'b'
  | '\t' => some 't'
  | '\n' => some 'n'
  | '\x0c' => some 'f'
  | '\r' => some 'r'
  | _ => none

/-- How a character is written inside a string. -/
def escaped (c : Char) : List Char :=
  if c = '\"' ∨ c = '\\' then ['\\', c]
  else
    match shortEscape? c with
    | some letter => ['\\', letter]
    | none =>
      if c.toNat < 0x20 then
        ['\\', 'u', '0', '0', Nat.digitChar (c.toNat / 16), Nat.digitChar (c.toNat % 16)]
      else [c]

/-- How a string is written. -/
def quoted (s : String) : List Char := '\"' :: (s.toList.flatMap escaped ++ ['\"'])

/-! ## Compact text -/

mutual

/-- How a value is written. -/
def chars : Json → List Char
  | null => ['n', 'u', 'l', 'l']
  | bool true => ['t', 'r', 'u', 'e']
  | bool false => ['f', 'a', 'l', 's', 'e']
  | number literal => literal.toList
  | string s => quoted s
  | array items => '[' :: (itemChars items ++ [']'])
  | object members => '\x7b' :: (memberChars members ++ ['\x7d'])

/-- How the items of an array are written, with commas between them. -/
def itemChars : List Json → List Char
  | [] => []
  | j :: items => chars j ++ moreItemChars items

/-- How the items behind the first one are written. -/
def moreItemChars : List Json → List Char
  | [] => []
  | j :: items => ',' :: (chars j ++ moreItemChars items)

/-- How the members of an object are written, with commas between them. -/
def memberChars : List (String × Json) → List Char
  | [] => []
  | (key, j) :: members => quoted key ++ ':' :: (chars j ++ moreMemberChars members)

/-- How the members behind the first one are written. -/
def moreMemberChars : List (String × Json) → List Char
  | [] => []
  | (key, j) :: members => ',' :: (quoted key ++ ':' :: (chars j ++ moreMemberChars members))

end

/-- The compact text of a value. -/
def text (j : Json) : String := String.ofList j.chars

end Json

end TemplateArgs
