/-
Escapes: what the backslashes in a quoted literal stand for.

A backslash and the character behind it are one escape. A letter out of a short
table names a control character; `x` is followed by one or two hexadecimal
digits and an octal digit by up to two more, and the number names the character
with that code point; any other character stands for itself, and so does an `x`
with no digit behind it. Digits are taken as long as the form allows more, so
`\x414` is `A4` and `\1018` is `A8`. Three octal digits can exceed a byte, and
the number is then reduced to one.

No text is refused. A backslash that ends the text has nothing to escape and is
kept as it is.
-/
set_option autoImplicit false

namespace TemplateArgs.Escape

/-! ## Numbers -/

/-- The value of a hexadecimal digit, of either case. -/
def hexDigit? (c : Char) : Option Nat :=
  if '0' ≤ c ∧ c ≤ '9' then some (c.toNat - '0'.toNat)
  else if 'a' ≤ c ∧ c ≤ 'f' then some (c.toNat - 'a'.toNat + 10)
  else if 'A' ≤ c ∧ c ≤ 'F' then some (c.toNat - 'A'.toNat + 10)
  else none

/-- The value of an octal digit. -/
def octalDigit? (c : Char) : Option Nat :=
  if '0' ≤ c ∧ c ≤ '7' then some (c.toNat - '0'.toNat) else none

/-- The values of the digits at the front of a text, at most `limit` of them,
and what follows. -/
def digits (digit? : Char → Option Nat) : Nat → List Char → List Nat × List Char
  | limit + 1, c :: s =>
    match digit? c with
    | some d =>
      let (ds, r) := digits digit? limit s
      (d :: ds, r)
    | none => ([], c :: s)
  | _, s => ([], s)

/-- The number that digits spell in a radix, the leading digit first. -/
def ofDigits (radix : Nat) (ds : List Nat) : Nat := ds.foldl (fun n d => radix * n + d) 0

theorem length_digits_le (digit? : Char → Option Nat) (limit : Nat) (s : List Char) :
    (digits digit? limit s).2.length ≤ s.length := by
  fun_induction digits digit? limit s with
  | case1 limit c s d hd ds r h ih =>
    rw [h] at ih
    simp only [List.length_cons] at ih ⊢
    omega
  | case2 => simp
  | case3 => simp

/-! ## One escape -/

/-- The control character that a letter names. -/
def control? : Char → Option Char
  | 'n' => some '\n'
  | 't' => some '\t'
  | 'r' => some '\r'
  | 'a' => some '\x07'
  | 'v' => some '\x0b'
  | 'b' => some '\x08'
  | 'f' => some '\x0c'
  | _ => none

/-- What the escape with `c` behind its backslash stands for, and what of the
text `s` behind `c` is left. -/
def resolve (c : Char) (s : List Char) : Char × List Char :=
  match control? c with
  | some d => (d, s)
  | none =>
    if c = 'x' then
      match digits hexDigit? 2 s with
      | ([], _) => (c, s)
      | (ds, r) => (Char.ofNat (ofDigits 16 ds), r)
    else
      match octalDigit? c with
      | some d =>
        let (ds, r) := digits octalDigit? 2 s
        (Char.ofNat (ofDigits 8 (d :: ds) % 256), r)
      | none => (c, s)

theorem length_resolve_le (c : Char) (s : List Char) : (resolve c s).2.length ≤ s.length := by
  have hex := length_digits_le hexDigit? 2 s
  have octal := length_digits_le octalDigit? 2 s
  unfold resolve
  split
  · exact Nat.le_refl _
  · split
    · split
      · exact Nat.le_refl _
      · next h => simpa only [h] using hex
    · split
      · exact octal
      · exact Nat.le_refl _

/-! ## A whole text -/

/-- The text with every escape replaced by what it stands for. -/
def decode : List Char → List Char
  | [] => []
  | ['\\'] => ['\\']
  | '\\' :: c :: s =>
    match _h : resolve c s with
    | (d, r) => d :: decode r
  | c :: s => c :: decode s
termination_by s => s.length
decreasing_by
  · have := length_resolve_le c s
    simp only [_h, List.length_cons] at this ⊢
    omega
  · simp

end Escape

/-- The text with every backslash escape in it resolved. -/
def unescape (text : String) : String := String.ofList (Escape.decode text.toList)

end TemplateArgs
