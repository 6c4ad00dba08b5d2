/-
Quoted literals: values written out between two quotes.

A literal opens with `"` or `'` and ends at the next quote of the same kind that
no backslash escapes. A backslash escapes the one character behind it, whichever
that is, so the scan goes through the content in steps of one character or of
an escaped pair, and a quote counts only where a step begins.

Content stays on one line. A line feed refuses the literal, escaped or not, and
so does a text that ends before the literal does.

The scan finds where a literal ends and nothing else: what its escapes stand
for is the matter of `TemplateArgs.Escape`.
-/
import TemplateArgs.Alphabet

set_option autoImplicit false

namespace TemplateArgs.Quoted

/-! ## The scan -/

/-- The content before the first unescaped quote `q`, and what follows that
quote. There is none if a line feed or the end of the text comes first. -/
def content? (q : Char) : List Char → Option (List Char × List Char)
  | [] => none
  | '\\' :: [] => none
  | '\\' :: c :: s =>
    if c = '\n' then none else (content? q s).map fun (m, r) => ('\\' :: c :: m, r)
  | c :: s =>
    if c = q then some ([], s)
    else if c = '\n' then none
    else (content? q s).map fun (m, r) => (c :: m, r)

/-- The quoted literal at the front of a text, both quotes included, and what
follows it. -/
def split? : List Char → Option (List Char × List Char)
  | [] => none
  | q :: s =>
    if isQuote q then (content? q s).map fun (m, r) => (q :: m ++ [q], r) else none

/-! ## What a literal takes from the text -/

/-- The content, the quote and what follows it are the text. -/
theorem append_of_content? {q : Char} {s m r : List Char} (h : content? q s = some (m, r)) :
    m ++ q :: r = s := by
  fun_induction content? q s generalizing m r with
  | case1 | case2 | case3 | case6 => cases h
  | case4 c s hc ih =>
    obtain ⟨⟨m', r'⟩, h', he⟩ := Option.map_eq_some_iff.1 h
    cases he
    simp only [List.cons_append, ih h']
  | case5 => cases h; rfl
  | case7 c s _ _ _ _ ih =>
    obtain ⟨⟨m', r'⟩, h', he⟩ := Option.map_eq_some_iff.1 h
    cases he
    simp only [List.cons_append, ih h']

/-- A literal is its content between two equal quotes. -/
theorem split?_eq_some_iff {s t r : List Char} :
    split? s = some (t, r) ↔ ∃ q m v, isQuote q = true ∧ s = q :: v ∧
      content? q v = some (m, r) ∧ t = q :: m ++ [q] := by
  cases s with
  | nil => simp [split?]
  | cons q v =>
    simp only [split?, Option.ite_none_right_eq_some, Option.map_eq_some_iff, Prod.exists,
      Prod.mk.injEq, List.cons.injEq]
    constructor
    · rintro ⟨hq, m, r', h, rfl, rfl⟩
      exact ⟨q, m, v, hq, ⟨rfl, rfl⟩, h, rfl⟩
    · rintro ⟨q', m, v', hq, ⟨rfl, rfl⟩, h, rfl⟩
      exact ⟨hq, m, r, h, rfl, rfl⟩

/-- A literal and what follows it are the text. -/
theorem append_of_split? {s t r : List Char} (h : split? s = some (t, r)) : t ++ r = s := by
  obtain ⟨q, m, v, -, rfl, hm, rfl⟩ := split?_eq_some_iff.1 h
  simp [← append_of_content? hm]

theorem ne_nil_of_split? {s t r : List Char} (h : split? s = some (t, r)) : t ≠ [] := by
  obtain ⟨q, m, v, -, -, -, rfl⟩ := split?_eq_some_iff.1 h
  simp

end TemplateArgs.Quoted
