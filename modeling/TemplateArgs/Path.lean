/-
Paths: where a value that is not written out is found.

A path climbs by any number of `../` steps, goes down by name units joined with
`.` or `/`, and may end in one more dot: `../user.name`, `[a b]/c`, `this.`.

Every part takes what it can and gives nothing back. That is safe because the
parts announce themselves: a `..` is never the start of a unit, and a separator
belongs to the path only together with the unit behind it. A separator without
one stays in the text, so that `foo/` is the path `foo` and a stray slash. The
one exception is the closing dot, which needs nothing behind it.
-/
import TemplateArgs.NameUnit

set_option autoImplicit false

namespace TemplateArgs.Path

/-! ## The three parts that may be empty -/

/-- The `../` steps at the front of a text, and what follows them. -/
def parents : List Char → List Char × List Char
  | '.' :: '.' :: '/' :: s =>
    let (p, r) := parents s
    ('.' :: '.' :: '/' :: p, r)
  | s => ([], s)

/-- Whether a character joins two units of a path. -/
def isSeparator (c : Char) : Bool := c == '.' || c == '/'

/-- The separated units at the front of a text, each with the separator before
it, and what follows them. -/
def segments (s : List Char) : List Char × List Char :=
  match s with
  | [] => ([], [])
  | c :: s =>
    if isSeparator c then
      match _h : NameUnit.split? s with
      | some (u, r) =>
        let (t, r) := segments r
        (c :: u ++ t, r)
      | none => ([], c :: s)
    else ([], c :: s)
termination_by s.length
decreasing_by
  have := NameUnit.length_lt_of_split? ‹_›
  simp only [List.length_cons]; omega

/-- The dot that may close a path, and what follows it. -/
def closingDot : List Char → List Char × List Char
  | '.' :: s => (['.'], s)
  | s => ([], s)

/-- The path at the front of a text, and what follows it. -/
def split? (s : List Char) : Option (List Char × List Char) :=
  let (p, s) := parents s
  (NameUnit.split? s).map fun (u, s) =>
    let (t, s) := segments s
    let (d, s) := closingDot s
    (p ++ u ++ t ++ d, s)

/-! ## What a path takes from the text -/

@[simp] theorem append_parents (s : List Char) : (parents s).1 ++ (parents s).2 = s := by
  fun_induction parents s with
  | case1 s p r h ih =>
    rw [h] at ih
    simp only [List.cons_append, ih]
  | case2 s => rfl

@[simp] theorem append_segments (s : List Char) : (segments s).1 ++ (segments s).2 = s := by
  fun_induction segments s with
  | case1 => rfl
  | case2 c s hc u r h t r' ht ih =>
    rw [ht] at ih
    simp only [List.cons_append, List.append_assoc, ih, NameUnit.append_of_split? h]
  | case3 => rfl
  | case4 => rfl

@[simp] theorem append_closingDot (s : List Char) : (closingDot s).1 ++ (closingDot s).2 = s := by
  unfold closingDot
  split <;> rfl

/-- The parts of a path, read off a split. -/
theorem split?_eq_some_iff {s t r : List Char} :
    split? s = some (t, r) ↔ ∃ u v, NameUnit.split? (parents s).2 = some (u, v) ∧
      t = (parents s).1 ++ u ++ (segments v).1 ++ (closingDot (segments v).2).1 ∧
      r = (closingDot (segments v).2).2 := by
  simp only [split?, Option.map_eq_some_iff, Prod.exists, Prod.mk.injEq]
  constructor
  · rintro ⟨u, v, h, ht, hr⟩
    exact ⟨u, v, h, ht.symm, hr.symm⟩
  · rintro ⟨u, v, h, ht, hr⟩
    exact ⟨u, v, h, ht.symm, hr.symm⟩

/-- A path and what follows it are the text. -/
theorem append_of_split? {s t r : List Char} (h : split? s = some (t, r)) : t ++ r = s := by
  obtain ⟨u, v, hu, rfl, rfl⟩ := split?_eq_some_iff.1 h
  rw [List.append_assoc, append_closingDot, List.append_assoc, append_segments,
    List.append_assoc, NameUnit.append_of_split? hu, append_parents]

theorem ne_nil_of_split? {s t r : List Char} (h : split? s = some (t, r)) : t ≠ [] := by
  obtain ⟨u, v, hu, rfl, rfl⟩ := split?_eq_some_iff.1 h
  simp [NameUnit.ne_nil_of_split? hu]

end TemplateArgs.Path
