/-
The path at a value's place is the longest there is.

The language puts a separator behind a unit and the cut takes it together with the
unit that follows, so the two part ways over a separator with no unit behind it.
For the language the path may end there, with the separator as its closing dot or
without it, and the longest path is the one with the dot. For the cut the step is
given up and the dot is taken by itself afterwards. `Path.split?_append_dangling`
says what comes of it, for every separator that may dangle behind every path: one
dot goes with the path and all else is left.

That the longest path is cut off in general needs no look at separators. It
follows from what holds of every cut (`IsCut.longestInFront_iff`), and where neither a
quote nor an `@` stands in front, a path is the only operand there can be.
-/
import TemplateArgs.Proofs.Munch

set_option autoImplicit false

namespace TemplateArgs

variable {s t p v d r : List Char} {c : Char}

namespace Path

/-! ## A separator that leads nowhere -/

theorem IsDescent.concat_dot (hd : IsDescent d) (hlast : d.getLast? ≠ some '.') :
    IsDescent (d ++ ['.']) := by
  induction hd with
  | unit hu => exact .dot hu
  | dot _ => exact absurd List.getLast?_concat hlast
  | @step u t c hu hc ht ih =>
    -- What stands last is last in the rest of the descent.
    have hlast' : t.getLast? ≠ some '.' := by
      rwa [List.getLast?_append_of_ne_nil _ (List.cons_ne_nil c t),
        List.getLast?_cons_of_ne_nil (ne_nil_of_isDescent ht)] at hlast
    rw [List.append_assoc, List.cons_append]
    exact .step hu hc (ih hlast')

/-- A path that has no closing dot may be given one. -/
theorem isPath_concat_dot (hp : IsPath p) (hlast : p.getLast? ≠ some '.') :
    IsPath (p ++ ['.']) := by
  obtain ⟨k, d, hd, rfl⟩ := isPath_iff.1 hp
  rw [List.getLast?_append_of_ne_nil _ (ne_nil_of_isDescent hd)] at hlast
  exact isPath_iff.2 ⟨k, d ++ ['.'], hd.concat_dot hlast, List.append_assoc _ _ _⟩

theorem not_opens_of_isSeparator (hc : c = '.' ∨ c = '/') :
    isNameChar c = false ∧ NameUnit.opens c = false := by
  rcases hc with rfl | rfl <;> decide

/-- A closing dot is the last separator of a path, so another one ends it. -/
theorem endsBefore_separator_of_dot (hlast : p.getLast? = some '.') (hc : c = '.' ∨ c = '/') :
    EndsBefore p (c :: v) := by
  obtain ⟨hname, hopens⟩ := not_opens_of_isSeparator hc
  exact ⟨fun _ => NameUnit.split?_eq_none (noneInFront_cons.2 hopens),
    fun hne => absurd hlast hne, fun _ _ _ => noneInFront_cons.2 hname⟩

/-- A slash with no unit behind it ends a path, with a closing dot or without. -/
theorem endsBefore_slash (hv : NameUnit.split? v = none) : EndsBefore p ('/' :: v) := by
  obtain ⟨hname, hopens⟩ := not_opens_of_isSeparator (c := '/') (.inr rfl)
  refine ⟨fun _ => NameUnit.split?_eq_none (noneInFront_cons.2 hopens),
    fun _ => ⟨noneInFront_cons.2 (by decide), ?_⟩, fun _ _ _ => noneInFront_cons.2 hname⟩
  intro w hw
  rw [← (List.cons.inj hw).2, hv]

/-- Of the separators that have no unit behind them a path takes one dot, if it
has none yet, and leaves the others. -/
theorem split?_append_dangling (hp : IsPath p) (hc : c = '.' ∨ c = '/')
    (hv : NameUnit.split? v = none) : split? (p ++ c :: v) =
      if c = '.' ∧ p.getLast? ≠ some '.' then some (p ++ ['.'], v) else some (p, c :: v) := by
  split
  · next h =>
    obtain ⟨rfl, hlast⟩ := h
    exact split?_iff.2 ⟨by simp, isPath_concat_dot hp hlast, endsBefore_dot.2 hv⟩
  · next h =>
    refine split?_iff.2 ⟨rfl, hp, ?_⟩
    by_cases hlast : p.getLast? = some '.'
    · exact endsBefore_separator_of_dot hlast hc
    · obtain rfl := hc.resolve_left fun hdot => h ⟨hdot, hlast⟩
      exact endsBefore_slash hv

end Path

namespace Operand

/-- With neither a quote nor an `@` in front there is only a path to be found. -/
theorem split?_eq_path (hquote : NoneInFront isQuote s) (hat : NoneInFront (· == '@') s) :
    split? s = Path.split? s := by
  simp only [split?, Quoted.split?_eq_none hquote, Special.split?_eq_none hat,
    Option.orElse_eq_orElse, Option.orElse_eq_or, Option.or_none]

/-- **The value that is no literal and no special variable is the longest path.** In
front of a text that begins with neither a quote nor an `@`, a value is found
exactly if some path is there, and it is the longest one. A separator with no unit
behind it is not part of it, except that a path without a closing dot takes one. -/
theorem split?_eq_longest_path (hquote : NoneInFront isQuote s)
    (hat : NoneInFront (· == '@') s) :
    ((∃ t r, split? s = some (t, r)) ↔ ∃ t, IsPath t ∧ t <+: s) ∧
    (∀ t r, split? s = some (t, r) ↔ LongestInFront IsPath s t ∧ s = t ++ r) ∧
    ∀ p c v, s = p ++ c :: v → IsPath p → c = '.' ∨ c = '/' → (∀ u, IsNameUnit u → ¬u <+: v) →
      split? s =
        if c = '.' ∧ p.getLast? ≠ some '.' then some (p ++ ['.'], v) else some (p, c :: v) := by
  rw [split?_eq_path hquote hat]
  refine ⟨Path.isCut.exists_iff, fun t r => ?_, ?_⟩
  · rw [Path.isCut.longestInFront_iff]
    constructor
    · intro h
      exact ⟨⟨r, h⟩, (Path.append_of_split? h).symm⟩
    · rintro ⟨⟨r', h⟩, hs⟩
      -- What is left is known from the text and the path.
      obtain rfl := List.append_cancel_left ((Path.append_of_split? h).trans hs)
      exact h
  · rintro p c v rfl hp hc hv
    exact Path.split?_append_dangling hp hc (NameUnit.isCut.eq_none_iff.2 hv)

/-- Of three dots in a row the first closes a path and the others begin a step up. -/
theorem split?_eq_longest_path_dots :
    NoneInFront isQuote ['f', '.', '.', '.', '/', 'x'] ∧
      NoneInFront (· == '@') ['f', '.', '.', '.', '/', 'x'] ∧
      IsPath ['f'] ∧ (∀ u, IsNameUnit u → ¬u <+: ['.', '.', '/', 'x']) ∧
      split? ['f', '.', '.', '.', '/', 'x'] = some (['f', '.'], ['.', '.', '/', 'x']) ∧
      LongestInFront IsPath ['f', '.', '.', '.', '/', 'x'] ['f', '.'] := by
  have hquote : NoneInFront isQuote ['f', '.', '.', '.', '/', 'x'] :=
    noneInFront_cons.2 (by decide)
  have hat : NoneInFront (· == '@') ['f', '.', '.', '.', '/', 'x'] :=
    noneInFront_cons.2 (by decide)
  have hp : IsPath ['f'] :=
    Path.isPath_of_isNameUnit
      (.inl ⟨List.cons_ne_nil _ _, List.forall_mem_singleton.2 (by decide)⟩)
  have hv : ∀ u, IsNameUnit u → ¬u <+: ['.', '.', '/', 'x'] :=
    NameUnit.isCut.eq_none_iff.1 (by decide)
  obtain ⟨-, hlongest, hdangling⟩ := split?_eq_longest_path hquote hat
  have hsplit : split? ['f', '.', '.', '.', '/', 'x'] = some (['f', '.'], ['.', '.', '/', 'x']) :=
    hdangling ['f'] '.' ['.', '.', '/', 'x'] rfl hp (.inl rfl) hv
  exact ⟨hquote, hat, hp, hv, hsplit, ((hlongest _ _).1 hsplit).1⟩

end Operand

end TemplateArgs
