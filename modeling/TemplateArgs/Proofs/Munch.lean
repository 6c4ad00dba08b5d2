/-
The longest word in front is the one that is cut off.

The language says which texts are operands and named arguments, and of several
that are in front the longest counts. The scanner knows nothing of alternatives
and never gives anything back. That the two agree comes down to two facts about
a cut, that it takes only words of the language and that a word in front makes
it take at least as much (`IsCut`, `IsCut.longestInFront_iff`).

For arguments there is a choice between two forms as well, and the longest
reading has to be of the form that is tried first (`Argument.next_iff`). Repeated
to the end of a text this makes `Divides`, the division of a text into
arguments, a matter of running `Argument.sequence` (`divides_iff`). Which texts
are accepted, and as what, can then be said without running anything.
-/
import TemplateArgs.Proofs.Run

set_option autoImplicit false

namespace TemplateArgs

variable {s t : List Char} {a : Argument} {as : List Argument}

/-! ## The longest word -/

/-- What a cut takes is the longest word in front. -/
theorem IsCut.longestInFront_iff {L : List Char → Prop}
    {cut : List Char → Option (List Char × List Char)} (h : IsCut L cut) :
    LongestInFront L s t ↔ ∃ r, cut s = some (t, r) := by
  constructor
  · rintro ⟨ht, ⟨v, rfl⟩, hmax⟩
    -- What is cut off is no shorter than `t`, and no longer since `t` is longest.
    obtain ⟨u, r, hcut, hr⟩ := h.reach ht v
    obtain ⟨hs, hu⟩ := h.word hcut
    have hlen := congrArg List.length hs
    have hle := hmax u hu ⟨r, hs.symm⟩
    rw [List.length_append, List.length_append] at hlen
    obtain ⟨rfl, -⟩ := List.append_inj hs (by omega)
    exact ⟨r, hcut⟩
  · rintro ⟨r, hcut⟩
    obtain ⟨rfl, ht⟩ := h.word hcut
    refine ⟨ht, ⟨r, rfl⟩, ?_⟩
    rintro u hu ⟨v, hv⟩
    obtain ⟨t', r', hcut', hr⟩ := h.reach hu v
    rw [hv, hcut] at hcut'
    obtain ⟨-, rfl⟩ := Prod.mk.inj (Option.some.inj hcut')
    have hlen := congrArg List.length hv
    rw [List.length_append, List.length_append] at hlen
    omega

/-! ## The next argument -/

namespace Argument

variable {n v r : List Char}

theorem isNamed_of_named? (h : named? s = some (a, r)) : ∃ t, s = t ++ r ∧ IsNamed t := by
  obtain ⟨n, v, -, -, -, -, -, rfl⟩ := named?_eq_some_iff.1 h
  obtain ⟨t, hs, ht, -⟩ := exists_spelled_of_named? h
  exact ⟨t, hs, n, v, ht⟩

/-- The longest named argument in front is the one that is found. -/
theorem named?_of_longestInFront (ht : Spelled (named n v) t)
    (hlong : LongestInFront IsNamed s t) : ∃ r, named? s = some (named n v, r) ∧ s = t ++ r := by
  obtain ⟨-, ⟨r, rfl⟩, hmax⟩ := hlong
  obtain ⟨v', r', hnamed, hv, hr⟩ := exists_named?_append ht r
  obtain ⟨t', hs, ht'⟩ := isNamed_of_named? hnamed
  have hle := hmax t' ht' ⟨r', hs.symm⟩
  have hlen := congrArg List.length hs
  rw [List.length_append, List.length_append] at hlen
  obtain ⟨rfl, rfl⟩ := List.append_inj' hv (by omega)
  exact ⟨r, hnamed, rfl⟩

theorem longestInFront_of_named? (h : named? (t ++ r) = some (a, r)) (ht : IsNamed t) :
    LongestInFront IsNamed (t ++ r) t := by
  refine ⟨ht, ⟨r, rfl⟩, ?_⟩
  rintro u ⟨n, v, hu⟩ ⟨x, hx⟩
  obtain ⟨v', r', h', -, hr⟩ := exists_named?_append hu x
  rw [hx, h] at h'
  obtain ⟨-, rfl⟩ := Prod.mk.inj (Option.some.inj h')
  have hlen := congrArg List.length hx
  rw [List.length_append, List.length_append] at hlen
  omega

/-- The next argument of a text is the one that is found in front of it. -/
theorem next_iff : Next s a t ↔ ∃ r, split? s = some (a, r) ∧ s = t ++ r := by
  constructor
  -- The named form is tried first, and it fails only where none is in front.
  · rintro (⟨ht, hlong⟩ | ⟨hnone, hlong⟩)
    · obtain ⟨r, hnamed, hs⟩ := named?_of_longestInFront ht hlong
      exact ⟨r, split?_eq_some_iff.2 (.inl hnamed), hs⟩
    · obtain ⟨r, hv⟩ := Operand.isCut.longestInFront_iff.1 hlong
      refine ⟨r, split?_eq_some_iff.2 (.inr ⟨?_, positional?_eq_some_iff.2 ⟨t, hv, rfl⟩⟩),
        (Operand.append_of_split? hv).symm⟩
      cases hnamed : named? s with
      | none => rfl
      | some ar =>
        obtain ⟨t', hs, ht'⟩ := isNamed_of_named? hnamed
        exact absurd ⟨ar.2, hs.symm⟩ (hnone t' ht')
  · rintro ⟨r, h, rfl⟩
    rcases split?_eq_some_iff.1 h with h | ⟨hnone, h⟩
    · obtain ⟨n, v, -, -, -, -, -, rfl⟩ := named?_eq_some_iff.1 h
      obtain ⟨t', hs, ht, -⟩ := exists_spelled_of_named? h
      obtain rfl := List.append_cancel_right hs
      exact .named ht (longestInFront_of_named? h ⟨n, v, ht⟩)
    · obtain ⟨v, hv, rfl⟩ := positional?_eq_some_iff.1 h
      obtain rfl := List.append_cancel_right (Operand.append_of_split? hv)
      refine .positional ?_ (Operand.isCut.longestInFront_iff.2 ⟨r, hv⟩)
      rintro u ⟨n, w, hu⟩ ⟨x, hx⟩
      obtain ⟨v', r', h', -⟩ := exists_named?_append hu x
      rw [hx, hnone] at h'
      exact absurd h' (by simp)

end Argument

/-! ## The division of a text -/

open Argument in
/-- A text has at most one division into arguments, and going through it from
the front finds it. -/
theorem divides_iff : Divides s as ↔ sequence s = (as, []) := by
  constructor
  · intro h
    induction h with
    | nil => exact sequence_nil
    | @cons t w s a as hnext hw _ ih =>
      obtain ⟨r, hsplit, hr⟩ := next_iff.1 hnext
      obtain rfl := List.append_cancel_left hr
      have hs : NoneInFront isBlank s := by
        rcases eq_nil_or_operand_of_sequence ih with rfl | ⟨v, t, h⟩
        · exact noneInFront_nil
        · exact noneInFront_isBlank h
      rw [sequence_of_split? hsplit, skipBlanks_append_of_noneInFront hw hs, ih]
  · intro h
    induction as generalizing s with
    | nil =>
      obtain ⟨-, rfl⟩ := sequence_eq_nil_iff.1 h
      exact .nil
    | cons a as ih =>
      obtain ⟨r, hsplit, hr⟩ := sequence_eq_cons_iff.1 h
      obtain ⟨t, rfl, -, -⟩ := exists_spelled_of_split? hsplit
      obtain ⟨w, hw, hr'⟩ := exists_blanks_append_skipBlanks r
      rw [← hr'] at hsplit ⊢
      exact .cons (next_iff.2 ⟨_, hsplit, rfl⟩) hw (ih hr)

/-! ## The texts that are accepted -/

/-- **The grammar of argument lists.** A text is read as a list exactly if,
without the blanks at its ends, it is one longest argument after the other with
nothing but blanks in between and no positional argument behind a named one. The
list holds the values of the positional arguments in order and the entries of
the named ones, each inserted in its turn. -/
theorem ArgumentList.parse_default_eq_ok_iff {input : String} {l : ArgumentList} :
    parse default input = .ok l ↔ ∃ t as, Trims input.toList t ∧ Divides t as ∧
      Argument.PositionalsFirst as ∧
      l = ⟨⟨(as.filterMap Argument.positionValue?).toArray,
        Table.ofList (as.filterMap Argument.entry?)⟩, input⟩ := by
  rw [parse_eq_ok_iff_allAccepted]
  constructor
  · rintro ⟨as, hs, h, rfl⟩
    exact ⟨_, as, trims_trimBlanks _, divides_iff.2 hs,
      Bindings.allAccepted_default_empty_iff.1 h, by rw [Bindings.replay_empty]⟩
  · rintro ⟨t, as, ht, hdiv, hfirst, rfl⟩
    obtain rfl := trims_iff.1 ht
    exact ⟨as, divides_iff.1 hdiv, Bindings.allAccepted_default_empty_iff.2 hfirst,
      by rw [Bindings.replay_empty]⟩

end TemplateArgs
