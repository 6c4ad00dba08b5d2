/-
What stands in front of a text, and blanks there and at the end.

Every word of the grammar is cut off the front, and where it ends depends on
the character that follows it and on little else. `NoneInFront` is that
condition: a run over a class of characters is complete exactly if none of the
class stands in front of what follows. `IsCut` is what all the cuts have in common,
that words of a language are taken, and never less than is there.

The rest is about blanks. Skipping them is undone by putting them back, text
added behind does not disturb it, and a text has one trimmed form
(`trims_iff`), the part between its blanks that neither begins nor ends with
one.
-/
import Mathlib.Data.List.Basic
import Mathlib.Data.List.TakeWhile
import TemplateArgs.Language

set_option autoImplicit false

namespace TemplateArgs

/-! ## The character in front -/

/-- No character of a class stands in front of a text: the text is empty or
begins with another character. -/
def NoneInFront (p : Char → Bool) (s : List Char) : Prop := ∀ c ∈ s.head?, p c = false

section Front

variable {p : Char → Bool} {c : Char} {s t u r : List Char}

@[simp] theorem noneInFront_nil : NoneInFront p [] := by
  intro c hc
  simp at hc

@[simp] theorem noneInFront_cons : NoneInFront p (c :: s) ↔ p c = false := by
  simp [NoneInFront]

/-- What begins with a character of a class begins with none outside it. -/
theorem noneInFront_beq {x : Char} (hc : p c = true) (hx : p x = false) :
    NoneInFront (· == x) (c :: s) := by
  refine noneInFront_cons.2 (beq_eq_false_iff_ne.2 ?_)
  rintro rfl
  rw [hx] at hc
  exact absurd hc (by decide)

/-- Only the first character counts, so text behind a text that is not empty
changes nothing. -/
theorem noneInFront_append (hs : s ≠ []) : NoneInFront p (s ++ t) ↔ NoneInFront p s := by
  obtain ⟨c, s, rfl⟩ := List.exists_cons_of_ne_nil hs
  rw [List.cons_append, noneInFront_cons, noneInFront_cons]

/-- A smaller class is in front of fewer texts. -/
theorem NoneInFront.mono {q : Char → Bool} (hs : NoneInFront p s)
    (hqp : ∀ c, q c = true → p c = true) : NoneInFront q s := by
  intro c hc
  by_contra hq
  have := hs c hc
  rw [hqp c (by simpa using hq)] at this
  exact absurd this (by decide)

theorem noneInFront_dropWhile : NoneInFront p (s.dropWhile p) := by
  intro c hc
  have := List.head?_dropWhile_not p s
  rw [Option.mem_def.1 hc] at this
  simpa using this

/-- A run over a class is taken whole, and nothing behind it, if none of the
class follows. -/
theorem takeWhile_append_of_noneInFront (hu : ∀ c ∈ u, p c = true) (hr : NoneInFront p r) :
    (u ++ r).takeWhile p = u := by
  rw [List.takeWhile_append_of_pos hu]
  cases r with
  | nil => simp
  | cons c r => rw [List.takeWhile_cons_of_neg (by simp [noneInFront_cons.1 hr]), List.append_nil]

theorem dropWhile_append_of_noneInFront (hu : ∀ c ∈ u, p c = true) (hr : NoneInFront p r) :
    (u ++ r).dropWhile p = r := by
  rw [List.dropWhile_append_of_pos hu]
  cases r with
  | nil => rfl
  | cons c r => rw [List.dropWhile_cons_of_neg (by simp [noneInFront_cons.1 hr])]

/-- Conversely, what a run over a class leaves has none of the class in front. -/
theorem takeWhile_eq_iff : s.takeWhile p = u ∧ s.dropWhile p = r ↔
    s = u ++ r ∧ (∀ c ∈ u, p c = true) ∧ NoneInFront p r := by
  constructor
  · rintro ⟨rfl, rfl⟩
    exact ⟨List.takeWhile_append_dropWhile.symm, List.all_eq_true.1 List.all_takeWhile,
      noneInFront_dropWhile⟩
  · rintro ⟨rfl, hu, hr⟩
    exact ⟨takeWhile_append_of_noneInFront hu hr, dropWhile_append_of_noneInFront hu hr⟩

end Front

/-! ## Cutting a word off the front -/

/-- Whether what a cut takes are words of a language, and no less of the text than
any word that is in front. -/
structure IsCut (L : List Char → Prop)
    (cut : List Char → Option (List Char × List Char)) : Prop where
  word : ∀ {s t r : List Char}, cut s = some (t, r) → s = t ++ r ∧ L t
  reach : ∀ {t : List Char}, L t → ∀ v, ∃ u r, cut (t ++ v) = some (u, r) ∧ r.length ≤ v.length

namespace IsCut

variable {L : List Char → Prop} {cut : List Char → Option (List Char × List Char)}
  {s : List Char}

/-- Something is taken exactly where a word is in front. -/
theorem exists_iff (h : IsCut L cut) :
    (∃ t r, cut s = some (t, r)) ↔ ∃ t, L t ∧ t <+: s := by
  constructor
  · rintro ⟨t, r, hcut⟩
    obtain ⟨rfl, ht⟩ := h.word hcut
    exact ⟨t, ht, r, rfl⟩
  · rintro ⟨t, ht, v, rfl⟩
    obtain ⟨u, r, hcut, -⟩ := h.reach ht v
    exact ⟨u, r, hcut⟩

theorem eq_none_iff (h : IsCut L cut) : cut s = none ↔ ∀ t, L t → ¬t <+: s := by
  constructor
  · intro hnone t ht hts
    obtain ⟨u, r, hcut⟩ := h.exists_iff.2 ⟨t, ht, hts⟩
    exact absurd (hcut.symm.trans hnone) (by simp)
  · intro hnone
    by_contra hsome
    obtain ⟨⟨t, r⟩, hcut⟩ := Option.ne_none_iff_exists'.1 hsome
    obtain ⟨u, hu, hus⟩ := h.exists_iff.1 ⟨t, r, hcut⟩
    exact hnone u hu hus

end IsCut

/-! ## Skipping blanks -/

section Blanks

variable {s t w : List Char}

/-- No character of a class is a blank if no blank is of the class. -/
theorem not_isBlank_of_class {p : Char → Bool} {c : Char} (hp : blanks.all (!p ·) = true)
    (hc : p c = true) : isBlank c = false := by
  by_contra hb
  rw [Bool.not_eq_false, isBlank, List.contains_iff_mem] at hb
  have hout := List.all_eq_true.1 hp c hb
  rw [hc] at hout
  exact absurd hout (by decide)

@[simp] theorem isBlankText_nil : IsBlankText [] := by
  intro c hc
  simp at hc

@[simp] theorem isBlankText_append : IsBlankText (s ++ t) ↔ IsBlankText s ∧ IsBlankText t := by
  simp only [IsBlankText, List.forall_mem_append]

@[simp] theorem isBlankText_reverse : IsBlankText s.reverse ↔ IsBlankText s := by
  simp only [IsBlankText, List.mem_reverse]

@[simp] theorem skipBlanks_nil : skipBlanks [] = [] := rfl

/-- Blanks that are skipped may as well not be there. -/
theorem skipBlanks_append (hw : IsBlankText w) : skipBlanks (w ++ s) = skipBlanks s :=
  List.dropWhile_append_of_pos hw

@[simp] theorem noneInFront_skipBlanks : NoneInFront isBlank (skipBlanks s) := noneInFront_dropWhile

theorem skipBlanks_of_noneInFront (hs : NoneInFront isBlank s) : skipBlanks s = s :=
  dropWhile_append_of_noneInFront (u := []) (by simp) hs

/-- Blanks in front of a text that has none of its own are all that is skipped. -/
theorem skipBlanks_append_of_noneInFront (hw : IsBlankText w) (hs : NoneInFront isBlank s) :
    skipBlanks (w ++ s) = s :=
  dropWhile_append_of_noneInFront hw hs

theorem skipBlanks_eq_nil_iff : skipBlanks s = [] ↔ IsBlankText s := by
  rw [skipBlanks, List.dropWhile_eq_nil_iff, IsBlankText]

/-- Text behind is out of reach as long as something is left in front of it. -/
theorem skipBlanks_append_of_ne_nil (hs : skipBlanks s ≠ []) :
    skipBlanks (s ++ t) = skipBlanks s ++ t := by
  obtain ⟨w, hw, hs'⟩ := exists_blanks_append_skipBlanks s
  conv => lhs; rw [← hs', List.append_assoc]
  rw [skipBlanks_append hw]
  exact skipBlanks_of_noneInFront ((noneInFront_append hs).2 noneInFront_skipBlanks)

/-! ## Trimming -/

/-- The text `s` is `t` with blanks at both ends or none, and none of the blanks
are left in `t`. -/
def Trims (s t : List Char) : Prop :=
  ∃ w₁ w₂, IsBlankText w₁ ∧ IsBlankText w₂ ∧ s = w₁ ++ (t ++ w₂) ∧
    NoneInFront isBlank t ∧ NoneInFront isBlank t.reverse

theorem trims_trimBlanks (s : List Char) : Trims s (trimBlanks s) := by
  obtain ⟨w₁, hw₁, hs⟩ := exists_blanks_append_skipBlanks s
  obtain ⟨w₂, hw₂, hr⟩ := exists_blanks_append_skipBlanks (skipBlanks s).reverse
  -- The end is trimmed with the text turned round, so its blanks come out reversed.
  have hcut : skipBlanks s = trimBlanks s ++ w₂.reverse := by
    rw [← List.reverse_reverse (skipBlanks s), ← hr, List.reverse_append, trimBlanks]
  refine ⟨w₁, w₂.reverse, hw₁, isBlankText_reverse.2 hw₂, by rw [← hcut, hs], ?_, ?_⟩
  · by_cases ht : trimBlanks s = []
    · rw [ht]; exact noneInFront_nil
    · have h : NoneInFront isBlank (skipBlanks s) := noneInFront_skipBlanks
      rwa [hcut, noneInFront_append ht] at h
  · rw [trimBlanks, List.reverse_reverse]
    exact noneInFront_skipBlanks

/-- A text has one trimmed form. -/
theorem trims_iff : Trims s t ↔ trimBlanks s = t := by
  constructor
  · rintro ⟨w₁, w₂, hw₁, hw₂, rfl, hfront, hback⟩
    rw [trimBlanks, skipBlanks_append hw₁]
    by_cases ht : t = []
    -- With nothing in the middle, all the blanks are skipped at the front.
    · rw [ht, List.nil_append, skipBlanks_eq_nil_iff.2 hw₂]
      rfl
    · rw [skipBlanks_of_noneInFront ((noneInFront_append ht).2 hfront), List.reverse_append,
        skipBlanks_append_of_noneInFront (isBlankText_reverse.2 hw₂) hback, List.reverse_reverse]
  · rintro rfl
    exact trims_trimBlanks s

/-- What is trimmed at the end stood behind all that is left. -/
theorem prefix_skipBlanks (s : List Char) : trimBlanks s <+: skipBlanks s := by
  have h : skipBlanks (skipBlanks s).reverse <:+ (skipBlanks s).reverse :=
    List.dropWhile_suffix isBlank
  rwa [← List.reverse_prefix, List.reverse_reverse] at h

/-- Trimming the end of a text leaves in front what was there. -/
theorem Trims.noneInFront_iff {p : Char → Bool} (h : Trims s t) (ht : t ≠ []) :
    NoneInFront p (skipBlanks s) ↔ NoneInFront p t := by
  obtain ⟨w₁, w₂, hw₁, -, rfl, hfront, -⟩ := h
  rw [skipBlanks_append hw₁, skipBlanks_of_noneInFront ((noneInFront_append ht).2 hfront),
    noneInFront_append ht]

/-- Blanks put at the ends of a text are taken off again. -/
theorem trimBlanks_blanks_append (hw : IsBlankText w) : trimBlanks (w ++ s) = trimBlanks s := by
  rw [trimBlanks, skipBlanks_append hw]
  rfl

theorem trimBlanks_append_blanks (hw : IsBlankText w) : trimBlanks (s ++ w) = trimBlanks s := by
  obtain ⟨w₁, w₂, hw₁, hw₂, hsplit, hfront, hback⟩ := trims_trimBlanks s
  rw [← trims_iff]
  refine ⟨w₁, w₂ ++ w, hw₁, isBlankText_append.2 ⟨hw₂, hw⟩, ?_, hfront, hback⟩
  rw [← List.append_assoc (trimBlanks s), ← List.append_assoc, ← hsplit]

/-- With no blank at its end, a text is trimmed at the front only. -/
theorem trimBlanks_of_noneInFront_reverse (hs : NoneInFront isBlank s.reverse) :
    trimBlanks s = skipBlanks s := by
  obtain ⟨w, hw, hsplit⟩ := exists_blanks_append_skipBlanks s
  -- What is skipped stands in front, so the end is what it was.
  have hback : NoneInFront isBlank (skipBlanks s).reverse := by
    by_cases hne : (skipBlanks s).reverse = []
    · rw [hne]
      exact noneInFront_nil
    · rwa [← hsplit, List.reverse_append, noneInFront_append hne] at hs
  rw [trimBlanks, skipBlanks_of_noneInFront hback, List.reverse_reverse]

/-- A text that does not end with a blank does not end with several. -/
theorem eq_nil_of_isBlankText (hs : NoneInFront isBlank (s ++ w).reverse) (hw : IsBlankText w) :
    w = [] := by
  by_contra hne
  have hne' : w.reverse ≠ [] := mt List.reverse_eq_nil_iff.1 hne
  rw [List.reverse_append, noneInFront_append hne'] at hs
  obtain ⟨c, r, hr⟩ := List.exists_cons_of_ne_nil hne'
  rw [hr, noneInFront_cons] at hs
  have hc : isBlank c = true := isBlankText_reverse.2 hw c (hr ▸ List.mem_cons_self)
  exact absurd (hs.symm.trans hc) (by decide)

/-- Behind a text with no blank at either end, only the end is trimmed. -/
theorem exists_trimBlanks_append (hne : s ≠ []) (hfront : NoneInFront isBlank s)
    (hback : NoneInFront isBlank s.reverse) (t : List Char) :
    ∃ w, IsBlankText w ∧ trimBlanks (s ++ t) = s ++ (w ++ trimBlanks t) := by
  obtain ⟨w₁, w₂, hw₁, hw₂, hsplit, -, hback'⟩ := trims_trimBlanks t
  by_cases hnil : trimBlanks t = []
  -- Then `t` is blank, and no blank of it is left.
  · rw [hnil, List.nil_append] at hsplit
    have hblank : IsBlankText t := hsplit ▸ isBlankText_append.2 ⟨hw₁, hw₂⟩
    refine ⟨[], isBlankText_nil, ?_⟩
    rw [trimBlanks_append_blanks hblank, trimBlanks_of_noneInFront_reverse hback,
      skipBlanks_of_noneInFront hfront, hnil, List.append_nil, List.append_nil]
  · refine ⟨w₁, hw₁, trims_iff.1 ⟨[], w₂, isBlankText_nil, hw₂, ?_, ?_, ?_⟩⟩
    · conv => lhs; rw [hsplit]
      simp
    · exact (noneInFront_append hne).2 hfront
    · rw [← List.append_assoc, List.reverse_append,
        noneInFront_append (mt List.reverse_eq_nil_iff.1 hnil)]
      exact hback'

/-- Two texts with blanks between them, trimmed each or not. At least as many
blanks are between them then. -/
theorem trimBlanks_append_of_trims {s' t' : List Char} (hs : Trims s s') (ht : Trims t t')
    (hw : IsBlankText w) : ∃ gap, IsBlankText gap ∧ (gap = [] → w = []) ∧
      trimBlanks (s ++ (w ++ t)) = trimBlanks (s' ++ (gap ++ t')) := by
  obtain ⟨w₁, w₂, hw₁, hw₂, rfl, -, -⟩ := hs
  obtain ⟨w₃, w₄, hw₃, hw₄, rfl, -, -⟩ := ht
  refine ⟨w₂ ++ (w ++ w₃), ?_, ?_, ?_⟩
  · exact isBlankText_append.2 ⟨hw₂, isBlankText_append.2 ⟨hw, hw₃⟩⟩
  · intro h
    exact (List.append_eq_nil_iff.1 (List.append_eq_nil_iff.1 h).2).1
  · have hassoc : w₁ ++ (s' ++ w₂) ++ (w ++ (w₃ ++ (t' ++ w₄))) =
        w₁ ++ (s' ++ (w₂ ++ (w ++ w₃) ++ t') ++ w₄) := by simp
    rw [hassoc, trimBlanks_blanks_append hw₁, trimBlanks_append_blanks hw₄]

end Blanks

end TemplateArgs
