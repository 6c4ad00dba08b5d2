/-
The quote that ends a literal, told by the backslashes before it.

The scan goes from left to right and never looks back: a backslash and the
character behind it are one step, and a quote closes where a step begins. One can
also stand at a quote and look back. If the run of backslashes right before it is
even they pair up among themselves and the quote is free, if it is odd the last
one escapes the quote. Then a literal ends at the first quote of its kind that is
free, unless a line feed comes before it.

The invariant between the two is that the run is even wherever a step of the scan
begins, with the opening quote counted in, which no run reaches past. It is carried
through the content in both directions, `IsContent.parity` and
`isContent_of_parity`, and the rest is to say at which place the content ends.
-/
import TemplateArgs.Proofs.Operand

set_option autoImplicit false

namespace TemplateArgs.Quoted

variable {q c : Char} {s t m p r : List Char} {i : Nat}

/-! ## Runs of backslashes -/

/-- How many backslashes stand side by side at the end of a text. -/
def backslashRun (s : List Char) : Nat := (s.reverse.takeWhile (· == '\\')).length

@[simp] theorem backslashRun_backslash : backslashRun (s ++ ['\\']) = backslashRun s + 1 := by
  simp [backslashRun]

theorem backslashRun_concat (hc : c ≠ '\\') : backslashRun (s ++ [c]) = 0 := by
  simp [backslashRun, hc]

/-- A character behind a backslash ends its run or makes it longer by one. -/
theorem even_backslashRun_escape (hp : backslashRun p % 2 = 0) (c : Char) :
    backslashRun (p ++ ['\\', c]) % 2 = 0 := by
  have happend : p ++ ['\\', c] = p ++ ['\\'] ++ [c] := by simp
  rw [happend]
  by_cases hc : c = '\\'
  · rw [hc, backslashRun_backslash, backslashRun_backslash]
    omega
  · rw [backslashRun_concat hc]

/-- Every step of content leaves the run even, and a quote that is passed over
stands where it is odd. -/
theorem IsContent.parity (hq : q ≠ '\\') (hm : IsContent q m) (hp : backslashRun p % 2 = 0) :
    '\n' ∉ m ∧ backslashRun (p ++ m) % 2 = 0 ∧
      ∀ m₁ m₂, m = m₁ ++ q :: m₂ → backslashRun (p ++ m₁) % 2 = 1 := by
  induction hm generalizing p with
  | nil =>
    refine ⟨by simp, by rwa [List.append_nil], fun m₁ m₂ h => ?_⟩
    simp at h
  | @plain c m hcq hesc hline hm ih =>
    have hstep : backslashRun (p ++ [c]) % 2 = 0 := by rw [backslashRun_concat hesc]
    obtain ⟨hlines, heven, hodd⟩ := ih hstep
    refine ⟨by simp [hlines, Ne.symm hline], ?_, ?_⟩
    · rwa [List.append_cons]
    · intro m₁ m₂ h
      cases m₁ with
      | nil => exact absurd (List.cons.inj h).1 hcq
      | cons d m₁ =>
        obtain ⟨rfl, hrest⟩ := List.cons.inj h
        rw [List.append_cons]
        exact hodd m₁ m₂ hrest
  | @escaped c m hline hm ih =>
    obtain ⟨hlines, heven, hodd⟩ := ih (even_backslashRun_escape hp c)
    have happend : ∀ t, p ++ '\\' :: c :: t = p ++ ['\\', c] ++ t := by simp
    refine ⟨by simp [hlines, Ne.symm hline], ?_, ?_⟩
    · rwa [happend]
    · intro m₁ m₂ h
      -- A quote is the character of the pair, or it stands behind the pair.
      match m₁ with
      | [] => exact absurd (List.cons.inj h).1.symm hq
      | [d] =>
        obtain ⟨rfl, -⟩ := List.cons.inj h
        rw [backslashRun_backslash]
        omega
      | d :: e :: m₁ =>
        simp only [List.cons_append, List.cons.injEq] at h
        obtain ⟨rfl, rfl, hrest⟩ := h
        rw [happend]
        exact hodd m₁ m₂ hrest

/-- Text without a line feed is content if the run is odd before every quote in it,
and even at its end. -/
theorem isContent_of_parity (hp : backslashRun p % 2 = 0) (hline : '\n' ∉ m)
    (heven : backslashRun (p ++ m) % 2 = 0)
    (hodd : ∀ m₁ m₂, m = m₁ ++ q :: m₂ → backslashRun (p ++ m₁) % 2 = 1) : IsContent q m := by
  fun_induction content? q m generalizing p with
  | case1 => exact .nil
  | case2 =>
    rw [backslashRun_backslash] at heven
    omega
  | case3 m => exact absurd (by simp) hline
  | case4 c m hc ih =>
    have happend : ∀ t, p ++ '\\' :: c :: t = p ++ ['\\', c] ++ t := by simp
    refine .escaped hc (ih (even_backslashRun_escape hp c) ?_ ?_ ?_)
    · exact fun h => hline (by simp [h])
    · rwa [← happend]
    · intro m₁ m₂ h
      rw [← happend]
      exact hodd ('\\' :: c :: m₁) m₂ (by rw [h]; rfl)
  | case5 m =>
    have h := hodd [] m rfl
    rw [List.append_nil] at h
    omega
  | case6 m => exact absurd (by simp) hline
  | case7 c m hlone hpair hq hc ih =>
    have hesc := ne_backslash_of_unescaped hlone hpair
    have hstep : backslashRun (p ++ [c]) % 2 = 0 := by rw [backslashRun_concat hesc]
    refine .plain hq hesc hc (ih hstep ?_ ?_ ?_)
    · exact fun h => hline (by simp [h])
    · rwa [← List.append_cons]
    · intro m₁ m₂ h
      rw [← List.append_cons]
      exact hodd (c :: m₁) m₂ (by rw [h]; rfl)

/-! ## The quote that closes -/

/-- Whether there is a quote `q` at a place of a text, not the first, with an even
number of backslashes right before it. -/
def ClosesAt (q : Char) (s : List Char) (i : Nat) : Prop :=
  1 ≤ i ∧ s[i]? = some q ∧ backslashRun (s.take i) % 2 = 0

instance (q : Char) (s : List Char) (i : Nat) : Decidable (ClosesAt q s i) :=
  inferInstanceAs (Decidable (_ ∧ _ ∧ _))

/-- The first place at which a text is closed. -/
def IsFirstClosing (q : Char) (s : List Char) (i : Nat) : Prop :=
  ClosesAt q s i ∧ ∀ j < i, ¬ClosesAt q s j

instance (q : Char) (s : List Char) (i : Nat) : Decidable (IsFirstClosing q s i) :=
  inferInstanceAs (Decidable (_ ∧ _))

/-- A place is known by what stands before it. -/
theorem closesAt_iff : ClosesAt q (q :: s) i ↔
    ∃ m r, s = m ++ q :: r ∧ i = m.length + 1 ∧ backslashRun (q :: m) % 2 = 0 := by
  constructor
  · rintro ⟨hi, hq, heven⟩
    obtain ⟨j, rfl⟩ : ∃ j, i = j + 1 := ⟨i - 1, by omega⟩
    rw [List.getElem?_cons_succ] at hq
    obtain ⟨hj, hget⟩ := List.getElem?_eq_some_iff.1 hq
    refine ⟨s.take j, s.drop (j + 1), ?_, ?_, ?_⟩
    · rw [← hget, List.getElem_cons_drop, List.take_append_drop]
    · rw [List.length_take_of_le (by omega)]
    · rwa [List.take_succ_cons] at heven
  · rintro ⟨m, r, rfl, rfl, heven⟩
    refine ⟨by omega, by simp, ?_⟩
    rwa [List.take_succ_cons, List.take_left]

/-- Of two places with a quote the one further left is before the other. -/
theorem exists_append_of_length_lt {m' r' : List Char} (h : m ++ q :: r = m' ++ q :: r')
    (hlt : m'.length < m.length) : ∃ m₂, m = m' ++ q :: m₂ := by
  rcases List.append_eq_append_iff.1 h with ⟨u, rfl, -⟩ | ⟨u, rfl, hu⟩
  · rw [List.length_append] at hlt
    omega
  · cases u with
    | nil => simp at hlt
    | cons c u =>
      obtain ⟨rfl, -⟩ := List.cons.inj hu
      exact ⟨u, rfl⟩

/-- The content of a literal reaches to the first place at which it is closed. -/
theorem isFirstClosing_iff (hq : isQuote q = true) (hline : '\n' ∉ m) :
    IsFirstClosing q (q :: (m ++ q :: r)) (m.length + 1) ↔ IsContent q m := by
  obtain ⟨hesc, -⟩ := ne_of_isQuote hq
  have hopen : backslashRun [q] % 2 = 0 := by rw [← List.nil_append [q], backslashRun_concat hesc]
  constructor
  · rintro ⟨hclose, hfirst⟩
    obtain ⟨m', r', hsplit, hlen, heven⟩ := closesAt_iff.1 hclose
    obtain ⟨rfl, -⟩ := List.append_inj hsplit (by omega)
    refine isContent_of_parity hopen hline heven fun m₁ m₂ h => ?_
    -- With an even number the place behind `m₁` would be an earlier one.
    by_contra hodd
    refine hfirst (m₁.length + 1) ?_ (closesAt_iff.2 ⟨m₁, m₂ ++ q :: r, ?_, rfl, ?_⟩)
    · rw [h, List.length_append, List.length_cons]
      omega
    · rw [h, List.append_assoc, List.cons_append]
    · have hmod := Nat.mod_two_eq_zero_or_one (backslashRun ([q] ++ m₁))
      exact hmod.resolve_right hodd
  · intro hm
    obtain ⟨-, heven, hodd⟩ := hm.parity hesc hopen
    refine ⟨closesAt_iff.2 ⟨m, r, rfl, rfl, heven⟩, fun j hj hclose => ?_⟩
    obtain ⟨m', r', hsplit, rfl, heven'⟩ := closesAt_iff.1 hclose
    obtain ⟨m₂, rfl⟩ := exists_append_of_length_lt hsplit (by omega)
    have h := hodd m' m₂ rfl
    rw [List.singleton_append] at h
    omega

theorem take_token (q : Char) (m r : List Char) :
    (q :: (m ++ q :: r)).take (m.length + 1 + 1) = q :: m ++ [q] := by
  rw [List.take_succ_cons, List.take_length_add_append]
  rfl

/-- At a quote the only operand there can be is a literal. -/
theorem operand_split?_of_isQuote (hq : isQuote q = true) :
    Operand.split? (q :: s) = split? (q :: s) := by
  have hpath : Path.split? (q :: s) = none :=
    Path.split?_eq_none (noneInFront_cons.2 (by
      rcases isQuote_iff.1 hq with rfl | rfl <;> decide))
  have hspecial : Special.split? (q :: s) = none :=
    Special.split?_eq_none (noneInFront_beq hq (by decide))
  simp only [Operand.split?, hpath, hspecial, Option.orElse_eq_orElse, Option.orElse_eq_or,
    Option.none_or, Option.or_none]

/-- **A literal ends at the first free quote of its kind.** Behind a quote, a literal
is found exactly if there is a quote of the same kind with an even number of
backslashes right before it and no line feed comes before the first such quote, and
it reaches up to there. A quote of the other kind ends nothing. Where no literal is
found there is no operand of any kind. -/
theorem split?_iff_isFirstClosing (hq : isQuote q = true) :
    (split? (q :: s) = some (t, r) ↔ ∃ i, IsFirstClosing q (q :: s) i ∧
      '\n' ∉ (q :: s).take i ∧ t = (q :: s).take (i + 1) ∧ r = (q :: s).drop (i + 1)) ∧
    (split? (q :: s) = some (t, r) → t.getLast? = some q) ∧
    (split? (q :: s) = none →
      Operand.split? (q :: s) = none ∧ ∀ u, IsOperand u → ¬u <+: q :: s) := by
  obtain ⟨hesc, hnewline⟩ := ne_of_isQuote hq
  refine ⟨?_, ?_, ?_⟩
  · rw [split?_cons_iff hq]
    constructor
    · rintro ⟨m, hm, rfl, rfl⟩
      obtain ⟨hline, -, -⟩ := hm.parity hesc (p := []) rfl
      refine ⟨m.length + 1, (isFirstClosing_iff hq hline).2 hm, ?_, (take_token q m r).symm, ?_⟩
      · rw [List.take_succ_cons, List.take_left, List.mem_cons, not_or]
        exact ⟨Ne.symm hnewline, hline⟩
      · simp
    · rintro ⟨i, hi, hline, rfl, rfl⟩
      obtain ⟨m, r, rfl, rfl, -⟩ := closesAt_iff.1 hi.1
      rw [List.take_succ_cons, List.take_left, List.mem_cons, not_or] at hline
      exact ⟨m, (isFirstClosing_iff hq hline.2).1 hi, by simp, take_token q m r⟩
  · intro h
    obtain ⟨m, -, -, rfl⟩ := (split?_cons_iff hq).1 h
    rw [List.getLast?_concat]
  · intro h
    have hnone : Operand.split? (q :: s) = none := by rw [operand_split?_of_isQuote hq, h]
    exact ⟨hnone, Operand.isCut.eq_none_iff.1 hnone⟩

/-- An escaped quote, a quote of the other kind and an escaped backslash are passed
over before the literal ends. -/
theorem split?_iff_isFirstClosing_mixed :
    isQuote '\"' = true ∧
      IsFirstClosing '\"' ['\"', 'a', '\\', '\"', '\'', '\\', '\\', '\"', '\'', '\"'] 7 ∧
      split? ['\"', 'a', '\\', '\"', '\'', '\\', '\\', '\"', '\'', '\"'] =
        some (['\"', 'a', '\\', '\"', '\'', '\\', '\\', '\"'], ['\'', '\"']) := by
  have hfirst : IsFirstClosing '\"'
      ['\"', 'a', '\\', '\"', '\'', '\\', '\\', '\"', '\'', '\"'] 7 := by decide
  exact ⟨by decide, hfirst,
    (split?_iff_isFirstClosing (by decide)).1.2 ⟨7, hfirst, by decide, by decide, by decide⟩⟩

end TemplateArgs.Quoted
