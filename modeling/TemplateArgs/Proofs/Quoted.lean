/-
What `Quoted.split?` finds: every quoted literal in front of a text.

A literal carries its own end. Its content is a sequence of pieces, single
characters and escaped pairs, and the scan takes one piece at a time. `IsContent`
has a constructor for either kind of step, and what the scan takes before a quote
is content and nothing else (`content?_iff`). What follows the literal plays no
part: unlike the other words of the grammar a literal is complete before any text
(`split?_iff`).
-/
import TemplateArgs.Proofs.Front

set_option autoImplicit false

namespace TemplateArgs.Quoted

variable {q c : Char} {s t m r : List Char}

theorem isQuote_iff : isQuote q = true ↔ q = '\"' ∨ q = '\'' := by
  simp [isQuote]

/-- A quote is neither of the two characters that the scan treats apart. -/
theorem ne_of_isQuote (hq : isQuote q = true) : q ≠ '\\' ∧ q ≠ '\n' := by
  rcases isQuote_iff.1 hq with rfl | rfl <;> decide

/-! ## The content -/

theorem content?_cons (hc : c ≠ '\\') : content? q (c :: s) =
    if c = q then some ([], s)
    else if c = '\n' then none
    else (content? q s).map fun (m, r) => (c :: m, r) := by
  rw [content?]
  · intro h _
    exact hc h
  · intro _ _ h _
    exact hc h

/-- What the scan takes as a character of its own is no backslash, which would have
opened an escape, with a character behind it or without. -/
theorem ne_backslash_of_unescaped (hlone : c = '\\' → s = [] → False)
    (hpair : ∀ d r, c = '\\' → s = d :: r → False) : c ≠ '\\' := by
  intro hc
  cases s with
  | nil => exact hlone hc rfl
  | cons d s => exact hpair d s hc rfl

/-- What can stand between two quotes `q`, step by step as it is scanned. -/
inductive IsContent (q : Char) : List Char → Prop
  | nil : IsContent q []
  | plain {c : Char} {m : List Char} : c ≠ q → c ≠ '\\' → c ≠ '\n' → IsContent q m →
      IsContent q (c :: m)
  | escaped {c : Char} {m : List Char} : c ≠ '\n' → IsContent q m → IsContent q ('\\' :: c :: m)

/-- The steps of the scan are the pieces that content is made of. -/
theorem isContent_iff : IsContent q m ↔
    ∃ ps : List (List Char), (∀ p ∈ ps, IsQuotedPiece q p) ∧ m = ps.flatten := by
  constructor
  · intro h
    induction h with
    | nil => exact ⟨[], by simp, rfl⟩
    | @plain c m hq hesc hline _ ih =>
      obtain ⟨ps, hps, rfl⟩ := ih
      exact ⟨[c] :: ps, List.forall_mem_cons.2 ⟨.inl ⟨c, hq, hesc, hline, rfl⟩, hps⟩, rfl⟩
    | @escaped c m hline _ ih =>
      obtain ⟨ps, hps, rfl⟩ := ih
      exact ⟨['\\', c] :: ps, List.forall_mem_cons.2 ⟨.inr ⟨c, hline, rfl⟩, hps⟩, rfl⟩
  · rintro ⟨ps, hps, rfl⟩
    induction ps with
    | nil => exact .nil
    | cons p ps ih =>
      obtain ⟨hp, hrest⟩ := List.forall_mem_cons.1 hps
      rcases hp with ⟨c, hq, hesc, hline, rfl⟩ | ⟨c, hline, rfl⟩
      · exact .plain hq hesc hline (ih hrest)
      · exact .escaped hline (ih hrest)

theorem isContent_of_content? (h : content? q s = some (m, r)) : IsContent q m := by
  fun_induction content? q s generalizing m r with
  | case1 | case2 | case3 | case6 => exact absurd h (by simp)
  | case4 c s hline ih =>
    obtain ⟨⟨m', r'⟩, h', he⟩ := Option.map_eq_some_iff.1 h
    obtain ⟨rfl, -⟩ := Prod.mk.inj he
    exact .escaped hline (ih h')
  | case5 s =>
    obtain ⟨rfl, -⟩ := Prod.mk.inj (Option.some.inj h)
    exact .nil
  | case7 c s hlone hpair hq hline ih =>
    obtain ⟨⟨m', r'⟩, h', he⟩ := Option.map_eq_some_iff.1 h
    obtain ⟨rfl, -⟩ := Prod.mk.inj he
    exact .plain hq (ne_backslash_of_unescaped hlone hpair) hline (ih h')

/-- Content is taken step by step, and the quote behind it ends it. -/
theorem content?_append (hq : isQuote q = true) (hm : IsContent q m) (r : List Char) :
    content? q (m ++ q :: r) = some (m, r) := by
  induction hm with
  | nil => rw [List.nil_append, content?_cons (ne_of_isQuote hq).1, if_pos rfl]
  | plain hc hesc hline _ ih =>
    rw [List.cons_append, content?_cons hesc, if_neg hc, if_neg hline, ih]
    rfl
  | escaped hline _ ih =>
    rw [List.cons_append, List.cons_append, content?, if_neg hline, ih]
    rfl

/-- The content of a literal is what stands before the quote that ends it. -/
theorem content?_iff (hq : isQuote q = true) :
    content? q s = some (m, r) ↔ s = m ++ q :: r ∧ IsContent q m := by
  constructor
  · intro h
    exact ⟨(append_of_content? h).symm, isContent_of_content? h⟩
  · rintro ⟨rfl, hm⟩
    exact content?_append hq hm r

/-! ## The literal in front -/

/-- A literal in front is content between two quotes. -/
theorem split?_cons_iff (hq : isQuote q = true) :
    split? (q :: s) = some (t, r) ↔ ∃ m, IsContent q m ∧ s = m ++ q :: r ∧ t = q :: m ++ [q] := by
  rw [split?_eq_some_iff]
  constructor
  · rintro ⟨q', m, v, -, hv, hm, rfl⟩
    obtain ⟨rfl, rfl⟩ := List.cons.inj hv
    obtain ⟨hs, hm⟩ := (content?_iff hq).1 hm
    exact ⟨m, hm, hs, rfl⟩
  · rintro ⟨m, hm, hs, rfl⟩
    exact ⟨q, m, s, hq, rfl, (content?_iff hq).2 ⟨hs, hm⟩, rfl⟩

theorem exists_cons_of_isQuoted (ht : IsQuoted t) : ∃ q v, t = q :: v ∧ isQuote q = true := by
  obtain ⟨q, ps, hq, -, rfl⟩ := ht
  exact ⟨q, ps.flatten ++ [q], rfl, isQuote_iff.2 hq⟩

/-- A literal is found exactly if it is there. -/
theorem split?_iff : split? s = some (t, r) ↔ s = t ++ r ∧ IsQuoted t := by
  constructor
  · intro h
    obtain ⟨q, m, v, hq, rfl, hm, rfl⟩ := split?_eq_some_iff.1 h
    obtain ⟨ps, hps, rfl⟩ := isContent_iff.1 (isContent_of_content? hm)
    exact ⟨(append_of_split? h).symm, q, ps, isQuote_iff.1 hq, hps, rfl⟩
  · rintro ⟨rfl, q, ps, hq, hps, rfl⟩
    exact (split?_cons_iff (isQuote_iff.2 hq)).2
      ⟨ps.flatten, isContent_iff.2 ⟨ps, hps, rfl⟩, by simp, rfl⟩

theorem split?_append (ht : IsQuoted t) (r : List Char) : split? (t ++ r) = some (t, r) :=
  split?_iff.2 ⟨rfl, ht⟩

theorem isCut : IsCut IsQuoted split? where
  word := split?_iff.1
  reach ht v := ⟨_, v, split?_append ht v, Nat.le_refl _⟩

/-- Where there is no quote there is no literal. -/
theorem split?_eq_none (hs : NoneInFront isQuote s) : split? s = none := by
  cases s with
  | nil => rfl
  | cons q s => rw [split?, if_neg (by simp [noneInFront_cons.1 hs])]

end TemplateArgs.Quoted
