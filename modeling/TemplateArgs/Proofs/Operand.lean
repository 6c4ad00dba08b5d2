/-
What `Operand.split?` finds: every operand that is complete where it stands.

The three kinds of operands open with different characters, so at most one of
them is in front of a text and the order in which they are tried is of no
account (`split?_eq_some_iff`). With that, `split?_iff` puts together what holds
of each kind. Of the text behind an operand only the front matters; in
particular blanks complete every operand (`endsBefore_of_blank`).

Text may also be added further behind. That can still go wrong in one way: a
bracket that is not closed yet might be closed by it. `Settled` excludes this
and a slash in front, and then what was complete stays complete
(`EndsBefore.append`).
-/
import TemplateArgs.Proofs.Path
import TemplateArgs.Proofs.Quoted

set_option autoImplicit false

namespace TemplateArgs

variable {s t r y : List Char} {c : Char}

/-! ## Special variables -/

namespace Special

theorem isLower_iff : c.isLower = true ↔ 'a' ≤ c ∧ c ≤ 'z' := by
  have hrange : c.isLower = (decide ('a'.val ≤ c.val) && decide (c.val ≤ 'z'.val)) := rfl
  rw [hrange, Bool.and_eq_true, decide_eq_true_eq, decide_eq_true_eq]
  exact Iff.rfl

theorem not_isBlank_of_isLower (hc : c.isLower = true) : isBlank c = false :=
  not_isBlank_of_class (by decide) hc

/-- A special variable is found exactly if it is there and no letter follows
that could go on with it. -/
theorem split?_iff :
    split? s = some (t, r) ↔ s = t ++ r ∧ IsSpecial t ∧ NoneInFront Char.isLower r := by
  constructor
  · intro h
    refine ⟨(append_of_split? h).symm, ?_⟩
    unfold split? at h
    split at h
    · next s =>
      split at h
      · exact absurd h (by simp)
      · next hne =>
        obtain ⟨rfl, rfl⟩ := Prod.mk.inj (Option.some.inj h)
        refine ⟨⟨s.takeWhile Char.isLower, hne, ?_, rfl⟩, noneInFront_dropWhile⟩
        intro c hc
        exact isLower_iff.1 (List.all_eq_true.1 List.all_takeWhile c hc)
    · exact absurd h (by simp)
  · rintro ⟨rfl, ⟨n, hne, hall, rfl⟩, hr⟩
    have hlower : ∀ c ∈ n, c.isLower = true := fun c hc => isLower_iff.2 (hall c hc)
    simp only [split?, List.cons_append, takeWhile_append_of_noneInFront hlower hr,
      dropWhile_append_of_noneInFront hlower hr]

theorem split?_eq_none (hs : NoneInFront (· == '@') s) : split? s = none := by
  rw [split?]
  rintro v rfl
  exact absurd (noneInFront_cons.1 hs) (by decide)

/-- A special variable in front of any text means that one is found, and at
least as much of it. -/
theorem exists_split?_append (ht : IsSpecial t) (v : List Char) :
    ∃ u r, split? (t ++ v) = some (u, r) ∧ r.length ≤ v.length := by
  obtain ⟨n, hne, hall, rfl⟩ := ht
  refine ⟨'@' :: (n ++ v.takeWhile Char.isLower), v.dropWhile Char.isLower, ?_,
    (List.dropWhile_sublist Char.isLower).length_le⟩
  refine split?_iff.2 ⟨?_, ⟨n ++ v.takeWhile Char.isLower, by simp [hne], ?_, rfl⟩,
    noneInFront_dropWhile⟩
  · rw [List.cons_append, List.cons_append, List.append_assoc, List.takeWhile_append_dropWhile]
  · intro c hc
    rcases List.mem_append.1 hc with h | h
    · exact hall c h
    · exact isLower_iff.1 (List.all_eq_true.1 List.all_takeWhile c h)

theorem isCut : IsCut IsSpecial split? where
  word h := by
    obtain ⟨hs, ht, -⟩ := split?_iff.1 h
    exact ⟨hs, ht⟩
  reach := exists_split?_append

end Special

namespace Operand

/-! ## The characters of an operand -/

/-- Whether a character can open an operand. -/
def opens (c : Char) : Bool := Path.opens c || isQuote c || c == '@'

/-- A quote opens no path. -/
theorem not_isQuote_of_opens (hc : Path.opens c = true) : isQuote c = false := by
  by_contra hq
  rw [Bool.not_eq_false, Quoted.isQuote_iff] at hq
  rcases hq with rfl | rfl <;> exact absurd hc (by decide)

theorem exists_cons_of_isOperand (ht : IsOperand t) : ∃ c v, t = c :: v ∧ opens c = true := by
  rcases ht with ht | ht | ⟨n, -, -, rfl⟩
  · obtain ⟨c, v, rfl, hc⟩ := Path.exists_cons_of_isPath ht
    exact ⟨c, v, rfl, by simp [opens, hc]⟩
  · obtain ⟨c, v, rfl, hc⟩ := Quoted.exists_cons_of_isQuoted ht
    exact ⟨c, v, rfl, by simp [opens, hc]⟩
  · exact ⟨'@', n, rfl, by decide⟩

theorem not_isBlank_of_opens (hc : opens c = true) : isBlank c = false :=
  not_isBlank_of_class (by decide) hc

/-- An operand neither begins nor ends with a blank. -/
theorem noneInFront_isBlank_of_isOperand (ht : IsOperand t) (r : List Char) :
    NoneInFront isBlank (t ++ r) := by
  obtain ⟨c, v, rfl, hc⟩ := exists_cons_of_isOperand ht
  exact noneInFront_cons.2 (not_isBlank_of_opens hc)

theorem not_isBlank_of_getLast? (ht : IsOperand t) (hc : t.getLast? = some c) :
    isBlank c = false := by
  rcases ht with ht | ⟨q, ps, hq, -, rfl⟩ | ⟨n, hne, hall, rfl⟩
  · obtain ⟨d, hd, hclass⟩ := Path.getLast?_of_isPath ht
    obtain rfl := Option.some.inj (hd.symm.trans hc)
    rcases hclass with h | rfl | rfl
    · exact not_isBlank_of_class (by decide) h
    · decide
    · decide
  · rw [← List.cons_append, List.getLast?_concat] at hc
    obtain rfl := Option.some.inj hc
    rcases hq with rfl | rfl <;> decide
  · rw [List.getLast?_cons_of_ne_nil hne] at hc
    exact Special.not_isBlank_of_isLower (Special.isLower_iff.2 (hall c (List.mem_of_getLast? hc)))

theorem noneInFront_reverse_of_isOperand (ht : IsOperand t) (r : List Char) :
    NoneInFront isBlank (r ++ t).reverse := by
  intro x hx
  obtain ⟨d, u, rfl, -⟩ := exists_cons_of_isOperand ht
  rw [List.head?_reverse, List.getLast?_append_of_ne_nil r (List.cons_ne_nil d u)] at hx
  exact not_isBlank_of_getLast? ht hx

/-! ## One of three kinds -/

theorem not_isQuoted_of_isPath (ht : IsPath t) : ¬IsQuoted t := by
  intro hquoted
  obtain ⟨q, v, rfl, hq⟩ := Quoted.exists_cons_of_isQuoted hquoted
  obtain ⟨c, w, hcons, hc⟩ := Path.exists_cons_of_isPath ht
  obtain ⟨rfl, -⟩ := List.cons.inj hcons
  rw [not_isQuote_of_opens hc] at hq
  exact absurd hq (by decide)

theorem not_isSpecial_of_isPath (ht : IsPath t) : ¬IsSpecial t := by
  rintro ⟨n, -, -, rfl⟩
  obtain ⟨c, w, hcons, hc⟩ := Path.exists_cons_of_isPath ht
  obtain ⟨rfl, -⟩ := List.cons.inj hcons
  exact absurd hc (by decide)

theorem not_isSpecial_of_isQuoted (ht : IsQuoted t) : ¬IsSpecial t := by
  rintro ⟨n, -, -, rfl⟩
  obtain ⟨q, v, hcons, hq⟩ := Quoted.exists_cons_of_isQuoted ht
  obtain ⟨rfl, -⟩ := List.cons.inj hcons
  exact absurd hq (by decide)

/-- No text has words of two kinds in front. -/
theorem split?_eq_some_iff : split? s = some (t, r) ↔
    Path.split? s = some (t, r) ∨ Quoted.split? s = some (t, r) ∨
      Special.split? s = some (t, r) := by
  refine ⟨split?_eq_some, ?_⟩
  simp only [split?, Option.orElse_eq_orElse, Option.orElse_eq_or, Option.or_eq_some_iff]
  rintro (h | h | h)
  · exact .inl h
  · obtain ⟨rfl, ht⟩ := Quoted.split?_iff.1 h
    obtain ⟨q, v, rfl, hq⟩ := Quoted.exists_cons_of_isQuoted ht
    refine .inr ⟨Path.split?_eq_none (noneInFront_cons.2 ?_), .inl h⟩
    by_contra hc
    rw [not_isQuote_of_opens (by simpa using hc)] at hq
    exact absurd hq (by decide)
  · obtain ⟨rfl, ⟨n, -, -, rfl⟩, -⟩ := Special.split?_iff.1 h
    exact .inr ⟨Path.split?_eq_none (noneInFront_cons.2 (by decide)),
      .inr ⟨Quoted.split?_eq_none (noneInFront_cons.2 (by decide)), h⟩⟩

/-! ## The operand in front -/

/-- Whether an operand is complete with the text `r` behind it. -/
def EndsBefore (t r : List Char) : Prop :=
  (IsPath t → Path.EndsBefore t r) ∧ (IsSpecial t → NoneInFront Char.isLower r)

theorem endsBefore_of_isQuoted (ht : IsQuoted t) : EndsBefore t r :=
  ⟨fun hpath => absurd ht (not_isQuoted_of_isPath hpath),
    fun hspecial => absurd hspecial (not_isSpecial_of_isQuoted ht)⟩

/-- An operand is found exactly if it is there and complete. -/
theorem split?_iff : split? s = some (t, r) ↔ s = t ++ r ∧ IsOperand t ∧ EndsBefore t r := by
  rw [split?_eq_some_iff]
  constructor
  -- Each kind is complete in its own way, and a word is of one kind only.
  · rintro (h | h | h)
    · obtain ⟨hs, ht, hend⟩ := Path.split?_iff.1 h
      exact ⟨hs, .inl ht, fun _ => hend, fun h' => absurd h' (not_isSpecial_of_isPath ht)⟩
    · obtain ⟨hs, ht⟩ := Quoted.split?_iff.1 h
      exact ⟨hs, .inr (.inl ht), endsBefore_of_isQuoted ht⟩
    · obtain ⟨hs, ht, hend⟩ := Special.split?_iff.1 h
      exact ⟨hs, .inr (.inr ht), fun h' => absurd ht (not_isSpecial_of_isPath h'), fun _ => hend⟩
  · rintro ⟨hs, ht | ht | ht, hpath, hspecial⟩
    · exact .inl (Path.split?_iff.2 ⟨hs, ht, hpath ht⟩)
    · exact .inr (.inl (Quoted.split?_iff.2 ⟨hs, ht⟩))
    · exact .inr (.inr (Special.split?_iff.2 ⟨hs, ht, hspecial ht⟩))

theorem isOperand_of_split? (h : split? s = some (t, r)) : IsOperand t := (split?_iff.1 h).2.1

theorem split?_append_of_endsBefore (ht : IsOperand t) (hend : EndsBefore t r) :
    split? (t ++ r) = some (t, r) :=
  split?_iff.2 ⟨rfl, ht, hend⟩

/-- An operand in front of any text means that one is found, and at least as
much of it. -/
theorem exists_split?_append (ht : IsOperand t) (v : List Char) :
    ∃ u r, split? (t ++ v) = some (u, r) ∧ r.length ≤ v.length := by
  rcases ht with ht | ht | ht
  · obtain ⟨u, r, h, hr⟩ := Path.exists_split?_append ht v
    exact ⟨u, r, split?_eq_some_iff.2 (.inl h), hr⟩
  · exact ⟨t, v, split?_eq_some_iff.2 (.inr (.inl (Quoted.split?_append ht v))), Nat.le_refl _⟩
  · obtain ⟨u, r, h, hr⟩ := Special.exists_split?_append ht v
    exact ⟨u, r, split?_eq_some_iff.2 (.inr (.inr h)), hr⟩

theorem isCut : IsCut IsOperand split? where
  word h := ⟨(append_of_split? h).symm, isOperand_of_split? h⟩
  reach := exists_split?_append

/-! ## What may stand behind -/

/-- Blanks, or nothing at all, complete every operand. -/
theorem endsBefore_of_blank (hr : NoneInFront (!isBlank ·) r) : EndsBefore t r := by
  -- Nothing that could go on with a path is a blank: no unit, no dot, no slash.
  have hopens : NoneInFront NameUnit.opens r := hr.mono fun c hc => by
    rw [not_isBlank_of_opens (by simp [opens, Path.opens, hc])]
    rfl
  have hname : NoneInFront isNameChar r := hopens.mono fun c hc => by simp [NameUnit.opens, hc]
  have hdot : NoneInFront (· == '.') r := hr.mono fun c hc => by
    rw [beq_iff_eq.1 hc]
    decide
  refine ⟨fun _ => ⟨fun _ => NameUnit.split?_eq_none hopens, fun _ => ⟨hdot, ?_⟩,
    fun _ _ _ => hname⟩, fun _ => ?_⟩
  · rintro v rfl
    exact absurd (noneInFront_cons.1 hr) (by decide)
  · exact hr.mono fun c hc => by rw [Special.not_isBlank_of_isLower hc]; rfl

/-- Whether a text keeps what it has in front when more is put behind it: it
begins neither with a slash nor with a bracket that is yet to be closed. -/
def Settled (r : List Char) : Prop :=
  NoneInFront (· == '/') r ∧ (NameUnit.split? r = none → NoneInFront NameUnit.opens r)

theorem settled_of_blank (hr : NoneInFront (!isBlank ·) r) : Settled r := by
  refine ⟨hr.mono fun c hc => ?_, fun _ => hr.mono fun c hc => ?_⟩
  · rw [beq_iff_eq.1 hc]
    decide
  · rw [not_isBlank_of_opens (by simp [opens, Path.opens, hc])]
    rfl

theorem settled_of_split? (h : split? r = some (t, s)) : Settled r := by
  obtain ⟨rfl, ht, -⟩ := split?_iff.1 h
  constructor
  · obtain ⟨c, v, rfl, hc⟩ := exists_cons_of_isOperand ht
    exact noneInFront_beq hc (by decide)
  · intro hnone
    rcases ht with ht | ht | ⟨n, -, -, rfl⟩
    · obtain ⟨k, d, hd, rfl⟩ := Path.isPath_iff.1 ht
      cases k with
      | zero =>
        -- Without a step up a path begins with a unit.
        obtain ⟨_, _, hdesc, -⟩ := Path.exists_descends_append hd s
        obtain ⟨u, v, hu, -, -⟩ := hdesc.exists_split?
        exact absurd (hu.symm.trans hnone) (by simp)
      | succ k => exact noneInFront_cons.2 (by decide)
    · obtain ⟨q, v, rfl, hq⟩ := Quoted.exists_cons_of_isQuoted ht
      rcases Quoted.isQuote_iff.1 hq with rfl | rfl <;> exact noneInFront_cons.2 (by decide)
    · exact noneInFront_cons.2 (by decide)

/-- What is complete before a text is complete before more of it. -/
theorem EndsBefore.append (hend : EndsBefore t r) (hr : r ≠ []) (hsettled : Settled r) :
    EndsBefore t (r ++ y) := by
  refine ⟨fun hpath => ?_, fun hspecial => (noneInFront_append hr).2 (hend.2 hspecial)⟩
  obtain ⟨hunit, hsep, hname⟩ := hend.1 hpath
  -- Only what looks beyond the first character of `r` needs `hsettled`.
  refine ⟨fun hdot => ?_, fun hdot => ⟨(noneInFront_append hr).2 (hsep hdot).1, ?_⟩,
    fun c hc hc' => (noneInFront_append hr).2 (hname c hc hc')⟩
  · exact NameUnit.split?_eq_none ((noneInFront_append hr).2 (hsettled.2 (hunit hdot)))
  · intro v hv
    have hslash := (noneInFront_append (t := y) hr).2 hsettled.1
    rw [hv] at hslash
    exact absurd (noneInFront_cons.1 hslash) (by decide)

end Operand

end TemplateArgs
