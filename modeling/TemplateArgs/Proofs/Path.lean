/-
What `Path.split?` finds: every path that is complete where it stands.

Behind its steps up a path is a descent, a unit that is the last one, or a unit
with a separator and another descent behind it. `IsDescent` says this of texts
and `Descends` of the cut, case by case, so each fact about one is an induction
that follows the other. Both avoid what makes the scan awkward to reason about:
it takes a separator together with the unit behind it, while the language has
the separator behind the unit.

`EndsBefore` says when a path is complete, and the last character of the path
is all that it depends on besides the text behind. `split?_iff` is then the
counterpart of what holds for name units, and `exists_split?_append` says that a
path in front means that one is found, and one at least as long.
-/
import TemplateArgs.Proofs.NameUnit

set_option autoImplicit false

namespace TemplateArgs.Path

variable {s t u v d r : List Char} {c : Char}

/-! ## Steps up -/

/-- A number of steps up. -/
def climbs (k : Nat) : List Char := (List.replicate k ['.', '.', '/']).flatten

@[simp] theorem climbs_succ (k : Nat) : climbs (k + 1) = '.' :: '.' :: '/' :: climbs k := rfl

theorem parents_of_noneInFront (hs : NoneInFront (· == '.') s) : parents s = ([], s) := by
  rw [parents]
  rintro v rfl
  exact absurd (noneInFront_cons.1 hs) (by decide)

/-- All steps up are taken, and nothing else is. -/
theorem parents_climbs_append (hs : NoneInFront (· == '.') s) (k : Nat) :
    parents (climbs k ++ s) = (climbs k, s) := by
  induction k with
  | zero => exact parents_of_noneInFront hs
  | succ k ih =>
    rw [climbs_succ]
    simp only [List.cons_append, parents, ih]

theorem exists_climbs_of_parents (s : List Char) : ∃ k, (parents s).1 = climbs k := by
  fun_induction parents s with
  | case1 s p r h ih =>
    obtain ⟨k, hk⟩ := ih
    rw [h] at hk
    exact ⟨k + 1, by rw [climbs_succ, ← hk]⟩
  | case2 s => exact ⟨0, rfl⟩

/-! ## Descents -/

/-- A path without its steps up. -/
inductive IsDescent : List Char → Prop
  | unit {u : List Char} : IsNameUnit u → IsDescent u
  | dot {u : List Char} : IsNameUnit u → IsDescent (u ++ ['.'])
  | step {u t : List Char} {c : Char} : IsNameUnit u → c = '.' ∨ c = '/' → IsDescent t →
      IsDescent (u ++ c :: t)

/-- The separated units of a path may as well be read one after the other. -/
theorem isDescent_iff : IsDescent d ↔
    ∃ (steps : List (List Char × Char)) (last closing : List Char),
      (∀ s ∈ steps, IsNameUnit s.1 ∧ (s.2 = '.' ∨ s.2 = '/')) ∧ IsNameUnit last ∧
      (closing = [] ∨ closing = ['.']) ∧
      d = steps.flatMap (fun s => s.1 ++ [s.2]) ++ (last ++ closing) := by
  constructor
  -- The last unit is where the descent ends, with a dot behind it or without.
  · intro hd
    induction hd with
    | @unit u hu => exact ⟨[], u, [], by simp, hu, .inl rfl, by simp⟩
    | @dot u hu => exact ⟨[], u, ['.'], by simp, hu, .inr rfl, by simp⟩
    | @step u t c hu hc _ ih =>
      obtain ⟨steps, last, closing, hsteps, hlast, hclosing, rfl⟩ := ih
      exact ⟨(u, c) :: steps, last, closing, List.forall_mem_cons.2 ⟨⟨hu, hc⟩, hsteps⟩, hlast,
        hclosing, by simp⟩
  · rintro ⟨steps, last, closing, hsteps, hlast, hclosing, rfl⟩
    induction steps with
    | nil =>
      rw [List.flatMap_nil, List.nil_append]
      rcases hclosing with rfl | rfl
      · rw [List.append_nil]
        exact .unit hlast
      · exact .dot hlast
    | cons e steps ih =>
      obtain ⟨⟨hunit, hsep⟩, hsteps⟩ := List.forall_mem_cons.1 hsteps
      rw [List.flatMap_cons, List.append_assoc, List.append_assoc, List.singleton_append]
      exact .step hunit hsep (ih hsteps)

/-- A path is a descent behind some steps up. -/
theorem isPath_iff : IsPath t ↔ ∃ k d, IsDescent d ∧ t = climbs k ++ d := by
  constructor
  · rintro ⟨k, steps, last, closing, hsteps, hlast, hclosing, rfl⟩
    exact ⟨k, _, isDescent_iff.2 ⟨steps, last, closing, hsteps, hlast, hclosing, rfl⟩, rfl⟩
  · rintro ⟨k, d, hd, rfl⟩
    obtain ⟨steps, last, closing, hsteps, hlast, hclosing, rfl⟩ := isDescent_iff.1 hd
    exact ⟨k, steps, last, closing, hsteps, hlast, hclosing, rfl⟩

theorem isPath_of_isNameUnit (hu : IsNameUnit u) : IsPath u :=
  isPath_iff.2 ⟨0, u, .unit hu, rfl⟩

/-! ## The characters of a path -/

/-- A descent opens as a unit does. -/
theorem exists_cons_of_isDescent (hd : IsDescent d) :
    ∃ c v, d = c :: v ∧ NameUnit.opens c = true := by
  cases hd with
  | unit hu => exact NameUnit.exists_cons_of_isNameUnit hu
  | @dot u hu =>
    obtain ⟨c, v, rfl, hc⟩ := NameUnit.exists_cons_of_isNameUnit hu
    exact ⟨c, v ++ ['.'], rfl, hc⟩
  | @step u t x hu _ _ =>
    obtain ⟨c, v, rfl, hc⟩ := NameUnit.exists_cons_of_isNameUnit hu
    exact ⟨c, v ++ x :: t, rfl, hc⟩

theorem ne_nil_of_isDescent (hd : IsDescent d) : d ≠ [] := by
  obtain ⟨c, v, rfl, -⟩ := exists_cons_of_isDescent hd
  exact List.cons_ne_nil c v

/-- No step up is left in front of a descent. -/
theorem noneInFront_dot_of_isDescent (hd : IsDescent d) (r : List Char) :
    NoneInFront (· == '.') (d ++ r) := by
  obtain ⟨c, v, rfl, hc⟩ := exists_cons_of_isDescent hd
  exact noneInFront_beq hc (by decide)

/-- Whether a character can open a path. -/
def opens (c : Char) : Bool := NameUnit.opens c || c == '.'

theorem exists_cons_of_isPath (ht : IsPath t) : ∃ c v, t = c :: v ∧ opens c = true := by
  obtain ⟨k, d, hd, rfl⟩ := isPath_iff.1 ht
  cases k with
  | zero =>
    obtain ⟨c, v, rfl, hc⟩ := exists_cons_of_isDescent hd
    exact ⟨c, v, rfl, by rw [opens, hc, Bool.true_or]⟩
  | succ k => exact ⟨'.', _, rfl, by decide⟩

/-- A descent closes with a dot, or as a unit does. -/
theorem getLast?_of_isDescent (hd : IsDescent d) :
    ∃ c, d.getLast? = some c ∧ (isNameChar c = true ∨ c = ']' ∨ c = '.') := by
  induction hd with
  | unit hu =>
    obtain ⟨c, hlast, hc⟩ := NameUnit.getLast?_of_isNameUnit hu
    exact ⟨c, hlast, hc.imp_right .inl⟩
  | dot _ => exact ⟨'.', List.getLast?_concat, .inr (.inr rfl)⟩
  | @step u t x _ _ ht ih =>
    obtain ⟨c, hlast, hc⟩ := ih
    refine ⟨c, ?_, hc⟩
    rw [List.getLast?_append_of_ne_nil _ (List.cons_ne_nil x t),
      List.getLast?_cons_of_ne_nil (ne_nil_of_isDescent ht), hlast]

theorem getLast?_of_isPath (ht : IsPath t) :
    ∃ c, t.getLast? = some c ∧ (isNameChar c = true ∨ c = ']' ∨ c = '.') := by
  obtain ⟨k, d, hd, rfl⟩ := isPath_iff.1 ht
  rw [List.getLast?_append_of_ne_nil _ (ne_nil_of_isDescent hd)]
  exact getLast?_of_isDescent hd

/-! ## When a path is complete -/

/-- Whether a path is complete with the text `r` behind it. Behind a closing dot
a unit would go on with the path; behind a unit a dot would, or a slash that has
a unit of its own; and behind a bare unit, which closes with a name character, a
name character would. -/
def EndsBefore (t r : List Char) : Prop :=
  (t.getLast? = some '.' → NameUnit.split? r = none) ∧
  (t.getLast? ≠ some '.' → NoneInFront (· == '.') r ∧
    ∀ v, r = '/' :: v → NameUnit.split? v = none) ∧
  ∀ c, t.getLast? = some c → isNameChar c = true → NoneInFront isNameChar r

/-- Only the last character of a path counts, so what stands further left is of
no matter. -/
theorem endsBefore_append (ht : t ≠ []) : EndsBefore (s ++ t) r ↔ EndsBefore t r := by
  rw [EndsBefore, EndsBefore, List.getLast?_append_of_ne_nil s ht]

theorem endsBefore_cons (ht : t ≠ []) : EndsBefore (c :: t) r ↔ EndsBefore t r :=
  endsBefore_append (s := [c]) ht

theorem endsBefore_of_isNameUnit (hu : IsNameUnit u) : EndsBefore u r ↔
    NameUnit.EndsBefore u r ∧ NoneInFront (· == '.') r ∧
      ∀ v, r = '/' :: v → NameUnit.split? v = none := by
  obtain ⟨c, hlast, hc⟩ := NameUnit.getLast?_of_isNameUnit hu
  have hdot : u.getLast? ≠ some '.' := by
    rw [hlast]
    rintro ⟨⟩
    exact absurd hc (by decide)
  constructor
  · rintro ⟨-, hsep, hname⟩
    refine ⟨fun hall => ?_, hsep hdot⟩
    exact hname c hlast (hall c (List.mem_of_getLast? hlast))
  · rintro ⟨hend, hsep⟩
    refine ⟨fun h => absurd h hdot, fun _ => hsep, fun x hx hname => ?_⟩
    exact hend (NameUnit.isNameChar_of_getLast? hu hx hname)

theorem endsBefore_dot : EndsBefore (u ++ ['.']) r ↔ NameUnit.split? r = none := by
  rw [endsBefore_append (by simp)]
  constructor
  · intro h
    exact h.1 rfl
  · intro h
    refine ⟨fun _ => h, fun hne => absurd rfl hne, fun c hc hname => ?_⟩
    rw [← Option.some.inj hc] at hname
    exact absurd hname (by decide)

/-! ## The cut, one unit at a time -/

/-- The descent in front of `s` is cut off as `t`, and `r` is left. -/
inductive Descends : List Char → List Char → List Char → Prop
  | unit {s u r : List Char} : NameUnit.split? s = some (u, r) → NoneInFront (· == '.') r →
      (∀ v, r = '/' :: v → NameUnit.split? v = none) → Descends s u r
  | dot {s u r : List Char} : NameUnit.split? s = some (u, '.' :: r) →
      NameUnit.split? r = none → Descends s (u ++ ['.']) r
  | step {s u v t r : List Char} {c : Char} : NameUnit.split? s = some (u, c :: v) →
      c = '.' ∨ c = '/' → Descends v t r → Descends s (u ++ c :: t) r

theorem isSeparator_iff : isSeparator c = true ↔ c = '.' ∨ c = '/' := by
  simp [isSeparator]

theorem segments_of_split? (hc : c = '.' ∨ c = '/') (h : NameUnit.split? s = some (u, r)) :
    segments (c :: s) = (c :: u ++ (segments r).1, (segments r).2) := by
  rw [segments, if_pos (isSeparator_iff.2 hc)]
  split
  · next h' =>
    obtain ⟨rfl, rfl⟩ := Prod.mk.inj (Option.some.inj (h.symm.trans h'))
    rfl
  · next h' => rw [h] at h'; exact absurd h' (by simp)

/-- A separator without a unit behind it ends the descent, and so does any other
character. -/
theorem segments_eq_nil (hs : ∀ c v, s = c :: v → c = '.' ∨ c = '/' → NameUnit.split? v = none) :
    segments s = ([], s) := by
  cases s with
  | nil => rw [segments]
  | cons c s =>
    rw [segments]
    by_cases hc : isSeparator c = true
    · rw [if_pos hc]
      split
      · next h => rw [hs c s rfl (isSeparator_iff.1 hc)] at h; exact absurd h (by simp)
      · rfl
    · rw [if_neg hc]

theorem closingDot_of_noneInFront (hs : NoneInFront (· == '.') s) : closingDot s = ([], s) := by
  rw [closingDot]
  rintro v rfl
  exact absurd (noneInFront_cons.1 hs) (by decide)

theorem Descends.exists_split? (h : Descends s t r) : ∃ u v, NameUnit.split? s = some (u, v) ∧
    t = u ++ ((segments v).1 ++ (closingDot (segments v).2).1) ∧
    r = (closingDot (segments v).2).2 := by
  induction h with
  | @unit s u r h hdot hslash =>
    -- A slash may follow, but then it has no unit behind it and is left alone.
    have hseg : segments r = ([], r) := segments_eq_nil fun c v hr hc => by
      rcases hc with rfl | rfl
      · rw [hr] at hdot
        exact absurd (noneInFront_cons.1 hdot) (by decide)
      · exact hslash v hr
    refine ⟨u, r, h, ?_, ?_⟩ <;> simp [hseg, closingDot_of_noneInFront hdot]
  | @dot s u r h hr =>
    have hseg : segments ('.' :: r) = ([], '.' :: r) := segments_eq_nil fun c v hv _ => by
      rw [← (List.cons.inj hv).2, hr]
    refine ⟨u, '.' :: r, h, ?_, ?_⟩ <;> simp [hseg, closingDot]
  | @step s u v t r c h hc _ ih =>
    obtain ⟨u', v', h', rfl, rfl⟩ := ih
    refine ⟨u, c :: v, h, ?_, ?_⟩ <;> simp [segments_of_split? hc h']

theorem descends_of_split? (h : NameUnit.split? s = some (u, v)) :
    Descends s (u ++ ((segments v).1 ++ (closingDot (segments v).2).1))
      (closingDot (segments v).2).2 := by
  fun_induction segments v generalizing s u with
  | case1 =>
    rw [List.nil_append, closingDot_of_noneInFront noneInFront_nil, List.append_nil]
    exact .unit h noneInFront_nil (by simp)
  | case2 c v hc u' r' h' p r hseg ih =>
    have hstep := Descends.step h (isSeparator_iff.1 hc) (ih h')
    rw [hseg] at hstep
    simpa using hstep
  | case3 c v hc h' =>
    rw [List.nil_append]
    -- Of the two separators that lead nowhere only the dot is taken.
    rcases isSeparator_iff.1 hc with rfl | rfl
    · exact .dot h h'
    · have hdot : NoneInFront (· == '.') ('/' :: v) := noneInFront_cons.2 (by decide)
      rw [closingDot_of_noneInFront hdot, List.append_nil]
      refine .unit h hdot fun v' hv => ?_
      rw [← (List.cons.inj hv).2, h']
  | case4 c v hc =>
    rw [isSeparator_iff, not_or] at hc
    have hdot : NoneInFront (· == '.') (c :: v) := noneInFront_cons.2 (by simpa using hc.1)
    rw [List.nil_append, closingDot_of_noneInFront hdot, List.append_nil]
    exact .unit h hdot fun v' hv => absurd (List.cons.inj hv).1 hc.2

/-- A path is cut off as its steps up and a descent. -/
theorem split?_iff_descends :
    split? s = some (t, r) ↔ ∃ d, Descends (parents s).2 d r ∧ t = (parents s).1 ++ d := by
  rw [split?_eq_some_iff]
  constructor
  · rintro ⟨u, v, h, rfl, rfl⟩
    exact ⟨_, descends_of_split? h, by simp only [List.append_assoc]⟩
  · rintro ⟨d, hd, rfl⟩
    obtain ⟨u, v, h, rfl, rfl⟩ := hd.exists_split?
    exact ⟨u, v, h, by simp only [List.append_assoc], rfl⟩

/-! ## The path in front -/

/-- What is cut off is a descent, it was in front, and it is complete. -/
theorem Descends.sound (h : Descends s t r) : s = t ++ r ∧ IsDescent t ∧ EndsBefore t r := by
  induction h with
  | unit h hdot hslash =>
    obtain ⟨hs, hu, hend⟩ := NameUnit.split?_iff.1 h
    exact ⟨hs, .unit hu, (endsBefore_of_isNameUnit hu).2 ⟨hend, hdot, hslash⟩⟩
  | dot h hr =>
    obtain ⟨hs, hu, -⟩ := NameUnit.split?_iff.1 h
    exact ⟨by simp [hs], .dot hu, endsBefore_dot.2 hr⟩
  | step h hc _ ih =>
    obtain ⟨hs, hu, -⟩ := NameUnit.split?_iff.1 h
    obtain ⟨rfl, ht, hend⟩ := ih
    have hne := ne_nil_of_isDescent ht
    refine ⟨by simp [hs], .step hu hc ht, ?_⟩
    rwa [endsBefore_append (List.cons_ne_nil _ _), endsBefore_cons hne]

/-- A unit ends before a separator. -/
theorem split?_append_separator (hu : IsNameUnit u) (hc : c = '.' ∨ c = '/') (v : List Char) :
    NameUnit.split? (u ++ c :: v) = some (u, c :: v) := by
  refine NameUnit.split?_append_of_endsBefore hu fun _ => noneInFront_cons.2 ?_
  rcases hc with rfl | rfl <;> decide

/-- A descent that is complete is what is cut off. -/
theorem descends_append (hd : IsDescent d) (hend : EndsBefore d r) : Descends (d ++ r) d r := by
  induction hd with
  | unit hu =>
    obtain ⟨hunit, hdot, hslash⟩ := (endsBefore_of_isNameUnit hu).1 hend
    exact .unit (NameUnit.split?_append_of_endsBefore hu hunit) hdot hslash
  | dot hu =>
    -- The dot has no unit behind it, or it would not be the end.
    rw [List.append_assoc]
    exact .dot (split?_append_separator hu (.inl rfl) r) (endsBefore_dot.1 hend)
  | step hu hc ht ih =>
    have hne := ne_nil_of_isDescent ht
    rw [endsBefore_append (List.cons_ne_nil _ _), endsBefore_cons hne] at hend
    rw [List.append_assoc]
    exact .step (split?_append_separator hu hc _) hc (ih hend)

/-- Where there is a unit there is a descent, and it leaves no more than the unit
does. -/
theorem exists_descends_of_split? (h : NameUnit.split? s = some (u, v)) :
    ∃ t r, Descends s t r ∧ r.length ≤ v.length := by
  refine ⟨_, _, descends_of_split? h, ?_⟩
  have h₁ := congrArg List.length (append_segments v)
  have h₂ := congrArg List.length (append_closingDot (segments v).2)
  rw [List.length_append] at h₁ h₂
  omega

/-- A descent in front of any text means that one is cut off, and at least as
much of the text. -/
theorem exists_descends_append (hd : IsDescent d) (v : List Char) :
    ∃ t r, Descends (d ++ v) t r ∧ r.length ≤ v.length := by
  induction hd with
  | unit hu =>
    obtain ⟨u', v', h, hle⟩ := NameUnit.exists_split?_append hu v
    obtain ⟨t, r, ht, hr⟩ := exists_descends_of_split? h
    exact ⟨t, r, ht, hr.trans hle⟩
  | @dot u hu =>
    rw [List.append_assoc, List.singleton_append]
    have h := split?_append_separator hu (.inl rfl) v
    -- The dot closes the path or separates two units, as a unit follows or not.
    cases hv : NameUnit.split? v with
    | none => exact ⟨u ++ ['.'], v, .dot h hv, Nat.le_refl _⟩
    | some uv =>
      obtain ⟨t, r, ht, hr⟩ := exists_descends_of_split? hv
      exact ⟨u ++ '.' :: t, r, .step h (.inl rfl) ht,
        hr.trans (Nat.le_of_lt (NameUnit.length_lt_of_split? hv))⟩
  | @step u t c hu hc _ ih =>
    -- The separator completes the unit, so it is the rest that may grow.
    obtain ⟨t', r, ht, hr⟩ := ih
    rw [List.append_assoc, List.cons_append]
    exact ⟨u ++ c :: t', r, .step (split?_append_separator hu hc _) hc ht, hr⟩

/-- A path is found exactly if it is there and complete. -/
theorem split?_iff : split? s = some (t, r) ↔ s = t ++ r ∧ IsPath t ∧ EndsBefore t r := by
  rw [split?_iff_descends]
  constructor
  · rintro ⟨d, h, rfl⟩
    obtain ⟨hs, hd, hend⟩ := h.sound
    -- The steps up count for nothing, since only the last character does.
    obtain ⟨k, hk⟩ := exists_climbs_of_parents s
    refine ⟨?_, isPath_iff.2 ⟨k, d, hd, by rw [hk]⟩, ?_⟩
    · rw [List.append_assoc, ← hs, append_parents]
    · rwa [endsBefore_append (ne_nil_of_isDescent hd)]
  · rintro ⟨rfl, ht, hend⟩
    obtain ⟨k, d, hd, rfl⟩ := isPath_iff.1 ht
    rw [endsBefore_append (ne_nil_of_isDescent hd)] at hend
    rw [List.append_assoc, parents_climbs_append (noneInFront_dot_of_isDescent hd r) k]
    exact ⟨d, descends_append hd hend, rfl⟩

/-- A path in front of any text means that one is found, and at least as much of
it. -/
theorem exists_split?_append (ht : IsPath t) (v : List Char) :
    ∃ u r, split? (t ++ v) = some (u, r) ∧ r.length ≤ v.length := by
  obtain ⟨k, d, hd, rfl⟩ := isPath_iff.1 ht
  obtain ⟨t, r, h, hr⟩ := exists_descends_append hd v
  refine ⟨climbs k ++ t, r, split?_iff_descends.2 ?_, hr⟩
  rw [List.append_assoc, parents_climbs_append (noneInFront_dot_of_isDescent hd v) k]
  exact ⟨t, h, rfl⟩

theorem isCut : IsCut IsPath split? where
  word h := by
    obtain ⟨hs, ht, -⟩ := split?_iff.1 h
    exact ⟨hs, ht⟩
  reach := exists_split?_append

/-- Where no path can open there is none. -/
theorem split?_eq_none (hs : NoneInFront opens s) : split? s = none := by
  cases h : split? s with
  | none => rfl
  | some tr =>
    obtain ⟨rfl, ht, -⟩ := split?_iff.1 h
    obtain ⟨c, v, ht', hc⟩ := exists_cons_of_isPath ht
    rw [ht', List.cons_append, noneInFront_cons, hc] at hs
    exact absurd hs (by decide)

end TemplateArgs.Path
