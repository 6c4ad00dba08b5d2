/-
A name, an `=` and what comes behind.

The named reading is tried first, and once there is a name and an `=`, how it goes on
is up to the text behind the `=`. If a value is in front there, the name takes it,
and it is the value that would be found in that text alone. If none is, all is given
back and the name is read again, now as a path. The `=` is then what comes next, and
no argument begins with one (`Argument.sequence_assigned`,
`Argument.sequence_unassigned`).

So a value means the same behind a name as it does alone. And a name whose value is
missing is never accepted: it is a positional argument with text left over behind it,
and which of the two is reported is decided by whether a name was given before.
-/
import TemplateArgs.Proofs.Concatenation

set_option autoImplicit false

namespace TemplateArgs

variable {s t v n w r x : List Char} {a : Argument} {as : List Argument}

/-! ## The arguments -/

namespace Argument

@[simp] theorem split?_equals (s : List Char) : split? ('=' :: s) = none := by
  cases h : split? ('=' :: s) with
  | none => rfl
  | some ar =>
    obtain ⟨v, t, hv⟩ := exists_operand_of_split? h
    exact absurd (noneInFront_cons.1 (noneInFront_equals hv [])) (by decide)

/-- With a value behind the `=` the name takes it. -/
theorem split?_assigned {w₁ w₂ : List Char} (hn : IsNameUnit n) (hw₁ : IsBlankText w₁)
    (hw₂ : IsBlankText w₂) (h : Operand.split? x = some (v, r)) :
    split? (n ++ (w₁ ++ '=' :: (w₂ ++ x))) = some (named n v, r) := by
  refine split?_eq_some_iff.2 (.inl ?_)
  rw [named?_append hn hw₁ hw₂ (noneInFront_isBlank h), h]
  rfl

/-- Without one the name is all that is read. -/
theorem split?_unassigned {w₁ w₂ : List Char} (hn : IsNameUnit n) (hw₁ : IsBlankText w₁)
    (hw₂ : IsBlankText w₂) (hx : NoneInFront isBlank x) (h : Operand.split? x = none) :
    split? (n ++ (w₁ ++ '=' :: (w₂ ++ x))) = some (positional n, w₁ ++ '=' :: (w₂ ++ x)) := by
  refine split?_eq_some_iff.2 (.inr ⟨?_, positional?_eq_some_iff.2 ⟨n, ?_, rfl⟩⟩)
  · rw [named?_append hn hw₁ hw₂ hx, h]
    rfl
  · exact operand_split?_of_unit (unit_split?_append_equals hn hw₁ _)
      (skipBlanks_append_equals hw₁ _)

/-- What stands behind the `=` is trimmed as it would be alone, but for blanks in
front, which do no harm there. -/
theorem exists_trimBlanks_assigned (hn : IsNameUnit n) (w s : List Char) :
    ∃ w₂, IsBlankText w₂ ∧
      trimBlanks (n ++ (w ++ '=' :: s)) = n ++ (w ++ '=' :: (w₂ ++ trimBlanks s)) := by
  have hfront : NoneInFront isBlank (n ++ (w ++ ['='])) :=
    Operand.noneInFront_isBlank_of_isOperand (.inl (Path.isPath_of_isNameUnit hn)) _
  have hback : NoneInFront isBlank (n ++ (w ++ ['='])).reverse := by
    rw [← List.append_assoc, List.reverse_append]
    exact noneInFront_cons.2 (by decide)
  obtain ⟨w₂, hw₂, htrim⟩ := exists_trimBlanks_append (by simp) hfront hback s
  refine ⟨w₂, hw₂, ?_⟩
  simpa using htrim

/-- The arguments of a text that begins with a name, an `=` and a value. -/
theorem sequence_assigned (hn : IsNameUnit n) (hw : IsBlankText w)
    (h : Operand.split? (trimBlanks s) = some (v, r)) :
    sequence (trimBlanks (n ++ (w ++ '=' :: s))) =
      (named n v :: (sequence (skipBlanks r)).1, (sequence (skipBlanks r)).2) := by
  obtain ⟨w₂, hw₂, htrim⟩ := exists_trimBlanks_assigned hn w s
  rw [htrim, sequence_of_split? (split?_assigned hn hw hw₂ h)]

/-- The arguments of a text that begins with a name and an `=`, and with no value
behind it: the name, and there it ends. -/
theorem sequence_unassigned (hn : IsNameUnit n) (hw : IsBlankText w)
    (h : Operand.split? (trimBlanks s) = none) :
    ∃ rest, rest ≠ [] ∧ sequence (trimBlanks (n ++ (w ++ '=' :: s))) = ([positional n], rest) := by
  obtain ⟨w₂, hw₂, htrim⟩ := exists_trimBlanks_assigned hn w s
  obtain ⟨-, -, -, -, -, hfront, -⟩ := trims_trimBlanks s
  refine ⟨'=' :: (w₂ ++ trimBlanks s), List.cons_ne_nil _ _, ?_⟩
  rw [htrim, sequence_of_split? (split?_unassigned hn hw hw₂ hfront h),
    skipBlanks_append_equals hw, sequence_of_none (split?_equals _)]

/-- Where no operand is in front of a text none is found in it, trimmed or not. -/
theorem operand_split?_trimBlanks_eq_none (h : ∀ v, IsOperand v → ¬v <+: skipBlanks s) :
    Operand.split? (trimBlanks s) = none :=
  Operand.isCut.eq_none_iff.2 fun v hv hfront => h v hv (hfront.trans (prefix_skipBlanks s))

theorem noneInFront_equals_of_isNameUnit (hn : IsNameUnit n) (s : List Char) :
    NoneInFront (· == '=') (skipBlanks (n ++ s)) := by
  have hblank : NoneInFront isBlank (n ++ s) :=
    Operand.noneInFront_isBlank_of_isOperand (.inl (Path.isPath_of_isNameUnit hn)) s
  obtain ⟨c, v, rfl, hc⟩ := NameUnit.exists_cons_of_isNameUnit hn
  rw [skipBlanks_of_noneInFront hblank]
  exact noneInFront_beq hc (by decide)

/-- Behind arguments, too, a name without a value is read as a positional argument,
and there it ends. -/
theorem sequence_append_unassigned {w₁ : List Char} (hs : sequence (trimBlanks s) = (as, []))
    (hw : IsBlankText w) (hgap : w = [] → IsBlankText s) (hn : IsNameUnit n)
    (hw₁ : IsBlankText w₁) (hr : ∀ v, IsOperand v → ¬v <+: skipBlanks r) :
    ∃ rest, rest ≠ [] ∧
      sequence (trimBlanks (s ++ (w ++ (n ++ (w₁ ++ '=' :: r))))) =
        (as ++ [positional n], rest) := by
  obtain ⟨rest, hrest, hname⟩ :=
    sequence_unassigned hn hw₁ (operand_split?_trimBlanks_eq_none hr)
  have hjoin : w = [] → ∀ b, as.getLast? = some b → IsQuoted b.value := by
    intro hnil b hb
    -- A blank text has no arguments, so there is none to be kept off.
    have hempty : trimBlanks s = [] := trimBlanks_append_blanks (s := []) (hgap hnil)
    rw [hempty, sequence_nil] at hs
    rw [← (Prod.mk.inj hs).1] at hb
    exact absurd hb (by simp)
  refine ⟨rest, hrest, ?_⟩
  rw [sequence_trimBlanks_append hs hw hjoin (noneInFront_equals_of_isNameUnit hn _), hname]

/-! ## A single argument -/

/-- Behind the last operand of a trimmed text there is nothing. -/
theorem eq_nil_of_sequence (h : Operand.split? (trimBlanks s) = some (v, r))
    (hr : sequence (skipBlanks r) = ([], [])) : r = [] := by
  have hblank : IsBlankText r := skipBlanks_eq_nil_iff.1 (sequence_eq_nil_iff.1 hr).2
  obtain ⟨-, -, -, -, -, -, hback⟩ := trims_trimBlanks s
  rw [← Operand.append_of_split? h] at hback
  exact eq_nil_of_isBlankText hback hblank

/-- A text is one positional argument if an operand is all there is. -/
theorem sequence_eq_positional_iff :
    sequence (trimBlanks s) = ([positional v], []) ↔
      Operand.split? (trimBlanks s) = some (v, []) := by
  rw [sequence_eq_cons_iff]
  constructor
  · rintro ⟨r, hsplit, hr⟩
    rcases split?_eq_some_iff.1 hsplit with h | ⟨-, h⟩
    · obtain ⟨n, v', -, -, -, -, -, hnamed⟩ := named?_eq_some_iff.1 h
      exact absurd hnamed (by simp)
    · obtain ⟨v', hv, heq⟩ := positional?_eq_some_iff.1 h
      obtain rfl := positional.inj heq
      obtain rfl := eq_nil_of_sequence hv hr
      exact hv
  · intro h
    -- With nothing behind it the operand is no name.
    have hnone := named?_eq_none h (by rw [skipBlanks_nil]; exact noneInFront_nil)
    exact ⟨[], split?_eq_some_iff.2 (.inr ⟨hnone, positional?_eq_some_iff.2 ⟨v, h, rfl⟩⟩),
      sequence_nil⟩

/-- A name and an `=` with a text behind them are one argument if an operand is all
there is in that text. -/
theorem sequence_assigned_eq_iff (hn : IsNameUnit n) (hw : IsBlankText w) :
    sequence (trimBlanks (n ++ (w ++ '=' :: s))) = ([a], []) ↔
      ∃ v, a = named n v ∧ Operand.split? (trimBlanks s) = some (v, []) := by
  constructor
  · intro hs
    cases h : Operand.split? (trimBlanks s) with
    | none =>
      obtain ⟨rest, hne, hrest⟩ := sequence_unassigned hn hw h
      exact absurd (Prod.mk.inj (hrest.symm.trans hs)).2 hne
    | some vr =>
      obtain ⟨v, r⟩ := vr
      obtain ⟨hcons, hr⟩ := Prod.mk.inj ((sequence_assigned hn hw h).symm.trans hs)
      obtain ⟨rfl, hnil⟩ := List.cons.inj hcons
      obtain rfl := eq_nil_of_sequence h (Prod.ext hnil hr)
      exact ⟨v, rfl, rfl⟩
  · rintro ⟨v, rfl, h⟩
    rw [sequence_assigned hn hw h, skipBlanks_nil, sequence_nil]

end Argument

/-! ## What a single argument binds -/

namespace Bindings

variable {policy : DuplicatePolicy}

theorem allAccepted_singleton (policy : DuplicatePolicy) (a : Argument) :
    AllAccepted policy ∅ [a] := by
  refine ⟨?_, trivial⟩
  cases hfault : fault? policy ∅ a with
  | none => rfl
  | some fault =>
    rcases fault?_eq_some hfault with ⟨v, -, hnamed, -⟩ | ⟨n, v, -, -, hkey, -⟩
    · exact absurd hnamed (by decide)
    · exact absurd hkey List.not_mem_nil

theorem length_values (as : List Argument) : (as.filterMap Argument.positionValue?).length +
    (as.filterMap Argument.entry?).length = as.length := by
  induction as with
  | nil => rfl
  | cons a as ih =>
    cases a with
    | positional v =>
      simp only [List.filterMap_cons, Argument.positionValue?, Argument.entry?, List.length_cons]
      omega
    | named n v =>
      simp only [List.filterMap_cons, Argument.positionValue?, Argument.entry?, List.length_cons]
      omega

/-- Where no name may be given again, every argument has a value of its own. -/
theorem size_of_allAccepted_reject (h : AllAccepted .reject ∅ as) :
    ((∅ : Bindings).replay as).positional.size + ((∅ : Bindings).replay as).named.size =
      as.length := by
  have hnodup := (allAccepted_reject_iff.1 h).2
  rw [← Argument.map_fst_entries] at hnodup
  have hentries : ((∅ : Bindings).replay as).named.entries = as.filterMap Argument.entry? := by
    rw [named_replay, Table.entries_insertAll_of_nodup hnodup]
    rfl
  rw [Table.size, hentries, replay_empty, List.size_toArray, length_values]

end Bindings

namespace ArgumentList

open Bindings (AllAccepted)

/-- A text that gives one value, to a position or to a name, is one argument. -/
theorem exists_argument_of_parse {input : String} {l : ArgumentList}
    (h : parse .reject input = .ok l) (hsize : l.positional.size + l.named.size = 1) :
    ∃ a, Argument.sequence (trimBlanks input.toList) = ([a], []) ∧
      l.toBindings = (∅ : Bindings).replay [a] := by
  obtain ⟨as, hs, hall, rfl⟩ := parse_eq_ok_iff_allAccepted.1 h
  obtain ⟨a, rfl⟩ : ∃ a, as = [a] :=
    List.length_eq_one_iff.1 ((Bindings.size_of_allAccepted_reject hall).symm.trans hsize)
  exact ⟨a, hs, rfl⟩

theorem parse_of_argument {input : String} (policy : DuplicatePolicy)
    (h : Argument.sequence (trimBlanks input.toList) = ([a], [])) :
    parse policy input = .ok ⟨(∅ : Bindings).replay [a], input⟩ :=
  parse_eq_ok_iff_allAccepted.2 ⟨[a], h, Bindings.allAccepted_singleton policy a, rfl⟩

/-! ## A value in both positions -/

/-- **A value means the same behind a name as it does alone.** A name, an `=` and a
text are accepted as one entry exactly if the text is accepted as one positional
value, and the two values are the same. Names may not be given again here, or the
text could be a value and then an entry that takes its place. -/
theorem parse_assigned_iff {n v : String} {x : Value} (hn : IsNameUnit n.toList) :
    (∃ l, parse .reject (n ++ "=" ++ v) = .ok l ∧ l.positional = #[] ∧
        l.named.entries = [(NameUnit.nameOf n, x)]) ↔
      ∃ l, parse .reject v = .ok l ∧ l.positional = #[x] ∧ l.named.entries = [] := by
  have htext : (n ++ "=" ++ v).toList = n.toList ++ ([] ++ '=' :: v.toList) := by simp
  constructor
  · rintro ⟨l, hl, hpos, hnamed⟩
    obtain ⟨a, hs, hbinds⟩ :=
      exists_argument_of_parse hl (by rw [hpos, Table.size, hnamed]; rfl)
    rw [htext, Argument.sequence_assigned_eq_iff hn isBlankText_nil] at hs
    obtain ⟨u, rfl, hu⟩ := hs
    have hx : Value.ofOperand u = x := by
      rw [hbinds] at hnamed
      exact (Prod.mk.inj (List.cons.inj hnamed).1).2
    refine ⟨_, parse_of_argument .reject (Argument.sequence_eq_positional_iff.2 hu), ?_, rfl⟩
    rw [← hx]
    rfl
  · rintro ⟨l, hl, hpos, hnamed⟩
    obtain ⟨a, hs, hbinds⟩ :=
      exists_argument_of_parse hl (by rw [hpos, Table.size, hnamed]; rfl)
    rw [hbinds] at hpos hnamed
    cases a with
    | named m u => exact absurd hnamed (List.cons_ne_nil _ _)
    | positional u =>
      have hx : Value.ofOperand u = x := (List.cons.inj (congrArg Array.toList hpos)).1
      have hu := Argument.sequence_eq_positional_iff.1 hs
      have hs' := (Argument.sequence_assigned_eq_iff hn isBlankText_nil).2 ⟨u, rfl, hu⟩
      rw [← htext] at hs'
      refine ⟨_, parse_of_argument .reject hs', rfl, ?_⟩
      rw [← hx]
      rfl

/-- Blanks around the value, an `=` in it and a name in brackets. -/
theorem parse_assigned_iff_equals : IsNameUnit "[a b]".toList ∧
    ∃ l, parse .reject ("[a b]" ++ "=" ++ "\t'x=\\'y\\'' ") = .ok l ∧ l.positional = #[] ∧
      l.named.entries = [(NameUnit.nameOf "[a b]", .literal "x='y'")] := by
  have hn : IsNameUnit "[a b]".toList :=
    .inr ⟨['a', ' ', 'b'], List.cons_ne_nil _ _, by simp, rfl⟩
  have hv : parse .reject "\t'x=\\'y\\'' " =
      .ok ⟨⟨#[.literal "x='y'"], ∅⟩, "\t'x=\\'y\\'' "⟩ := by decide +kernel
  exact ⟨hn, (parse_assigned_iff hn).2 ⟨_, hv, rfl, rfl⟩⟩

/-! ## A name without a value -/

/-- **A name without a value is always an error.** Let a text be accepted, let a name
and an `=` stand behind it, and behind these a text with no operand in front. Then
the name is read as a positional argument, whether or not it was given before. What
is wrong is the order if any name was given before, and otherwise the text left
over. -/
theorem parse_unassigned {policy : DuplicatePolicy} {a w u w₁ r input : String}
    {l : ArgumentList} (ha : parse policy a = .ok l) (hw : IsBlankText w.toList)
    (hgap : w = "" → IsBlankText a.toList) (hu : IsNameUnit u.toList)
    (hw₁ : IsBlankText w₁.toList) (hr : ∀ v, IsOperand v → ¬v <+: skipBlanks r.toList)
    (hinput : input = a ++ w ++ u ++ w₁ ++ "=" ++ r) :
    parse policy input = .error
        ⟨if l.named.isEmpty then .malformed else .positionalAfterNamed u.toList, input⟩ ∧
      (run policy input).recognised = (run policy a).recognised ++ [.positional u.toList] := by
  obtain ⟨as, hs, hall, rfl⟩ := parse_eq_ok_iff_allAccepted.1 ha
  have hgap' : w.toList = [] → IsBlankText a.toList := fun hnil =>
    hgap (String.toList_eq_nil_iff.1 hnil)
  obtain ⟨rest, hrest, hwhole⟩ := Argument.sequence_append_unassigned hs hw hgap' hu hw₁ hr
  have htext : input.toList =
      a.toList ++ (w.toList ++ (u.toList ++ (w₁.toList ++ '=' :: r.toList))) := by
    rw [hinput]
    simp
  rw [← htext] at hwhole
  rw [run_eq_accepted hs hall, recognised_accepted]
  cases hnamed : ((∅ : Bindings).replay as).named.isEmpty with
  | true =>
    have hboth : AllAccepted policy ∅ (as ++ [.positional u.toList]) :=
      Bindings.allAccepted_append.2 ⟨hall, Bindings.fault?_positional_eq_none_iff.2 hnamed, trivial⟩
    rw [parse, run_of_allAccepted hwhole hboth, if_neg hrest, recognised_refused]
    exact ⟨rfl, rfl⟩
  | false =>
    rw [parse, run_of_positional hwhole hall rfl hnamed, recognised_refused]
    exact ⟨rfl, rfl⟩

/-- A literal that is not closed, behind a name that is given again though it may not
be, and a step up that leads nowhere, behind the first name of a text. -/
theorem parse_unassigned_unclosed :
    parse .reject "x k=1 k\t= 'oops" =
        .error ⟨.positionalAfterNamed ['k'], "x k=1 k\t= 'oops"⟩ ∧
      parse .overwrite "[a b]=../" = .error ⟨.malformed, "[a b]=../"⟩ := by
  have ha : parse .reject "x k=1" =
      .ok ⟨⟨#[.path "x"], ⟨[("k", .literal "1")], by decide⟩⟩, "x k=1"⟩ := by decide +kernel
  have hnothing : parse .overwrite "" = .ok ⟨∅, ""⟩ := by decide +kernel
  have hk : IsNameUnit "k".toList :=
    .inl ⟨List.cons_ne_nil _ _, List.forall_mem_singleton.2 (by decide)⟩
  have hab : IsNameUnit "[a b]".toList :=
    .inr ⟨['a', ' ', 'b'], List.cons_ne_nil _ _, by simp, rfl⟩
  have hoops : ∀ v, IsOperand v → ¬v <+: skipBlanks " 'oops".toList :=
    Operand.isCut.eq_none_iff.1 (by decide +kernel)
  have hup : ∀ v, IsOperand v → ¬v <+: skipBlanks "../".toList :=
    Operand.isCut.eq_none_iff.1 (by decide +kernel)
  have hspace : IsBlankText " ".toList := List.forall_mem_singleton.2 rfl
  have htab : IsBlankText "\t".toList := List.forall_mem_singleton.2 rfl
  have hempty : IsBlankText "".toList := isBlankText_nil
  exact ⟨(parse_unassigned ha hspace (fun h => absurd h (by decide)) hk htab hoops rfl).1,
    (parse_unassigned hnothing hempty (fun _ => hempty) hab hempty hup rfl).1⟩

end ArgumentList

end TemplateArgs
