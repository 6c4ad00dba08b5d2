/-
Argument texts that are put one behind the other.

If the first text is accepted, and something keeps the two apart, the arguments
of both are recognised as if each text stood alone. Whether they are accepted
together is then a matter of the second text only, but for one thing: once a name
has been given, the next argument must have one, too. All that the first text
leaves behind for the second is whether it gave a name (`Bindings.Joins`).

Two things keep texts apart, a blank or the quote that closes the first one. The
second text must not begin with an `=`, which would make a name of the last
argument.
-/
import TemplateArgs.Proofs.Run

set_option autoImplicit false

namespace TemplateArgs

/-! ## The arguments -/

/-- The arguments of two texts with blanks between them. -/
theorem Argument.sequence_trimBlanks_append {s w t : List Char} {as : List Argument}
    (hs : sequence (trimBlanks s) = (as, [])) (hw : IsBlankText w)
    (hjoin : w = [] → ∀ a, as.getLast? = some a → IsQuoted a.value)
    (heq : NoneInFront (· == '=') (skipBlanks t)) :
    sequence (trimBlanks (s ++ (w ++ t))) =
      (as ++ (sequence (trimBlanks t)).1, (sequence (trimBlanks t)).2) := by
  have htrim := trims_trimBlanks s
  have htrim' := trims_trimBlanks t
  obtain ⟨gap, hgap, hempty, hwhole⟩ := trimBlanks_append_of_trims htrim htrim' hw
  obtain ⟨-, -, -, -, -, hfront, hback⟩ := htrim
  obtain ⟨-, -, -, -, -, hfront', hback'⟩ := htrim'
  have hskip := skipBlanks_of_noneInFront hfront
  rw [hwhole]
  by_cases hnil : trimBlanks t = []
  -- If the second text is blank, nothing is left of it behind the first.
  · have htrimmed := trimBlanks_of_noneInFront_reverse hback
    rw [hnil, List.append_nil, trimBlanks_append_blanks hgap, htrimmed, hskip, hs, sequence_nil,
      List.append_nil]
  · have hgap' : skipBlanks (gap ++ trimBlanks t) = trimBlanks t :=
      skipBlanks_append_of_noneInFront hgap hfront'
    have hblank : NoneInFront isBlank (trimBlanks s ++ (gap ++ trimBlanks t)).reverse := by
      rw [← List.append_assoc, List.reverse_append,
        noneInFront_append (mt List.reverse_eq_nil_iff.1 hnil)]
      exact hback'
    have heq' : NoneInFront (· == '=') (skipBlanks (gap ++ trimBlanks t)) := by
      rw [hgap']
      exact ((trims_trimBlanks t).noneInFront_iff hnil).1 heq
    rw [trimBlanks_of_noneInFront_reverse hblank, sequence_append (by rwa [hskip]) ?_ heq', hgap']
    -- The last argument meets a blank, or it meets the second text at its own quote.
    intro a ha
    by_cases hg : gap = []
    · exact Operand.endsBefore_of_isQuoted (hjoin (hempty hg) a ha)
    · obtain ⟨c, gap, rfl⟩ := List.exists_cons_of_ne_nil hg
      exact Operand.endsBefore_of_blank (noneInFront_cons.2 (by rw [hgap c (by simp)]; rfl))

namespace ArgumentList

open Bindings (AllAccepted Joins)

variable {input whole : String} {as bs : List Argument}
  {rest : List Char}

/-! ## The runs -/

/-- A run always looks at the first argument. -/
theorem head?_recognised (policy : DuplicatePolicy)
    (hs : Argument.sequence (trimBlanks input.toList) = (as, rest)) :
    (run policy input).recognised.head? = as.head? := by
  have hend := ending_run policy input
  generalize run policy input = r at hend
  cases hend with
  | accepted hs' =>
    obtain ⟨rfl, -⟩ := Prod.mk.inj (hs.symm.trans hs')
    rw [recognised_accepted]
  | leftOver _ hs' =>
    obtain ⟨rfl, -⟩ := Prod.mk.inj (hs.symm.trans hs')
    rw [recognised_refused]
  | @objected before _ _ _ _ hs' =>
    -- The argument at fault was looked at, so the first one is even if that is it.
    obtain ⟨rfl, -⟩ := Prod.mk.inj (hs.symm.trans hs')
    rw [recognised_refused]
    cases before with
    | nil => rfl
    | cons => rfl

/-- If the arguments of a text may stand behind others that were accepted, what
becomes of all of them is what becomes of the text. -/
theorem run_of_joins (hs : Argument.sequence (trimBlanks input.toList) = (bs, rest))
    (hwhole : Argument.sequence (trimBlanks whole.toList) = (as ++ bs, rest))
    (hall : AllAccepted default ∅ as) (hjoin : Joins ((∅ : Bindings).replay as) bs) :
    run default input = accepted input bs ∧
        run default whole = accepted whole (as ++ bs) ∨
      ∃ seen fault, run default input = refused input seen fault ∧
        run default whole = refused whole (as ++ seen) fault := by
  have hend := ending_run default input
  generalize run default input = r at hend
  cases hend with
  | accepted hs' hbs =>
    obtain ⟨rfl, rfl⟩ := Prod.mk.inj (hs.symm.trans hs')
    have hboth := Bindings.allAccepted_append.2 ⟨hall, hjoin.allAccepted_iff.2 hbs⟩
    exact .inl ⟨rfl, run_eq_accepted hwhole hboth⟩
  | leftOver hrest hs' hbs =>
    obtain ⟨rfl, rfl⟩ := Prod.mk.inj (hs.symm.trans hs')
    have hboth := Bindings.allAccepted_append.2 ⟨hall, hjoin.allAccepted_iff.2 hbs⟩
    exact .inr ⟨_, _, rfl, by rw [run_of_allAccepted hwhole hboth, if_neg hrest]⟩
  | @objected before after a _ fault hs' hbefore hfault =>
    obtain ⟨rfl, rfl⟩ := Prod.mk.inj (hs.symm.trans hs')
    -- What may be put behind `as` may be cut off anywhere.
    have hjoin' : Joins ((∅ : Bindings).replay as) before := by
      refine hjoin.imp_right fun hhead v hv => hhead v ?_
      rw [List.head?_append, hv, Option.some_or]
    have hboth := Bindings.allAccepted_append.2 ⟨hall, hjoin'.allAccepted_iff.2 hbefore⟩
    have hfault' : Bindings.fault? default ((∅ : Bindings).replay (as ++ before)) a =
        some fault := by
      rw [Bindings.replay_append]
      exact hjoin.fault?_replay.trans hfault
    refine .inr ⟨_, _, rfl, ?_⟩
    rw [← List.append_assoc] at hwhole
    rw [run_of_fault? hwhole hboth hfault', List.append_assoc]

theorem parse_of_joins (hs : Argument.sequence (trimBlanks input.toList) = (bs, rest))
    (hwhole : Argument.sequence (trimBlanks whole.toList) = (as ++ bs, rest))
    (hall : AllAccepted default ∅ as) (hjoin : Joins ((∅ : Bindings).replay as) bs) :
    (∀ m, parse default input = .ok m → parse default whole =
      .ok ⟨⟨((∅ : Bindings).replay as).positional ++ m.positional,
        ((∅ : Bindings).replay as).named.insertAll m.named.entries⟩, whole⟩) ∧
    (∀ e, parse default input = .error e → parse default whole = .error ⟨e.fault, whole⟩) ∧
    (run default whole).recognised = as ++ (run default input).recognised := by
  rw [parse, parse]
  rcases run_of_joins hs hwhole hall hjoin with ⟨hinput, hrun⟩ | ⟨seen, fault, hinput, hrun⟩
  · rw [hinput, hrun, recognised_accepted, recognised_accepted]
    refine ⟨fun m hm => ?_, fun e he => absurd he (by simp [accepted]), rfl⟩
    obtain rfl := Except.ok.inj hm
    rw [accepted, Bindings.replay_append_empty]
  · rw [hinput, hrun, recognised_refused, recognised_refused]
    refine ⟨fun m hm => absurd hm (by simp [refused]), fun e he => ?_, rfl⟩
    obtain rfl := Except.error.inj he
    rfl

/-- If they may not, the first of them is what is wrong. -/
theorem run_of_positional {policy : DuplicatePolicy} {v : List Char}
    (hwhole : Argument.sequence (trimBlanks whole.toList) = (as ++ bs, rest))
    (hall : AllAccepted policy ∅ as) (hhead : bs.head? = some (.positional v))
    (hnamed : ((∅ : Bindings).replay as).named.isEmpty = false) :
    run policy whole = refused whole (as ++ [.positional v]) (.positionalAfterNamed v) := by
  obtain ⟨bs, rfl⟩ := List.head?_eq_some_iff.1 hhead
  apply run_of_fault? hwhole hall
  rw [Bindings.fault?, if_neg]
  rw [hnamed]
  decide

/-- **Reading a text behind another.** Let the text `a` be accepted, let blanks
stand behind it, or nothing if it ends with a quoted literal, and let `b` be any
text that does not begin with an `=`. If `a` gives a name and `b` begins with a
positional argument, that argument is what is wrong. Otherwise `b` is read as if
it stood alone: what it binds is added to what `a` binds, and what is wrong with
it is wrong with the whole. -/
theorem parse_append {a w b : String} {l : ArgumentList} (ha : parse default a = .ok l)
    (hw : IsBlankText w.toList)
    (hquoted : w = "" → ∀ x, (run default a).recognised.getLast? = some x → IsQuoted x.value)
    (hb : (skipBlanks b.toList).head? ≠ some '=') :
    (∀ v, l.named.isEmpty = false → (run default b).recognised.head? = some (.positional v) →
      parse default (a ++ w ++ b) = .error ⟨.positionalAfterNamed v, a ++ w ++ b⟩ ∧
      (run default (a ++ w ++ b)).recognised =
        (run default a).recognised ++ [.positional v]) ∧
    (l.named.isEmpty = true ∨ (∀ v, (run default b).recognised.head? ≠ some (.positional v)) →
      (∀ m, parse default b = .ok m → parse default (a ++ w ++ b) =
        .ok ⟨⟨l.positional ++ m.positional, l.named.insertAll m.named.entries⟩, a ++ w ++ b⟩) ∧
      (∀ e, parse default b = .error e →
        parse default (a ++ w ++ b) = .error ⟨e.fault, a ++ w ++ b⟩) ∧
      (run default (a ++ w ++ b)).recognised =
        (run default a).recognised ++ (run default b).recognised) := by
  obtain ⟨as, hs, hall, rfl⟩ := parse_eq_ok_iff_allAccepted.1 ha
  have hra : (run default a).recognised = as := by
    rw [run_of_allAccepted hs hall, if_pos rfl, recognised_accepted]
  rw [hra] at hquoted ⊢
  rcases hsb : Argument.sequence (trimBlanks b.toList) with ⟨bs, rest⟩
  have hwhole : Argument.sequence (trimBlanks (a ++ w ++ b).toList) = (as ++ bs, rest) := by
    have h := Argument.sequence_trimBlanks_append hs hw
      (fun hnil => hquoted (String.toList_eq_nil_iff.1 hnil)) (t := b.toList) ?_
    · rwa [hsb, ← List.append_assoc, ← String.toList_append, ← String.toList_append] at h
    · intro c hc
      rw [beq_eq_false_iff_ne]
      rintro rfl
      exact hb hc
  rw [head?_recognised default hsb]
  refine ⟨fun v hnamed hhead => ?_, parse_of_joins hsb hwhole hall⟩
  rw [parse, run_of_positional hwhole hall hhead hnamed, recognised_refused]
  exact ⟨rfl, rfl⟩

/-- A quoted literal at the end of one text, and its name given again at the
beginning of the other, with nothing in between. -/
theorem parse_append_without_blank : ∃ l, parse default ("x k='1'" ++ "" ++ "k=y n=2") = .ok l ∧
    l.positional = #[.path "x"] ∧ l.named.entries = [("k", .path "y"), ("n", .literal "2")] := by
  have hfirst : Argument.PositionalsFirst [.positional ['x'], .named ['k'] ['\'', '1', '\'']] := by
    rw [Argument.PositionalsFirst]
    decide
  have hnamed : Argument.PositionalsFirst [.named ['k'] ['y'], .named ['n'] ['2']] := by
    rw [Argument.PositionalsFirst]
    decide
  have ha : parse default "x k='1'" = .ok ⟨(∅ : Bindings).replay _, _⟩ :=
    parse_eq_ok_iff_allAccepted.2
      ⟨_, by decide +kernel, Bindings.allAccepted_default_empty_iff.2 hfirst, rfl⟩
  have hb : parse default "k=y n=2" = .ok ⟨(∅ : Bindings).replay _, _⟩ :=
    parse_eq_ok_iff_allAccepted.2
      ⟨_, by decide +kernel, Bindings.allAccepted_default_empty_iff.2 hnamed, rfl⟩
  have hlast : (run default "x k='1'").recognised.getLast? =
      some (.named ['k'] ['\'', '1', '\'']) := by decide +kernel
  have hhead : (run default "k=y n=2").recognised.head? = some (.named ['k'] ['y']) := by
    decide +kernel
  have hquoted : IsQuoted ['\'', '1', '\''] := by
    refine ⟨'\'', [['1']], .inr rfl, ?_, rfl⟩
    exact List.forall_mem_singleton.2 (.inl ⟨'1', by decide, by decide, by decide, rfl⟩)
  refine ⟨_, ((parse_append ha (w := "") isBlankText_nil ?_ (by decide)).2 (.inr ?_)).1 _ hb,
    by decide +kernel, by decide +kernel⟩
  · intro _ x hx
    obtain rfl := Option.some.inj (hlast.symm.trans hx)
    exact hquoted
  · intro v hv
    exact absurd (hhead.symm.trans hv) (by simp)

end ArgumentList

end TemplateArgs
