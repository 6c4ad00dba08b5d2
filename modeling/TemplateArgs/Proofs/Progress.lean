/-
Why reading a text comes to an end, and how soon.

A loop over a text is made of turns, and each begins where the one before stopped.
It would go round for ever if a turn could succeed on nothing. In the grammar none
can: a step up is three characters, a separator comes with a unit, and the scan of a
literal takes a character or a pair. `Repeats` says this of a loop together with
what it computes, and every loop of the grammar is shown to repeat a turn that is
written down for itself.

The loop over the arguments takes bindings along and may stop at an argument that
is not accepted. `Reads` says what it does, turn by turn. `ArgumentList.run` does not
go about it that way, it cuts the whole text into arguments before it accepts
any, but what it answers is what the loop ends with (`reads_iff`). A turn takes at
least one character, and three if there is a name and an `=` besides the operand. The
length of the text therefore bounds how many arguments are recognised, however
the run ends, and an attempt at a name that was given up is not charged for.
-/
import TemplateArgs.Printer
import TemplateArgs.Proofs.Run

set_option autoImplicit false

namespace TemplateArgs

/-! ## Loops -/

section Loops

variable {α β : Type} {turn : List Char → Option (α × List Char)}
  {finish : List α → List Char → β} {loop : List Char → β}

/-- From the text `s` on there is a turn for each of `xs`, which is what it takes, and
none any more where `t` is left. -/
inductive Turns (turn : List Char → Option (α × List Char)) :
    List Char → List α → List Char → Prop
  | stop {s : List Char} : turn s = none → Turns turn s [] s
  | next {s r t : List Char} {x : α} {xs : List α} : turn s = some (x, r) →
      Turns turn r xs t → Turns turn s (x :: xs) t

/-- Whether a function goes through a text turn by turn and then puts together what
the turns have taken, where no turn leaves the text as long as it was. -/
structure Repeats (turn : List Char → Option (α × List Char))
    (finish : List α → List Char → β) (loop : List Char → β) : Prop where
  advances : ∀ s x r, turn s = some (x, r) → r.length < s.length
  ends : ∀ s, ∃ xs t, Turns turn s xs t ∧ loop s = finish xs t

/-- A loop whose turns advance ends, and it is enough to look at the first turn to see
with what. -/
theorem Repeats.of_turn (advances : ∀ s x r, turn s = some (x, r) → r.length < s.length)
    (stop : ∀ s, turn s = none → loop s = finish [] s)
    (next : ∀ s x r, turn s = some (x, r) →
      ∀ xs t, loop r = finish xs t → loop s = finish (x :: xs) t) :
    Repeats turn finish loop where
  advances := advances
  ends s := by
    induction hn : s.length using Nat.strong_induction_on generalizing s with
    | _ n ih =>
      cases hs : turn s with
      | none => exact ⟨[], s, .stop hs, stop s hs⟩
      | some xr =>
        obtain ⟨x, r⟩ := xr
        have hlt := advances s x r hs
        obtain ⟨xs, t, hturns, hloop⟩ := ih r.length (hn ▸ hlt) r rfl
        exact ⟨x :: xs, t, .next hs hturns, next s x r hs xs t hloop⟩

/-- The words that were taken, as one, and the text that is left. -/
def joined (words : List (List Char)) (rest : List Char) : List Char × List Char :=
  (words.flatten, rest)

end Loops

/-! ## The loops of the grammar -/

namespace Path

/-- One step up at the front of a text. -/
def climb? : List Char → Option (List Char × List Char)
  | '.' :: '.' :: '/' :: s => some (['.', '.', '/'], s)
  | _ => none

/-- One unit at the front of a text, with the separator before it. -/
def segment? : List Char → Option (List Char × List Char)
  | [] => none
  | c :: s =>
    if isSeparator c then (NameUnit.split? s).map fun e => (c :: e.1, e.2) else none

theorem repeats_parents : Repeats climb? joined parents := by
  refine .of_turn (fun s x r h => ?_) (fun s h => ?_) fun s x r h xs t hr => ?_
  · unfold climb? at h
    split at h
    · obtain ⟨-, rfl⟩ := Prod.mk.inj (Option.some.inj h)
      simp only [List.length_cons]
      omega
    · exact absurd h (by simp)
  · rw [parents]
    · rfl
    · rintro v rfl
      exact absurd h (by simp [climb?])
  · unfold climb? at h
    split at h
    · obtain ⟨rfl, rfl⟩ := Prod.mk.inj (Option.some.inj h)
      rw [parents, hr]
      rfl
    · exact absurd h (by simp)

theorem segment?_eq_some_iff {s x r : List Char} : segment? s = some (x, r) ↔
    ∃ c v u, s = c :: v ∧ (c = '.' ∨ c = '/') ∧ NameUnit.split? v = some (u, r) ∧
      x = c :: u := by
  cases s with
  | nil => simp [segment?]
  | cons c v =>
    simp only [segment?, Option.ite_none_right_eq_some, Option.map_eq_some_iff, Prod.exists,
      Prod.mk.injEq, isSeparator_iff]
    constructor
    · rintro ⟨hc, u, r', hu, rfl, rfl⟩
      exact ⟨c, v, u, rfl, hc, hu, rfl⟩
    · rintro ⟨c', v', u, hs, hc, hu, rfl⟩
      obtain ⟨rfl, rfl⟩ := List.cons.inj hs
      exact ⟨hc, u, r, hu, rfl, rfl⟩

theorem repeats_segments : Repeats segment? joined segments := by
  refine .of_turn (fun s x r h => ?_) (fun s h => ?_) fun s x r h xs t hr => ?_
  · obtain ⟨c, v, u, rfl, -, hu, rfl⟩ := segment?_eq_some_iff.1 h
    have hlt := NameUnit.length_lt_of_split? hu
    rw [List.length_cons]
    omega
  · refine segments_eq_nil fun c v hs hc => ?_
    -- With a unit behind the separator there would have been a turn.
    by_contra hsome
    obtain ⟨⟨u, r⟩, hu⟩ := Option.ne_none_iff_exists'.1 hsome
    have hturn := segment?_eq_some_iff.2 ⟨c, v, u, hs, hc, hu, rfl⟩
    exact absurd (h.symm.trans hturn) (by simp)
  · obtain ⟨c, v, u, rfl, hc, hu, rfl⟩ := segment?_eq_some_iff.1 h
    rw [segments_of_split? hc hu, hr]
    rfl

end Path

namespace Quoted

variable {q : Char}

/-- One turn of the scan for the quote `q`: a character for itself or an escaped pair. -/
def piece? (q : Char) : List Char → Option (List Char × List Char)
  | [] => none
  | '\\' :: [] => none
  | '\\' :: c :: s => if c = '\n' then none else some (['\\', c], s)
  | c :: s => if c = q ∨ c = '\n' then none else some ([c], s)

/-- The pieces before a quote `q`, as one, and what follows it. There is no such quote if
the scan came to its end for another reason. -/
def closed (q : Char) (pieces : List (List Char)) : List Char → Option (List Char × List Char)
  | [] => none
  | c :: s => if c = q then some (pieces.flatten, s) else none

theorem piece?_eq_some_iff {s x r : List Char} : piece? q s = some (x, r) ↔
    (∃ c, s = '\\' :: c :: r ∧ c ≠ '\n' ∧ x = ['\\', c]) ∨
    ∃ c, s = c :: r ∧ c ≠ '\\' ∧ c ≠ q ∧ c ≠ '\n' ∧ x = [c] := by
  constructor
  · intro h
    unfold piece? at h
    split at h
    · exact absurd h (by simp)
    · exact absurd h (by simp)
    · next c s =>
      rw [Option.ite_none_left_eq_some] at h
      obtain ⟨hline, hx⟩ := h
      obtain ⟨rfl, rfl⟩ := Prod.mk.inj (Option.some.inj hx)
      exact .inl ⟨c, rfl, hline, rfl⟩
    · next c s hlone hpair =>
      rw [Option.ite_none_left_eq_some, not_or] at h
      obtain ⟨⟨hquote, hline⟩, hx⟩ := h
      obtain ⟨rfl, rfl⟩ := Prod.mk.inj (Option.some.inj hx)
      exact .inr ⟨c, rfl, ne_backslash_of_unescaped hlone hpair, hquote, hline, rfl⟩
  · rintro (⟨c, rfl, hline, rfl⟩ | ⟨c, rfl, hesc, hquote, hline, rfl⟩)
    · rw [piece?, if_neg hline]
    · rw [piece?, if_neg (not_or.2 ⟨hquote, hline⟩)]
      · exact fun h _ => hesc h
      · exact fun _ _ h _ => hesc h

@[simp] theorem closed_cons (p : List Char) (ps : List (List Char)) (t : List Char) :
    closed q (p :: ps) t = (closed q ps t).map fun e => (p ++ e.1, e.2) := by
  cases t with
  | nil => rfl
  | cons c r =>
    rw [closed, closed]
    split
    · rfl
    · rfl

/-- Where there is no further piece the content ends, with a quote or without one. -/
theorem content?_of_stop (hq : q ≠ '\\') {s : List Char} (h : piece? q s = none) :
    content? q s = closed q [] s := by
  cases s with
  | nil => rfl
  | cons c s =>
    by_cases hesc : c = '\\'
    · subst hesc
      rw [closed, if_neg hq.symm]
      cases s with
      | nil => rfl
      | cons c s =>
        rw [piece?, ite_eq_left_iff] at h
        rw [content?, if_pos (by_contra fun hline => absurd (h hline) (by simp))]
    · rw [content?_cons hesc, closed]
      split
      · rfl
      · next hquote =>
        refine if_pos (by_contra fun hline => ?_)
        have hturn : piece? q (c :: s) = some ([c], s) :=
          piece?_eq_some_iff.2 (.inr ⟨c, rfl, hesc, hquote, hline, rfl⟩)
        exact absurd (h.symm.trans hturn) (by simp)

theorem repeats_content? (hq : q ≠ '\\') : Repeats (piece? q) (closed q) (content? q) := by
  refine .of_turn (fun s x r h => ?_) (fun s h => content?_of_stop hq h) fun s x r h xs t hr => ?_
  · rcases piece?_eq_some_iff.1 h with ⟨c, rfl, -⟩ | ⟨c, rfl, -⟩
    · rw [List.length_cons, List.length_cons]
      omega
    · exact Nat.lt_succ_self _
  · rw [closed_cons, ← hr]
    rcases piece?_eq_some_iff.1 h with ⟨c, rfl, hline, rfl⟩ | ⟨c, rfl, hesc, hquote, hline, rfl⟩
    · rw [content?, if_neg hline]
      rfl
    · rw [content?_cons hesc, if_neg hquote, if_neg hline]
      rfl

end Quoted

/-! ## The loop over the arguments -/

namespace Argument

variable {s r : List Char} {a : Argument}

/-- The number of characters that an argument takes at least: its operand has one, and
with a name there are the name and the `=`. -/
def leastLength : Argument → Nat
  | positional _ => 1
  | named _ _ => 3

theorem length_add_leastLength_le (h : split? s = some (a, r)) :
    r.length + a.leastLength ≤ s.length := by
  rcases split?_eq_some_iff.1 h with h | ⟨-, h⟩
  · obtain ⟨n, v, _, _, _, _, _, rfl⟩ := named?_eq_some_iff.1 h
    exact length_lt_of_named? h
  · obtain ⟨v, _, rfl⟩ := positional?_eq_some_iff.1 h
    exact length_lt_of_positional? h

/-- The number of characters that some arguments take at least. -/
def leastTotal (as : List Argument) : Nat :=
  as.countP (!·.isNamed) + 3 * as.countP (·.isNamed)

@[simp] theorem leastTotal_nil : leastTotal [] = 0 := rfl

@[simp] theorem leastTotal_cons (a : Argument) (as : List Argument) :
    leastTotal (a :: as) = a.leastLength + leastTotal as := by
  rw [leastTotal, leastTotal, List.countP_cons, List.countP_cons]
  cases a with
  | positional v =>
    simp only [isNamed, leastLength, Bool.not_false, if_true, Bool.false_eq_true, if_false]
    omega
  | named n v =>
    simp only [isNamed, leastLength, Bool.not_true, if_true, Bool.false_eq_true, if_false]
    omega

end Argument

namespace ArgumentList

open Bindings (AllAccepted fault? accept)
open Argument (sequence)

variable {policy : DuplicatePolicy} {input : String} {b : Bindings} {s rest : List Char}
  {as bs : List Argument}

/-- The loop over the arguments, from the bindings `b` and the text `s` on, with what is
logged and what comes of it. -/
inductive Reads (policy : DuplicatePolicy) (input : String) :
    Bindings → List Char → Run → Prop
  /-- nothing is left -/
  | done {b : Bindings} : Reads policy input b [] ⟨[], .ok ⟨b, input⟩⟩
  /-- what is left is no argument -/
  | malformed {b : Bindings} {s : List Char} : s ≠ [] → Argument.split? s = none →
      Reads policy input b s ⟨[.refused ⟨.malformed, input⟩], .error ⟨.malformed, input⟩⟩
  /-- the next argument is not accepted -/
  | refused {b : Bindings} {s r : List Char} {a : Argument} {fault : Fault} :
      Argument.split? s = some (a, r) → accept policy b a = .error fault →
      Reads policy input b s
        ⟨[.recognised a, .refused ⟨fault, input⟩], .error ⟨fault, input⟩⟩
  /-- it is accepted, and the loop goes on behind it and the blanks that follow -/
  | next {b b' : Bindings} {s r : List Char} {a : Argument} {log : List Event}
      {outcome : Except Refusal ArgumentList} :
      Argument.split? s = some (a, r) → accept policy b a = .ok b' →
      Reads policy input b' (skipBlanks r) ⟨log, outcome⟩ →
      Reads policy input b s ⟨.recognised a :: log, outcome⟩

variable {r₁ r₂ r : Run}

/-- What the loop does is settled by where it starts. -/
theorem Reads.unique (h₁ : Reads policy input b s r₁) (h₂ : Reads policy input b s r₂) :
    r₁ = r₂ := by
  induction h₁ generalizing r₂ with
  | done =>
    cases h₂ with
    | done => rfl
    | malformed hne => exact absurd rfl hne
    | refused hs => exact absurd hs (by simp [Argument.split?_nil])
    | next hs => exact absurd hs (by simp [Argument.split?_nil])
  | malformed hne hnone =>
    cases h₂ with
    | done => exact absurd rfl hne
    | malformed => rfl
    | refused hs => exact absurd (hs.symm.trans hnone) (by simp)
    | next hs => exact absurd (hs.symm.trans hnone) (by simp)
  | refused hs hfault =>
    cases h₂ with
    | done => exact absurd hs (by simp [Argument.split?_nil])
    | malformed _ hnone => exact absurd (hs.symm.trans hnone) (by simp)
    | refused hs' hfault' =>
      obtain ⟨rfl, rfl⟩ := Prod.mk.inj (Option.some.inj (hs.symm.trans hs'))
      obtain rfl := Except.error.inj (hfault.symm.trans hfault')
      rfl
    | next hs' hok =>
      obtain ⟨rfl, rfl⟩ := Prod.mk.inj (Option.some.inj (hs.symm.trans hs'))
      exact absurd (hfault.symm.trans hok) (by simp)
  | next hs hok _ ih =>
    cases h₂ with
    | done => exact absurd hs (by simp [Argument.split?_nil])
    | malformed _ hnone => exact absurd (hs.symm.trans hnone) (by simp)
    | refused hs' hfault =>
      obtain ⟨rfl, rfl⟩ := Prod.mk.inj (Option.some.inj (hs.symm.trans hs'))
      exact absurd (hok.symm.trans hfault) (by simp)
    | next hs' hok' hrest =>
      obtain ⟨rfl, rfl⟩ := Prod.mk.inj (Option.some.inj (hs.symm.trans hs'))
      obtain rfl := Except.ok.inj (hok.symm.trans hok')
      obtain ⟨rfl, rfl⟩ := Run.mk.inj (ih hrest)
      rfl

/-- Arguments that are accepted are gone through one by one, and what becomes of the
loop is decided behind them. -/
theorem Reads.of_allAccepted (hall : AllAccepted policy b as)
    (hs : sequence s = (as ++ bs, rest))
    (hbehind : ∀ u, sequence u = (bs, rest) → Reads policy input (b.replay as) u r) :
    Reads policy input b s ⟨as.map .recognised ++ r.log, r.outcome⟩ := by
  induction as generalizing b s with
  | nil => exact hbehind s hs
  | cons a as ih =>
    obtain ⟨u, hsplit, hu⟩ := Argument.sequence_eq_cons_iff.1 hs
    exact .next hsplit (Bindings.accept_of_none hall.1) (ih hall.2 hu hbehind)

/-- A run is what the loop ends with. -/
theorem reads_run (policy : DuplicatePolicy) (input : String) :
    Reads policy input ∅ (trimBlanks input.toList) (run policy input) := by
  have hend := ending_run policy input
  generalize run policy input = r at hend
  cases hend with
  | @accepted as hs hall =>
    rw [← List.append_nil as] at hs
    have hbehind : ∀ u, sequence u = ([], []) → Reads policy input ((∅ : Bindings).replay as) u
        ⟨[], .ok ⟨(∅ : Bindings).replay as, input⟩⟩ := by
      intro u hu
      obtain ⟨-, rfl⟩ := Argument.sequence_eq_nil_iff.1 hu
      exact .done
    have hread := Reads.of_allAccepted hall hs hbehind
    rwa [List.append_nil] at hread
  | @leftOver as rest hrest hs hall =>
    rw [← List.append_nil as] at hs
    have hbehind : ∀ u, sequence u = ([], rest) →
        Reads policy input ((∅ : Bindings).replay as) u
          ⟨[.refused ⟨.malformed, input⟩], .error ⟨.malformed, input⟩⟩ := by
      intro u hu
      obtain ⟨hnone, rfl⟩ := Argument.sequence_eq_nil_iff.1 hu
      exact .malformed hrest hnone
    exact Reads.of_allAccepted hall hs hbehind
  | @objected before after a rest fault hs hall hfault =>
    have hbehind : ∀ u, sequence u = (a :: after, rest) →
        Reads policy input ((∅ : Bindings).replay before) u
          ⟨[.recognised a, .refused ⟨fault, input⟩], .error ⟨fault, input⟩⟩ := by
      intro u hu
      obtain ⟨v, hsplit, -⟩ := Argument.sequence_eq_cons_iff.1 hu
      exact .refused hsplit (Bindings.accept_of_fault? hfault)
    have hread := Reads.of_allAccepted hall hs hbehind
    rw [ArgumentList.refused, List.map_append, List.append_assoc]
    exact hread

theorem reads_iff : Reads policy input ∅ (trimBlanks input.toList) r ↔ r = run policy input := by
  constructor
  · intro h
    exact h.unique (reads_run policy input)
  · rintro rfl
    exact reads_run policy input

/-- However the loop ends, there was text enough for all the arguments. -/
theorem Reads.leastTotal_le (h : Reads policy input b s r) :
    Argument.leastTotal r.recognised ≤ s.length := by
  induction h with
  | done => exact Nat.le_refl _
  | malformed => exact Nat.zero_le _
  | @refused b s r a fault hsplit =>
    have hle := Argument.length_add_leastLength_le hsplit
    rw [Run.recognised_cons_argument, Run.recognised_cons_refusal, Run.recognised_nil,
      Argument.leastTotal_cons, Argument.leastTotal_nil]
    omega
  | @next b b' s r a log outcome hsplit _ _ ih =>
    have hle := Argument.length_add_leastLength_le hsplit
    have hskip := length_skipBlanks_le r
    rw [Run.recognised_cons_argument, Argument.leastTotal_cons]
    omega

/-- **Reading goes forward and ends.** An argument takes at least one character of the
text, and three if it has a name. The loops that cut words off, over the steps up of a
path, its segments and the pieces of a literal, end after some turns, none of which
leaves the text as it was. The loop over the arguments ends as well, under either policy,
and with nothing but the run. The arguments that were recognised by then, each with a name
counted three times, are no more than there are characters in the trimmed text. -/
theorem reading_progresses (policy : DuplicatePolicy) (input : String) :
    (∀ s a r, Argument.split? s = some (a, r) → r.length + a.leastLength ≤ s.length) ∧
    Repeats Path.climb? joined Path.parents ∧
    Repeats Path.segment? joined Path.segments ∧
    (∀ q : Quote, Repeats (Quoted.piece? q.char) (Quoted.closed q.char)
      (Quoted.content? q.char)) ∧
    (∀ r, Reads policy input ∅ (trimBlanks input.toList) r ↔ r = run policy input) ∧
    (run policy input).recognised.countP (!·.isNamed) +
      3 * (run policy input).recognised.countP (·.isNamed) ≤ (trimBlanks input.toList).length := by
  refine ⟨fun s a r h => Argument.length_add_leastLength_le h, Path.repeats_parents,
    Path.repeats_segments, fun q => Quoted.repeats_content? ?_, fun r => reads_iff, ?_⟩
  · cases q <;> decide
  · exact (reads_run policy input).leastTotal_le

/-- A name that is given up, and is then an argument that must not stand there. -/
theorem reading_progresses_given_up :
    Argument.split? ['c', '='] = some (.positional ['c'], ['=']) ∧
    ['='].length + (Argument.positional ['c']).leastLength ≤ ['c', '='].length ∧
    (run .reject "a=b c=").recognised = [.named ['a'] ['b'], .positional ['c']] ∧
    1 + 3 * 1 ≤ (trimBlanks "a=b c=".toList).length := by
  obtain ⟨hstep, -, -, -, -, hbound⟩ := reading_progresses .reject "a=b c="
  have hsplit : Argument.split? ['c', '='] = some (.positional ['c'], ['=']) := by decide +kernel
  have hrun : (run .reject "a=b c=").recognised = [.named ['a'] ['b'], .positional ['c']] := by
    decide +kernel
  rw [hrun] at hbound
  exact ⟨hsplit, hstep _ _ _ hsplit, hrun, hbound⟩

end ArgumentList

end TemplateArgs
