/-
What the log of a run says.

Nothing that a run does is left out of its log. The events of arguments are the
text, piece by piece and in order, as far as it was looked at, and taking these
arguments in gives the bindings if the text is accepted. If it is not, one more
event stands at the end and is the refusal itself. What it objects to is in the
event before it, and the reason is in one further up.

`Run.AccountsFor` collects this. Which part of it is at stake shows in the
outcome, so the endings of a run are told from that first. Where the arguments
stand in the text is then the business of `Argument.exists_row_of_sequence`, and
why an argument was not accepted that of `Bindings.fault?_eq_some`.

Of an event, only its level, its message and its fields are ever shown. They are
enough to tell it from all others (`Event.eq_of_shown`), so whatever is said here
of a log can be seen from outside, and what came of a run along with it
(`ArgumentList.outcome_of_shown`).
-/
import TemplateArgs.Proofs.Layout

set_option autoImplicit false

namespace TemplateArgs

/-- What the log of a run says of its outcome and of the text. -/
structure Run.AccountsFor (r : Run) (input : String) : Prop where
  /-- If the text is accepted, every event is of an argument, and taking these in
  gives the bindings. -/
  accepted : ∀ l, r.outcome = .ok l →
    (∀ e ∈ r.log, e.level = .trace) ∧ l.toBindings = (∅ : Bindings).replay r.recognised
  /-- If it is refused, the refusal is the last event and the only one that is not
  of an argument. -/
  refused : ∀ e, r.outcome = .error e →
    r.log.filter (·.level = .debug) = [.refused e] ∧ r.log.getLast? = some (.refused e)
  /-- A misplaced argument is the last that was recognised, and one with a name
  comes before it. -/
  misplaced : ∀ e v, r.outcome = .error e → e.fault = .positionalAfterNamed v →
    ∃ before, r.log = before ++ [.recognised (.positional v), .refused e] ∧
      ∃ n u, .recognised (.named n u) ∈ before
  /-- A repeated name is that of the argument that was recognised last, and of one
  before it. -/
  repeated : ∀ e name, r.outcome = .error e → e.fault = .duplicateName name →
    ∃ before n v, r.log = before ++ [.recognised (.named n v), .refused e] ∧
      String.ofList (NameUnit.name n) = name ∧
      ∃ m u, .recognised (.named m u) ∈ before ∧ String.ofList (NameUnit.name m) = name
  /-- The arguments are a row in front of the text. The row is all of the text if
  that is accepted. If some of the text is no argument, it comes next. -/
  covered : ∃ t rest, trimBlanks input.toList = t ++ rest ∧ Row IsBlankText r.recognised t ∧
    (∀ l, r.outcome = .ok l → rest = []) ∧
    ∀ e, r.outcome = .error e → e.fault = .malformed →
      skipBlanks rest ≠ [] ∧ ∀ v, IsOperand v → ¬v <+: skipBlanks rest

/-! ## What is shown of a log -/

/-- Events with one message and the same fields are the same. -/
theorem Event.eq_of_shown {e e' : Event} (hmessage : e.message = e'.message)
    (hfields : e.fields = e'.fields) : e = e' := by
  -- The message settles which of the five kinds both are. Then the fields hold all that
  -- an event of the kind is made of.
  rcases e with (v | ⟨n, v⟩) | ⟨_ | v | name, input⟩ <;>
    rcases e' with (v' | ⟨n', v'⟩) | ⟨_ | v' | name', input'⟩
  all_goals simp_all [message, fields, String.ofList_inj]

/-- What an event shows: how much it matters, what happened, and to what. -/
def Event.shown (e : Event) : Level × String × List (String × String) :=
  (e.level, e.message, e.fields)

theorem Event.shown_injective : Function.Injective Event.shown := by
  intro e e' h
  obtain ⟨-, h⟩ := Prod.mk.inj h
  obtain ⟨hmessage, hfields⟩ := Prod.mk.inj h
  exact Event.eq_of_shown hmessage hfields

/-- What a run shows, event by event. -/
def Run.shown (r : Run) : List (Level × String × List (String × String)) := r.log.map Event.shown

@[simp] theorem Run.shown_inj {r r' : Run} : r.shown = r'.shown ↔ r.log = r'.log :=
  (List.map_injective_iff.2 Event.shown_injective).eq_iff

/-- The refusal that an event tells of. -/
def Event.refusal? : Event → Option Refusal
  | recognised _ => none
  | refused e => some e

/-- What came of a run, by its log: the refusal in it, or else what the arguments in it
bind. -/
def Run.verdict (r : Run) : Except Refusal Bindings :=
  match r.log.findSome? Event.refusal? with
  | some e => .error e
  | none => .ok ((∅ : Bindings).replay r.recognised)

namespace ArgumentList

open Bindings (fault?)
open Argument (sequence)

variable {policy : DuplicatePolicy} {input : String} {r : Run} {e : Refusal}
  {as before after : List Argument} {a : Argument} {rest v : List Char} {name : String}
  {fault : Fault}

/-! ## Endings of a refused text -/

/-- A refusal says what is wrong with the argument before it, or that what comes
next is none. -/
theorem Ending.of_error (h : Ending policy input r) (he : r.outcome = .error e) :
    (∃ as, e = ⟨.malformed, input⟩ ∧ r = ArgumentList.refused input as .malformed) ∨
    ∃ before a fault, fault? policy ((∅ : Bindings).replay before) a = some fault ∧
      e = ⟨fault, input⟩ ∧ r = ArgumentList.refused input (before ++ [a]) fault := by
  cases h with
  | accepted => exact absurd he (by simp [ArgumentList.accepted])
  | leftOver =>
    obtain rfl := Except.error.inj he
    exact .inl ⟨_, rfl, rfl⟩
  | objected _ _ hfault =>
    obtain rfl := Except.error.inj he
    exact .inr ⟨_, _, _, hfault, rfl, rfl⟩

/-! ## The log of an ending -/

theorem level_of_mem_log_accepted {event : Event} (h : event ∈ (accepted input as).log) :
    event.level = .trace := by
  obtain ⟨a, -, rfl⟩ := List.mem_map.1 h
  rfl

theorem filter_debug_log_refused : (refused input as fault).log.filter (·.level = .debug) =
    [.refused ⟨fault, input⟩] := by
  have hnone : (as.map Event.recognised).filter (·.level = .debug) = [] := by
    simp [Event.level]
  rw [refused, List.filter_append, hnone]
  rfl

theorem getLast?_log_refused : (refused input as fault).log.getLast? =
    some (.refused ⟨fault, input⟩) :=
  List.getLast?_concat

/-- The argument that is objected to stands right before the refusal. -/
theorem log_refused_concat : (refused input (before ++ [a]) fault).log =
    before.map .recognised ++ [.recognised a, .refused ⟨fault, input⟩] := by
  simp [refused]

/-- And the name that it must not follow, or must not repeat, stands further up. -/
theorem exists_named_of_misplaced
    (h : fault? policy ((∅ : Bindings).replay before) a = some (.positionalAfterNamed v)) :
    a = .positional v ∧ ∃ n u, .recognised (.named n u) ∈ before.map Event.recognised := by
  rcases Bindings.fault?_eq_some h with ⟨v', rfl, hnamed, hfault⟩ | ⟨n, v', -, -, -, hfault⟩
  · obtain rfl := Fault.positionalAfterNamed.inj hfault
    obtain ⟨n, u, hmem⟩ := Bindings.exists_named_of_isEmpty_eq_false hnamed
    exact ⟨rfl, n, u, List.mem_map_of_mem hmem⟩
  · exact absurd hfault (by simp)

theorem exists_named_of_repeated
    (h : fault? policy ((∅ : Bindings).replay before) a = some (.duplicateName name)) :
    (∃ n v, a = .named n v ∧ String.ofList (NameUnit.name n) = name) ∧
    ∃ m u, .recognised (.named m u) ∈ before.map Event.recognised ∧
      String.ofList (NameUnit.name m) = name := by
  rcases Bindings.fault?_eq_some h with ⟨v, -, -, hfault⟩ | ⟨n, v, -, rfl, hkey, hfault⟩
  · exact absurd hfault (by simp)
  · obtain rfl := Fault.duplicateName.inj hfault
    obtain ⟨m, u, hmem, hname⟩ := Bindings.exists_named_of_mem_keys hkey
    exact ⟨⟨n, v, rfl, rfl⟩, m, u, List.mem_map_of_mem hmem, hname⟩

/-! ## The text of an ending -/

/-- What was recognised first is a row in front of the text. -/
theorem exists_row_of_sequence_trimBlanks {bs : List Argument}
    (hs : sequence (trimBlanks input.toList) = (as ++ bs, rest)) :
    ∃ t u, trimBlanks input.toList = t ++ u ∧ Row IsBlankText as t ∧
      sequence (skipBlanks u) = (bs, rest) := by
  obtain ⟨-, -, -, -, -, hfront, -⟩ := trims_trimBlanks input.toList
  exact Argument.exists_row_of_sequence hfront hs

/-- A text that is arguments throughout is a row from its first character to its
last. -/
theorem row_of_sequence (hs : sequence (trimBlanks input.toList) = (as, [])) :
    Row IsBlankText as (trimBlanks input.toList) := by
  rw [← List.append_nil as] at hs
  obtain ⟨t, u, htext, hrow, hu⟩ := exists_row_of_sequence_trimBlanks hs
  obtain ⟨-, -, -, -, -, -, hback⟩ := trims_trimBlanks input.toList
  have hblank : IsBlankText u := skipBlanks_eq_nil_iff.1 (Argument.sequence_eq_nil_iff.1 hu).2
  rw [htext] at hback ⊢
  rwa [eq_nil_of_isBlankText hback hblank, List.append_nil]

/-- What is left over has no argument in front. -/
theorem exists_row_of_leftOver (hrest : rest ≠ [])
    (hs : sequence (trimBlanks input.toList) = (as, rest)) :
    ∃ t u, trimBlanks input.toList = t ++ u ∧ Row IsBlankText as t ∧
      skipBlanks u ≠ [] ∧ ∀ v, IsOperand v → ¬v <+: skipBlanks u := by
  rw [← List.append_nil as] at hs
  obtain ⟨t, u, htext, hrow, hu⟩ := exists_row_of_sequence_trimBlanks hs
  obtain ⟨hnone, hskip⟩ := Argument.sequence_eq_nil_iff.1 hu
  refine ⟨t, u, htext, hrow, ?_, fun v hv => Argument.not_prefix_of_split?_eq_none hnone hv⟩
  rwa [hskip]

/-! ## The account -/

/-- **The log accounts for the run.** Replaying the events of an accepted text
gives what it binds. A refused text leaves one more event, which is the last and
the refusal itself, right behind the argument that is objected to if there is
one. In either case what was recognised is the text, word for word, up to where
the run stopped. -/
theorem accountsFor_run (policy : DuplicatePolicy) (input : String) :
    (run policy input).AccountsFor input := by
  have hend := ending_run policy input
  generalize run policy input = r at hend
  constructor
  case accepted =>
    intro l hl
    obtain ⟨as, -, -, rfl⟩ := hend.of_ok hl
    obtain rfl := Except.ok.inj hl
    refine ⟨fun e he => level_of_mem_log_accepted he, ?_⟩
    rw [recognised_accepted]
  case refused =>
    intro e he
    rcases hend.of_error he with ⟨as, rfl, rfl⟩ | ⟨before, a, fault, -, rfl, rfl⟩
    · exact ⟨filter_debug_log_refused, getLast?_log_refused⟩
    · exact ⟨filter_debug_log_refused, getLast?_log_refused⟩
  case misplaced =>
    intro e v he hv
    rcases hend.of_error he with ⟨as, rfl, rfl⟩ | ⟨before, a, fault, hfault, rfl, rfl⟩
    · exact absurd hv (by simp)
    · obtain rfl : fault = .positionalAfterNamed v := hv
      obtain ⟨rfl, hnamed⟩ := exists_named_of_misplaced hfault
      exact ⟨_, log_refused_concat, hnamed⟩
  case repeated =>
    intro e name he hname
    rcases hend.of_error he with ⟨as, rfl, rfl⟩ | ⟨before, a, fault, hfault, rfl, rfl⟩
    · exact absurd hname (by simp)
    · obtain rfl : fault = .duplicateName name := hname
      obtain ⟨⟨n, v, rfl, hn⟩, hfirst⟩ := exists_named_of_repeated hfault
      exact ⟨_, n, v, log_refused_concat, hn, hfirst⟩
  case covered =>
    cases hend with
    | accepted hs _ =>
      rw [recognised_accepted]
      refine ⟨_, [], (List.append_nil _).symm, row_of_sequence hs, fun _ _ => rfl, ?_⟩
      intro e he
      exact absurd he (by simp [accepted])
    | leftOver hrest hs _ =>
      obtain ⟨t, u, htext, hrow, hleft⟩ := exists_row_of_leftOver hrest hs
      rw [recognised_refused]
      exact ⟨t, u, htext, hrow, fun l hl => absurd hl (by simp [refused]), fun _ _ _ => hleft⟩
    | objected hs _ hfault =>
      rw [List.append_cons] at hs
      obtain ⟨t, u, htext, hrow, -⟩ := exists_row_of_sequence_trimBlanks hs
      rw [recognised_refused]
      refine ⟨t, u, htext, hrow, fun l hl => absurd hl (by simp [refused]), fun e he hmal => ?_⟩
      obtain rfl := Except.error.inj he
      exact absurd hmal (Bindings.ne_malformed_of_fault? hfault)

/-! ## The outcome -/

@[simp] theorem findSome?_map_recognised (as : List Argument) :
    (as.map Event.recognised).findSome? Event.refusal? = none := by
  rw [List.findSome?_eq_none_iff, List.forall_mem_map]
  intro a _
  rfl

@[simp] theorem verdict_accepted : (accepted input as).verdict = .ok ((∅ : Bindings).replay as) := by
  rw [Run.verdict, recognised_accepted, accepted, findSome?_map_recognised]

@[simp] theorem verdict_refused : (refused input as fault).verdict = .error ⟨fault, input⟩ := by
  rw [Run.verdict, refused, List.findSome?_append, findSome?_map_recognised]
  rfl

/-- The log of a run does not leave its outcome open. -/
theorem Ending.map_outcome (h : Ending policy input r) :
    r.outcome.map (·.toBindings) = r.verdict := by
  cases h with
  | accepted =>
    rw [verdict_accepted]
    rfl
  | leftOver =>
    rw [verdict_refused]
    rfl
  | objected =>
    rw [verdict_refused]
    rfl

/-- **What a run shows tells what came of it.** Two runs of which the same is shown
refuse one text for one reason, or they bind the same. -/
theorem outcome_of_shown {policy' : DuplicatePolicy} {input' : String}
    (h : (run policy input).shown = (run policy' input').shown) :
    (run policy input).outcome.map (·.toBindings) =
      (run policy' input').outcome.map (·.toBindings) := by
  have hlog : (run policy input).log = (run policy' input').log := Run.shown_inj.1 h
  rw [(ending_run policy input).map_outcome, (ending_run policy' input').map_outcome,
    Run.verdict, Run.verdict, Run.recognised, Run.recognised, hlog]

end ArgumentList

end TemplateArgs
