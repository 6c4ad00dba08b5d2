/-
How a run over a text can end.

There are three endings: the text is arguments throughout and all are accepted,
all that is recognised is accepted and some text is left over, or something is
wrong with an argument and what comes later is never looked at. `Ending` says
for each what the log and the outcome are, and `ending_run` that there is no
other. Each ending is decided by the sequence of arguments and by how far it is
accepted, so results about two runs on texts that have a sequence in common
follow from results about lists of arguments.
-/
import TemplateArgs.Proofs.Bindings
import TemplateArgs.Proofs.Sequence
import TemplateArgs.ArgumentList

set_option autoImplicit false

namespace TemplateArgs

/-! ## What a log tells -/

/-- The argument that an event tells of. -/
def Event.argument? : Event → Option Argument
  | recognised a => some a
  | refused _ => none

/-- The arguments that a run looked at, in order. -/
def Run.recognised (r : Run) : List Argument := r.log.filterMap Event.argument?

namespace Run

variable {a : Argument} {e : Refusal} {log : List Event} {outcome : Except Refusal ArgumentList}

@[simp] theorem recognised_nil : recognised ⟨[], outcome⟩ = [] := rfl

@[simp] theorem recognised_cons_argument :
    recognised ⟨.recognised a :: log, outcome⟩ = a :: recognised ⟨log, outcome⟩ := rfl

@[simp] theorem recognised_cons_refusal :
    recognised ⟨.refused e :: log, outcome⟩ = recognised ⟨log, outcome⟩ := rfl

end Run

theorem filterMap_argument?_map_recognised (as : List Argument) :
    (as.map Event.recognised).filterMap Event.argument? = as := by
  rw [List.filterMap_map]
  exact List.filterMap_some

/-- The events of the lower level are those of arguments. -/
theorem Run.filter_trace (r : Run) :
    r.log.filter (·.level = .trace) = r.recognised.map Event.recognised := by
  rw [recognised]
  induction r.log with
  | nil => rfl
  | cons e log ih =>
    cases e with
    | recognised a =>
      rw [List.filter_cons_of_pos rfl, ih]
      rfl
    | refused e =>
      rw [List.filter_cons_of_neg (by simp [Event.level]), ih]
      rfl

namespace ArgumentList

open Bindings (AllAccepted fault? acceptAll)
open Argument (sequence)

variable {policy : DuplicatePolicy} {input : String} {l : ArgumentList}
  {as before after : List Argument} {a : Argument} {rest : List Char} {fault : Fault}

/-! ## The endings -/

/-- The run in which the arguments `seen` were looked at and the text was
refused. -/
def refused (input : String) (seen : List Argument) (fault : Fault) : Run :=
  ⟨seen.map .recognised ++ [.refused ⟨fault, input⟩], .error ⟨fault, input⟩⟩

/-- The run in which the arguments `seen` were looked at and all was accepted. -/
def accepted (input : String) (seen : List Argument) : Run :=
  ⟨seen.map .recognised, .ok ⟨(∅ : Bindings).replay seen, input⟩⟩

@[simp] theorem recognised_refused : (refused input as fault).recognised = as := by
  rw [refused, Run.recognised, List.filterMap_append, filterMap_argument?_map_recognised]
  exact List.append_nil as

@[simp] theorem recognised_accepted : (accepted input as).recognised = as :=
  filterMap_argument?_map_recognised as

/-- The three ways in which a run may go. -/
inductive Ending (policy : DuplicatePolicy) (input : String) : Run → Prop
  | accepted {as : List Argument} : sequence (trimBlanks input.toList) = (as, []) →
      AllAccepted policy ∅ as → Ending policy input (accepted input as)
  | leftOver {as : List Argument} {rest : List Char} : rest ≠ [] →
      sequence (trimBlanks input.toList) = (as, rest) → AllAccepted policy ∅ as →
      Ending policy input (refused input as .malformed)
  | objected {before after : List Argument} {a : Argument} {rest : List Char} {fault : Fault} :
      sequence (trimBlanks input.toList) = (before ++ a :: after, rest) →
      AllAccepted policy ∅ before → fault? policy ((∅ : Bindings).replay before) a = some fault →
      Ending policy input (refused input (before ++ [a]) fault)

theorem run_of_allAccepted (hs : sequence (trimBlanks input.toList) = (as, rest))
    (h : AllAccepted policy ∅ as) : run policy input =
      if rest = [] then accepted input as else refused input as .malformed := by
  simp only [run, hs, Bindings.acceptAll_of_allAccepted h, List.isEmpty_iff]
  rfl

theorem run_eq_accepted (hs : sequence (trimBlanks input.toList) = (as, []))
    (h : AllAccepted policy ∅ as) : run policy input = accepted input as := by
  rw [run_of_allAccepted hs h, if_pos rfl]

theorem run_of_fault? (hs : sequence (trimBlanks input.toList) = (before ++ a :: after, rest))
    (h : AllAccepted policy ∅ before)
    (hfault : fault? policy ((∅ : Bindings).replay before) a = some fault) :
    run policy input = refused input (before ++ [a]) fault := by
  simp only [run, hs, Bindings.acceptAll_of_fault? h hfault]
  rfl

/-- Every run ends in one of the three ways. -/
theorem ending_run (policy : DuplicatePolicy) (input : String) :
    Ending policy input (run policy input) := by
  rcases hs : sequence (trimBlanks input.toList) with ⟨as, rest⟩
  rcases Bindings.allAccepted_or_fault? policy ∅ as with
    h | ⟨before, a, after, fault, rfl, h, hfault⟩
  · rw [run_of_allAccepted hs h]
    by_cases hrest : rest = []
    · rw [if_pos hrest]
      exact .accepted (hrest ▸ hs) h
    · rw [if_neg hrest]
      exact .leftOver hrest hs h
  · rw [run_of_fault? hs h hfault]
    exact .objected hs h hfault

/-- Whatever was looked at stands behind arguments that were accepted. -/
theorem Ending.allAccepted {r : Run} (h : Ending policy input r)
    (hr : r.recognised = before ++ a :: after) : AllAccepted policy ∅ before ∧
      ∃ after' rest, sequence (trimBlanks input.toList) = (before ++ a :: after', rest) := by
  cases h with
  | accepted hs hall =>
    rw [recognised_accepted] at hr
    rw [hr] at hs hall
    exact ⟨(Bindings.allAccepted_append.1 hall).1, after, [], hs⟩
  | @leftOver _ rest _ hs hall =>
    rw [recognised_refused] at hr
    rw [hr] at hs hall
    exact ⟨(Bindings.allAccepted_append.1 hall).1, after, rest, hs⟩
  | @objected before' after' a' rest _ hs hall _ =>
    rw [recognised_refused] at hr
    -- What was looked at last is what was objected to, and the rest was accepted.
    rcases List.eq_nil_or_concat after with rfl | ⟨after, x, rfl⟩
    · obtain ⟨rfl, ha⟩ := List.append_inj' hr rfl
      obtain rfl := (List.cons.inj ha).1
      exact ⟨hall, after', rest, hs⟩
    · rw [List.concat_eq_append, ← List.cons_append, ← List.append_assoc] at hr
      obtain ⟨rfl, -⟩ := List.append_inj' hr rfl
      rw [List.append_assoc] at hs
      exact ⟨(Bindings.allAccepted_append.1 hall).1, _, rest, hs⟩

/-- Only one of the endings comes with a list. -/
theorem Ending.of_ok {r : Run} (h : Ending policy input r) (hl : r.outcome = .ok l) :
    ∃ as, sequence (trimBlanks input.toList) = (as, []) ∧ AllAccepted policy ∅ as ∧
      r = ArgumentList.accepted input as := by
  cases h with
  | accepted hs hall => exact ⟨_, hs, hall, rfl⟩
  | leftOver => exact absurd hl (by simp [ArgumentList.refused])
  | objected => exact absurd hl (by simp [ArgumentList.refused])

/-- A text is read as a list if it is arguments throughout and all of them are
accepted. -/
theorem parse_eq_ok_iff_allAccepted : parse policy input = .ok l ↔
    ∃ as, sequence (trimBlanks input.toList) = (as, []) ∧ AllAccepted policy ∅ as ∧
      l = ⟨(∅ : Bindings).replay as, input⟩ := by
  constructor
  · intro h
    obtain ⟨as, hs, hall, hrun⟩ := (ending_run policy input).of_ok h
    rw [parse, hrun] at h
    exact ⟨as, hs, hall, (Except.ok.inj h).symm⟩
  · rintro ⟨as, hs, h, rfl⟩
    rw [parse, run_eq_accepted hs h]
    rfl

end ArgumentList

end TemplateArgs
