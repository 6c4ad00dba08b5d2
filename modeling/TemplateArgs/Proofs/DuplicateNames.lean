/-
What the policy on names that are given again does to a run.

Both runs look at the same arguments and differ in nothing but the one check, so
the run that refuses repetition is found from the run that does not: it is the
same run if no name is repeated, and otherwise it ends where the first name is.
Names are compared without their brackets, and what the other run would have
found fault with further right plays no part.

The induction is all in `Bindings`. What remains is to find the first repetition
and to know what stands before it (`ArgumentList.Ending.allAccepted`).
-/
import TemplateArgs.Proofs.Run

set_option autoImplicit false

namespace TemplateArgs

/-- A list with a repetition among the values of its elements has a first one. -/
theorem exists_first_repetition {α β : Type} [DecidableEq β] {f : α → Option β} {l : List α}
    (h : ¬(l.filterMap f).Nodup) : ∃ before a after k, l = before ++ a :: after ∧ f a = some k ∧
      k ∈ before.filterMap f ∧ (before.filterMap f).Nodup := by
  induction l using List.reverseRecOn with
  | nil => exact absurd List.nodup_nil h
  | append_singleton l x ih =>
    by_cases hl : (l.filterMap f).Nodup
    · -- Nothing is repeated before the last element, so that one is the first.
      cases hx : f x with
      | none => simp [hx, hl] at h
      | some k =>
        refine ⟨l, x, [], k, rfl, hx, ?_, hl⟩
        by_contra hk
        rw [List.filterMap_append, List.filterMap_cons_some hx, List.filterMap_nil] at h
        refine h (List.nodup_append.2 ⟨hl, by simp, ?_⟩)
        rintro y hy z hz rfl
        exact hk (List.mem_singleton.1 hz ▸ hy)
    · obtain ⟨before, a, after, k, rfl, ha, hk, hbefore⟩ := ih hl
      exact ⟨before, a, after ++ [x], k, by simp, ha, hk, hbefore⟩

/-- The names that were given in a run, without brackets, accepted or not. -/
def Run.names (r : Run) : List String := r.recognised.filterMap Argument.name?

/-- The named values that were given in a run, accepted or not. -/
def Run.entries (r : Run) : List (String × Value) := r.recognised.filterMap Argument.entry?

namespace ArgumentList

open Bindings (AllAccepted)

variable {input : String}

/-! ## Names that are given once -/

theorem allAccepted_reject_empty_iff {as : List Argument} : AllAccepted .reject ∅ as ↔
    AllAccepted .overwrite ∅ as ∧ (as.filterMap Argument.name?).Nodup := by
  rw [Bindings.allAccepted_reject_iff]
  exact Iff.rfl

/-- Without a repeated name the two policies cannot be told apart. -/
theorem run_reject_of_nodup (h : (run .overwrite input).names.Nodup) :
    run .reject input = run .overwrite input := by
  have hend := ending_run .overwrite input
  rw [Run.names] at h
  generalize run .overwrite input = r at hend h ⊢
  cases hend with
  | accepted hs hall =>
    rw [recognised_accepted] at h
    exact run_eq_accepted hs (allAccepted_reject_empty_iff.2 ⟨hall, h⟩)
  | leftOver hrest hs hall =>
    rw [recognised_refused] at h
    rw [run_of_allAccepted hs (allAccepted_reject_empty_iff.2 ⟨hall, h⟩), if_neg hrest]
  | objected hs hall hfault =>
    rw [recognised_refused, List.filterMap_append] at h
    have hbefore := allAccepted_reject_empty_iff.2 ⟨hall, (List.nodup_append.1 h).1⟩
    -- The fault is one of order, to which both policies object.
    obtain ⟨v, rfl, -, -⟩ := Bindings.fault?_overwrite_eq_some hfault
    exact run_of_fault? hs hbefore hfault

/-! ## Names that are given again -/

/-- With a repeated name the first repetition is what is found, whatever else is
wrong further right. -/
theorem run_reject_of_not_nodup (h : ¬(run .overwrite input).names.Nodup) :
    ∃ before n v after, (run .overwrite input).recognised = before ++ .named n v :: after ∧
      (before.filterMap Argument.name?).Nodup ∧
      String.ofList (NameUnit.name n) ∈ before.filterMap Argument.name? ∧
      run .reject input = refused input (before ++ [.named n v])
        (.duplicateName (String.ofList (NameUnit.name n))) := by
  obtain ⟨before, a, after, name, hsplit, ha, hname, hnodup⟩ := exists_first_repetition h
  cases a with
  | positional v => exact absurd ha (by simp [Argument.name?])
  | named n v =>
    obtain rfl := Option.some.inj ha
    -- The lenient run came as far as the repetition, so all before it is in order.
    obtain ⟨hall, after', rest, hs⟩ := (ending_run .overwrite input).allAccepted hsplit
    refine ⟨before, n, v, after, hsplit, hnodup, hname, ?_⟩
    refine run_of_fault? hs (allAccepted_reject_empty_iff.2 ⟨hall, hnodup⟩) ?_
    rw [Bindings.fault?_reject_named, if_pos (Bindings.mem_keys_replay.2 hname)]

/-- A run that lets names be given again never finds fault with it. -/
theorem fault_ne_duplicateName {e : Refusal} (h : parse .overwrite input = .error e)
    (name : String) : e.fault ≠ .duplicateName name := by
  have hend := ending_run .overwrite input
  rw [parse] at h
  generalize run .overwrite input = r at hend h
  cases hend with
  | accepted => exact absurd h (by simp [accepted])
  | leftOver =>
    obtain rfl := Except.error.inj h
    simp
  | objected _ _ hfault =>
    obtain rfl := Except.error.inj h
    obtain ⟨v, -, -, rfl⟩ := Bindings.fault?_overwrite_eq_some hfault
    simp

/-- The named values of a list are the entries that were given, each name listed
once and with its last value. -/
theorem named_of_parse_eq_ok {policy : DuplicatePolicy} {l : ArgumentList}
    (h : parse policy input = .ok l) : l.named.keys = (run policy input).names.eraseDups ∧
      ∀ e ∈ l.named.entries, Table.IsLastFor (run policy input).entries e.1 e.2 := by
  obtain ⟨as, hs, hall, rfl⟩ := parse_eq_ok_iff_allAccepted.1 h
  rw [run_eq_accepted hs hall, Run.names, Run.entries, recognised_accepted]
  have hnamed := Bindings.named_replay ∅ as
  refine ⟨?_, ?_⟩
  · rw [hnamed, Table.keys_insertAll, Argument.map_fst_entries]
    rfl
  · intro e he
    rw [hnamed, ← Table.get?_eq_some_iff, Table.get?_insertAll_iff] at he
    apply he.resolve_right
    rintro ⟨-, hempty⟩
    -- An empty table has a value for nothing.
    rw [Table.get?_eq_some_iff] at hempty
    exact absurd hempty List.not_mem_nil

/-! ## The two runs -/

/-- **The two policies on one text.** What is accepted with names given again
has each name once, where it was first given, with the value that it was given
last. If a name is given again, the stricter run looks at the same arguments as
far as the first repetition and ends there, whatever the other one goes on to. If
none is, the two runs are the same. No text is refused for a repeated name unless
this is asked for. -/
theorem run_overwrite_run_reject (input : String) :
    (∀ l, (run .overwrite input).outcome = .ok l →
      l.named.keys = (run .overwrite input).names.eraseDups ∧
      ∀ e ∈ l.named.entries, Table.IsLastFor (run .overwrite input).entries e.1 e.2) ∧
    (¬(run .overwrite input).names.Nodup →
      ∃ before n v after name, name = String.ofList (NameUnit.name n) ∧
      (before.filterMap Argument.name?).Nodup ∧ name ∈ before.filterMap Argument.name? ∧
      (run .overwrite input).log.filter (·.level = .trace) =
        (before ++ Argument.named n v :: after).map Event.recognised ∧
      (run .reject input).log.filter (·.level = .trace) =
        (before ++ [Argument.named n v]).map Event.recognised ∧
      (run .reject input).outcome = .error ⟨.duplicateName name, input⟩) ∧
    ((run .overwrite input).names.Nodup → run .reject input = run .overwrite input) ∧
    (∀ e, (run .overwrite input).outcome = .error e → ∀ name, e.fault ≠ .duplicateName name) := by
  refine ⟨fun l => named_of_parse_eq_ok, fun h => ?_, run_reject_of_nodup,
    fun e => fault_ne_duplicateName⟩
  obtain ⟨before, n, v, after, hsplit, hnodup, hname, hrun⟩ := run_reject_of_not_nodup h
  refine ⟨before, n, v, after, _, rfl, hnodup, hname, ?_, ?_, ?_⟩
  · rw [Run.filter_trace, hsplit]
  · rw [Run.filter_trace, hrun, recognised_refused]
  · rw [hrun, refused]

end ArgumentList

end TemplateArgs
