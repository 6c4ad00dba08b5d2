/-
How far a list of arguments is accepted, and what it binds.

Taking arguments in and objecting to them are two things. `replay` takes in
whatever comes, `fault?` says what is wrong with one argument in a given state,
and `AllAccepted` that nothing is wrong with any of a list. `Bindings.acceptAll`
is described by these three: it takes in what is accepted and goes on with the
rest (`acceptAll_append`), it stops where something is wrong
(`acceptAll_of_fault?`), and one of the two is always the case
(`allAccepted_or_fault?`).

What is left is to say without a run when a list is accepted. If names may be
given again, only the order counts, with every positional argument before every
named one (`allAccepted_overwrite_iff`). Otherwise no two names may be the same,
either (`allAccepted_reject_iff`).
-/
import TemplateArgs.Proofs.Argument
import TemplateArgs.Proofs.Table
import TemplateArgs.Bindings

set_option autoImplicit false

namespace TemplateArgs

/-! ## What an argument binds -/

namespace Argument

/-- Whether an argument has a name. -/
def isNamed : Argument → Bool
  | positional _ => false
  | named _ _ => true

/-- The value that a positional argument stands for. -/
def positionValue? : Argument → Option Value
  | positional v => some (Value.ofOperand v)
  | named _ _ => none

/-- The name of a named argument, without brackets, and the value that it
stands for. -/
def entry? : Argument → Option (String × Value)
  | positional _ => none
  | named n v => some (String.ofList (NameUnit.name n), Value.ofOperand v)

/-- The name of a named argument, without brackets. -/
def name? : Argument → Option String
  | positional _ => none
  | named n _ => some (String.ofList (NameUnit.name n))

theorem map_fst_entries (as : List Argument) :
    (as.filterMap entry?).map Prod.fst = as.filterMap name? := by
  rw [List.map_filterMap]
  refine List.filterMap_congr fun a _ => ?_
  cases a <;> rfl

/-- No positional argument stands behind a named one. -/
def PositionalsFirst (as : List Argument) : Prop :=
  as.Pairwise fun a b => a.isNamed = true → b.isNamed = true

theorem positionalsFirst_cons {a : Argument} {as : List Argument} : PositionalsFirst (a :: as) ↔
    (a.isNamed = true → ∀ b ∈ as, b.isNamed = true) ∧ PositionalsFirst as := by
  rw [PositionalsFirst, List.pairwise_cons]
  exact and_congr_left' ⟨fun h ha b hb => h b hb ha, fun h b hb ha => h ha b hb⟩

end Argument

namespace Bindings

variable {policy : DuplicatePolicy} {b : Bindings} {a : Argument} {as bs : List Argument}
  {fault : Fault}

/-- The bindings with one more argument, whether or not it may stand there. -/
def add (b : Bindings) : Argument → Bindings
  | .positional v => { b with positional := b.positional.push (Value.ofOperand v) }
  | .named n v =>
    { b with named := b.named.insert (String.ofList (NameUnit.name n)) (Value.ofOperand v) }

/-- The bindings with a list of arguments taken in, one after the other. -/
def replay (b : Bindings) (as : List Argument) : Bindings := as.foldl add b

@[simp] theorem replay_append : b.replay (as ++ bs) = (b.replay as).replay bs := List.foldl_append

theorem named_replay (b : Bindings) (as : List Argument) :
    (b.replay as).named = b.named.insertAll (as.filterMap Argument.entry?) := by
  induction as generalizing b with
  | nil => rfl
  | cons a as ih =>
    have h := ih (b.add a)
    cases a with
    | positional v => exact h
    | named n v => exact h

theorem positional_replay (b : Bindings) (as : List Argument) :
    (b.replay as).positional = b.positional ++ as.filterMap Argument.positionValue? := by
  induction as generalizing b with
  | nil => simp [replay]
  | cons a as ih =>
    have h := ih (b.add a)
    cases a with
    | positional v =>
      apply h.trans
      simp [add, Argument.positionValue?]
    | named n v => exact h

/-- Bindings that arguments lead to, in one piece. -/
theorem replay_eq (b : Bindings) (as : List Argument) : b.replay as =
    ⟨b.positional ++ as.filterMap Argument.positionValue?,
      b.named.insertAll (as.filterMap Argument.entry?)⟩ := by
  rw [← positional_replay, ← named_replay]

/-- From nothing, arguments lead to their values and a table of their entries. -/
theorem replay_empty (as : List Argument) : (∅ : Bindings).replay as =
    ⟨(as.filterMap Argument.positionValue?).toArray,
      Table.ofList (as.filterMap Argument.entry?)⟩ := by
  rw [replay_eq, Table.ofList_eq_insertAll]
  simp [EmptyCollection.emptyCollection, empty]

/-- The names that have a value are those that were given. -/
theorem mem_keys_replay {name : String} : name ∈ ((∅ : Bindings).replay as).named.keys ↔
    name ∈ as.filterMap Argument.name? := by
  rw [named_replay, Table.keys_insertAll, List.mem_eraseDups, Argument.map_fst_entries]
  exact Iff.rfl

/-! ## What may be wrong with an argument -/

/-- What is wrong with an argument behind those that led to `b`. -/
def fault? (policy : DuplicatePolicy) (b : Bindings) : Argument → Option Fault
  | .positional v => if b.named.isEmpty then none else some (.positionalAfterNamed v)
  | .named n _ =>
    let name := String.ofList (NameUnit.name n)
    if policy = .reject ∧ b.named.contains name then some (.duplicateName name) else none

theorem accept_of_none (h : fault? policy b a = none) : accept policy b a = .ok (b.add a) := by
  cases a with
  | positional v =>
    rw [fault?, ite_eq_left_iff] at h
    rw [accept, if_pos (by_contra fun hc => by simpa using h hc)]
    rfl
  | named n v =>
    simp only [fault?, ite_eq_right_iff] at h
    rw [accept]
    exact if_neg fun hc => by simpa using h hc

theorem accept_of_fault? (h : fault? policy b a = some fault) :
    accept policy b a = .error fault := by
  cases a with
  | positional v =>
    rw [fault?, Option.ite_none_left_eq_some] at h
    rw [accept, if_neg h.1, Option.some.inj h.2]
  | named n v =>
    simp only [fault?, Option.ite_none_right_eq_some] at h
    rw [accept, ← Option.some.inj h.2]
    exact if_pos h.1

/-- Nothing is wrong with any of the arguments, each behind those before it. -/
def AllAccepted (policy : DuplicatePolicy) : Bindings → List Argument → Prop
  | _, [] => True
  | b, a :: as => fault? policy b a = none ∧ AllAccepted policy (b.add a) as

theorem allAccepted_append : AllAccepted policy b (as ++ bs) ↔
    AllAccepted policy b as ∧ AllAccepted policy (b.replay as) bs := by
  induction as generalizing b with
  | nil => exact ⟨fun h => ⟨trivial, h⟩, And.right⟩
  | cons a as ih =>
    rw [List.cons_append, AllAccepted, AllAccepted, ih, and_assoc]
    rfl

/-! ## A run over the arguments -/

/-- Arguments that are accepted are taken in, and the run goes on behind them. -/
theorem acceptAll_append (h : AllAccepted policy b as) :
    acceptAll policy b (as ++ bs) = (as ++ (acceptAll policy (b.replay as) bs).1,
      (acceptAll policy (b.replay as) bs).2) := by
  induction as generalizing b with
  | nil => rfl
  | cons a as ih =>
    rw [List.cons_append, acceptAll, accept_of_none h.1]
    simp only [ih h.2]
    rfl

theorem acceptAll_of_allAccepted (h : AllAccepted policy b as) :
    acceptAll policy b as = (as, .ok (b.replay as)) := by
  have happend : acceptAll policy b (as ++ []) = _ := acceptAll_append h
  rwa [List.append_nil, acceptAll, List.append_nil] at happend

/-- The run ends with the first argument that something is wrong with. -/
theorem acceptAll_of_fault? (h : AllAccepted policy b as)
    (hfault : fault? policy (b.replay as) a = some fault) :
    acceptAll policy b (as ++ a :: bs) = (as ++ [a], .error fault) := by
  rw [acceptAll_append h, acceptAll, accept_of_fault? hfault]

/-- Either everything is accepted or there is a first argument that is not. -/
theorem allAccepted_or_fault? (policy : DuplicatePolicy) (b : Bindings) (as : List Argument) :
    AllAccepted policy b as ∨ ∃ before a after fault, as = before ++ a :: after ∧
      AllAccepted policy b before ∧ fault? policy (b.replay before) a = some fault := by
  induction as generalizing b with
  | nil => exact .inl trivial
  | cons a as ih =>
    cases hfault : fault? policy b a with
    | some fault => exact .inr ⟨[], a, as, fault, rfl, trivial, hfault⟩
    | none =>
      rcases ih (b.add a) with h | ⟨before, a', after, fault, rfl, h, hlast⟩
      · exact .inl ⟨hfault, h⟩
      · exact .inr ⟨a :: before, a', after, fault, rfl, ⟨hfault, h⟩, hlast⟩

/-! ## Which lists are accepted -/

open Argument (PositionalsFirst positionalsFirst_cons)

theorem fault?_positional_eq_none_iff {v : List Char} :
    fault? policy b (.positional v) = none ↔ b.named.isEmpty = true := by
  rw [fault?, ite_eq_left_iff, Bool.not_eq_true]
  cases b.named.isEmpty <;> simp

@[simp] theorem fault?_overwrite_named {n v : List Char} :
    fault? .overwrite b (.named n v) = none := by
  simp [fault?]

/-- What is wrong with an argument shows in the argument and in the names there
are: it has none and there are some, or it has one of them. -/
theorem fault?_eq_some (h : fault? policy b a = some fault) :
    (∃ v, a = .positional v ∧ b.named.isEmpty = false ∧ fault = .positionalAfterNamed v) ∨
    ∃ n v, policy = .reject ∧ a = .named n v ∧ String.ofList (NameUnit.name n) ∈ b.named.keys ∧
      fault = .duplicateName (String.ofList (NameUnit.name n)) := by
  cases a with
  | positional v =>
    rw [fault?, Option.ite_none_left_eq_some, Bool.not_eq_true] at h
    exact .inl ⟨v, rfl, h.1, (Option.some.inj h.2).symm⟩
  | named n v =>
    simp only [fault?, Option.ite_none_right_eq_some] at h
    exact .inr ⟨n, v, h.1.1, rfl, Table.contains_iff.1 h.1.2, (Option.some.inj h.2).symm⟩

/-- What is objected to is an argument, so no objection is that there is none. -/
theorem ne_malformed_of_fault? (h : fault? policy b a = some fault) : fault ≠ .malformed := by
  rcases fault?_eq_some h with ⟨v, -, -, rfl⟩ | ⟨n, v, -, -, -, rfl⟩
  · exact Fault.noConfusion
  · exact Fault.noConfusion

/-- Where names may be given again, the only fault is a positional argument
behind a named one. -/
theorem fault?_overwrite_eq_some (h : fault? .overwrite b a = some fault) :
    ∃ v, a = .positional v ∧ b.named.isEmpty = false ∧ fault = .positionalAfterNamed v := by
  apply (fault?_eq_some h).resolve_right
  rintro ⟨n, v, hpolicy, -⟩
  exact absurd hpolicy (by decide)

theorem fault?_reject_named {n v : List Char} : fault? .reject b (.named n v) =
    if String.ofList (NameUnit.name n) ∈ b.named.keys then
      some (.duplicateName (String.ofList (NameUnit.name n))) else none := by
  simp [fault?, Table.contains_iff]

/-- Only the order counts if names may be given again. -/
theorem allAccepted_overwrite_iff : AllAccepted .overwrite b as ↔
    (b.named.isEmpty = false → ∀ a ∈ as, a.isNamed = true) ∧ PositionalsFirst as := by
  induction as generalizing b with
  | nil => simp [AllAccepted, PositionalsFirst]
  | cons a as ih =>
    rw [AllAccepted, ih, positionalsFirst_cons, List.forall_mem_cons]
    cases a with
    | positional v =>
      -- It needs a state without names and leaves it one.
      rw [fault?_positional_eq_none_iff]
      have hnamed : (b.add (.positional v)).named = b.named := rfl
      rw [hnamed]
      cases b.named.isEmpty <;> simp [Argument.isNamed]
    | named n v =>
      -- It is always accepted, and from now on a name is needed.
      rw [fault?_overwrite_named]
      have hnamed : (b.add (.named n v)).named.isEmpty = false := Table.isEmpty_insert
      rw [hnamed]
      cases b.named.isEmpty <;> simp [Argument.isNamed]

/-- If they may not, the names must be distinct besides. -/
theorem allAccepted_reject_iff : AllAccepted .reject b as ↔ AllAccepted .overwrite b as ∧
    (b.named.keys ++ as.filterMap Argument.name?).Nodup := by
  induction as generalizing b with
  | nil =>
    rw [List.filterMap_nil, List.append_nil]
    exact ⟨fun h => ⟨h, b.named.nodup_keys⟩, And.left⟩
  | cons a as ih =>
    rw [AllAccepted, AllAccepted, ih, and_assoc]
    cases a with
    | positional v => exact Iff.rfl
    | named n v =>
      have hkeys : (b.add (.named n v)).named.keys = _ :=
        Table.keys_insert b.named (String.ofList (NameUnit.name n)) (Value.ofOperand v)
      have hnames : (Argument.named n v :: as).filterMap Argument.name? =
          String.ofList (NameUnit.name n) :: as.filterMap Argument.name? := rfl
      rw [fault?_reject_named, fault?_overwrite_named, hkeys, hnames]
      by_cases hname : String.ofList (NameUnit.name n) ∈ b.named.keys
      -- A name that is known already is among the keys and among the names to come.
      · have hdup : ∀ l, ¬(b.named.keys ++ String.ofList (NameUnit.name n) :: l).Nodup := by
          intro l hl
          exact (List.nodup_append.1 hl).2.2 _ hname _ (List.mem_cons_self) rfl
        simp [hname, hdup]
      · simp [hname]

theorem allAccepted_default_empty_iff : AllAccepted default ∅ as ↔ PositionalsFirst as := by
  have h : AllAccepted default ∅ as ↔ _ := allAccepted_overwrite_iff
  rw [h]
  exact and_iff_right fun hne => absurd hne (by decide)

/-! ## Arguments behind others -/

theorem isEmpty_named_replay : (b.replay as).named.isEmpty = true ↔
    b.named.isEmpty = true ∧ ∀ a ∈ as, a.isNamed = false := by
  induction as generalizing b with
  | nil => simp [replay]
  | cons a as ih =>
    have hcons : b.replay (a :: as) = (b.add a).replay as := rfl
    rw [hcons, ih, List.forall_mem_cons]
    cases a with
    | positional v => simp [add, Argument.isNamed]
    | named n v => simp [add, Argument.isNamed, Table.isEmpty_insert]

/-- A name that there is was given by an argument. -/
theorem exists_named_of_isEmpty_eq_false
    (h : ((∅ : Bindings).replay as).named.isEmpty = false) : ∃ n v, .named n v ∈ as := by
  by_contra hnone
  rw [← Bool.not_eq_true, isEmpty_named_replay] at h
  refine h ⟨rfl, fun a ha => ?_⟩
  cases a with
  | positional v => rfl
  | named n v => exact absurd ⟨n, v, ha⟩ hnone

theorem exists_named_of_mem_keys {name : String}
    (h : name ∈ ((∅ : Bindings).replay as).named.keys) :
    ∃ n v, .named n v ∈ as ∧ String.ofList (NameUnit.name n) = name := by
  obtain ⟨a, ha, hname⟩ := List.mem_filterMap.1 (mem_keys_replay.1 h)
  cases a with
  | positional v => exact absurd hname (by simp [Argument.name?])
  | named n v => exact ⟨n, v, ha, Option.some.inj hname⟩

/-- Arguments may stand behind those that led to `b` if there is no name yet, or
if a name comes first anyway. -/
def Joins (b : Bindings) (bs : List Argument) : Prop :=
  b.named.isEmpty = true ∨ ∀ v, bs.head? ≠ some (.positional v)

theorem Joins.allAccepted_iff (h : Joins b bs) :
    AllAccepted .overwrite b bs ↔ AllAccepted .overwrite ∅ bs := by
  rw [allAccepted_overwrite_iff, allAccepted_overwrite_iff]
  refine and_congr_left fun hfirst => ?_
  rw [iff_true_right fun hne => absurd hne (by decide)]
  rcases h with h | h
  · rw [h]
    exact fun hne => absurd hne (by decide)
  · intro _
    cases bs with
    | nil => exact fun a ha => absurd ha List.not_mem_nil
    | cons a bs =>
      cases a with
      | positional v => exact absurd rfl (h v)
      | named n v =>
        exact List.forall_mem_cons.2 ⟨rfl, (positionalsFirst_cons.1 hfirst).1 rfl⟩

/-- What is wrong with an argument behind others is wrong behind these alone. -/
theorem Joins.fault?_replay {cs : List Argument} (h : Joins b (as ++ a :: cs)) :
    fault? .overwrite (b.replay as) a = fault? .overwrite ((∅ : Bindings).replay as) a := by
  cases a with
  | named n v => rw [fault?_overwrite_named, fault?_overwrite_named]
  | positional v =>
    have hempty : (b.replay as).named.isEmpty = ((∅ : Bindings).replay as).named.isEmpty := by
      rw [Bool.eq_iff_iff, isEmpty_named_replay, isEmpty_named_replay]
      refine and_congr_left fun hall => iff_of_true ?_ rfl
      refine h.resolve_right fun hhead => ?_
      -- What comes first is positional, whether or not it is the argument at issue.
      cases as with
      | nil => exact hhead v rfl
      | cons a as =>
        cases a with
        | positional u => exact hhead u rfl
        | named n u => exact absurd (hall _ List.mem_cons_self) (by simp [Argument.isNamed])
    rw [fault?, fault?, hempty]

/-- What two lists of arguments bind together, found from what each binds. -/
theorem replay_append_empty (as bs : List Argument) : (∅ : Bindings).replay (as ++ bs) =
    ⟨((∅ : Bindings).replay as).positional ++ ((∅ : Bindings).replay bs).positional,
      ((∅ : Bindings).replay as).named.insertAll ((∅ : Bindings).replay bs).named.entries⟩ := by
  rw [replay_append, replay_eq _ bs, replay_empty bs, Table.insertAll_ofList]
  refine congrArg (Bindings.mk · _) (Array.ext' ?_)
  simp

end Bindings

end TemplateArgs
