/-
What was read can be written.

Not every table and not every value can be written as argument text, but those
that come from a text can. It is enough to look at one argument: an operand
stands for a value that can be written (`Value.isWritable_ofOperand`) and a unit
for a name (`isName_of_isNameUnit`), so taking in an argument keeps bindings
writable, also where a value replaces another.

Bindings that can be written have one canonical text, with double quotes and with
every name in brackets, and that text is read back as they are, whatever the
policy (`Bindings.IsWritable.parse_canonical`). So a text that is accepted and the
canonical text of its bindings mean the same.
-/
import TemplateArgs.Proofs.FiniteMap
import TemplateArgs.Proofs.Layout
import TemplateArgs.Proofs.RoundTrip

set_option autoImplicit false

namespace TemplateArgs

variable {policy : DuplicatePolicy} {a : Argument} {as : List Argument} {b : Bindings}
  {n v : List Char}

/-! ## One argument -/

/-- A unit is a name written in one of the two forms. -/
theorem NameForm.exists_of_isNameUnit (hn : IsNameUnit n) :
    ∃ (name : String) (form : NameForm), IsName name ∧ form.Allows name ∧
      n = form.chars name := by
  rcases hn with ⟨hne, hall⟩ | ⟨m, hne, hall, rfl⟩
  · refine ⟨String.ofList n, .bare, ⟨?_, ?_⟩, ?_, ?_⟩
    · rwa [String.toList_ofList]
    · rw [String.toList_ofList]
      exact NameUnit.closing_not_mem_of_bare hall
    · rwa [Allows, String.toList_ofList]
    · rw [chars, String.toList_ofList]
  · refine ⟨String.ofList m, .bracketed, ⟨?_, ?_⟩, trivial, ?_⟩
    · rwa [String.toList_ofList]
    · rw [String.toList_ofList]
      intro hclosed
      exact hall ']' hclosed rfl
    · rw [chars, String.toList_ofList]

/-- What a unit stands for is a name. -/
theorem isName_of_isNameUnit (hn : IsNameUnit n) : IsName (String.ofList (NameUnit.name n)) := by
  obtain ⟨name, form, hname, hform, rfl⟩ := NameForm.exists_of_isNameUnit hn
  rwa [NameForm.name_chars hform, String.ofList_toList]

/-- What an operand stands for can be written: a path that reads as an integer is
a literal, and any literal can be. -/
theorem Value.isWritable_ofOperand (hv : IsOperand v) : (ofOperand v).IsWritable := by
  rcases hv with hpath | ⟨q, ps, hq, -, rfl⟩ | hspecial
  · by_cases hint : IsInteger v
    · rw [ofOperand_of_isInteger hint]
      trivial
    · rw [ofOperand_of_isPath hpath hint]
      refine .inr ⟨?_, ?_⟩
      · rwa [String.toList_ofList]
      · rwa [String.toList_ofList]
  · rw [ofOperand_quoted (Quoted.isQuote_iff.2 hq)]
    trivial
  · rw [ofOperand_of_isSpecial hspecial]
    left
    rwa [String.toList_ofList]

/-! ## Bindings that can be written -/

namespace Bindings

/-- Whether every value of some bindings can be written, and every name. -/
structure IsWritable (b : Bindings) : Prop where
  positional : ∀ v ∈ b.positional.toList, v.IsWritable
  named : ∀ e ∈ b.named.entries, IsName e.1 ∧ e.2.IsWritable

theorem isWritable_empty : (∅ : Bindings).IsWritable where
  positional := List.forall_mem_nil _
  named := List.forall_mem_nil _

/-- An argument brings in nothing that cannot be written. -/
theorem IsWritable.add (hb : b.IsWritable) (ha : a.IsGrammatical) : (b.add a).IsWritable := by
  cases a with
  | positional v =>
    refine ⟨fun u hu => ?_, hb.named⟩
    rw [Bindings.add, Array.toList_push, List.mem_append, List.mem_singleton] at hu
    rcases hu with hu | rfl
    · exact hb.positional u hu
    · exact Value.isWritable_ofOperand ha
  | named n v =>
    refine ⟨hb.positional, fun e he => ?_⟩
    -- The entry is the new one, or it was there before under another name.
    rw [Bindings.add, ← Table.get?_eq_some_iff, Table.get?_insert] at he
    split at he
    · next hname =>
      rw [hname, ← Option.some.inj he]
      exact ⟨isName_of_isNameUnit ha.1, Value.isWritable_ofOperand ha.2⟩
    · exact hb.named e (Table.get?_eq_some_iff.1 he)

theorem IsWritable.replay (hb : b.IsWritable) (has : ∀ a ∈ as, a.IsGrammatical) :
    (b.replay as).IsWritable := by
  induction as generalizing b with
  | nil => exact hb
  | cons a as ih =>
    obtain ⟨ha, has⟩ := List.forall_mem_cons.1 has
    exact ih (hb.add ha) has

/-! ## The canonical text -/

@[simp] theorem map_value_printedValues (b : Bindings) :
    b.printedValues.map (·.value) = b.positional.toList := by
  rw [printedValues, List.map_map]
  exact List.map_id _

@[simp] theorem map_printedEntries (b : Bindings) :
    b.printedEntries.map (fun e => (e.name, e.value)) = b.named.entries := by
  rw [printedEntries, List.map_map]
  exact List.map_id _

theorem IsWritable.printedValues (hb : b.IsWritable) :
    ∀ p ∈ b.printedValues, p.value.IsWritable := by
  intro p hp
  obtain ⟨v, hv, rfl⟩ := List.mem_map.1 hp
  exact hb.positional v hv

theorem IsWritable.printedEntries (hb : b.IsWritable) :
    ∀ e ∈ b.printedEntries, e.IsWritable := by
  intro e he
  obtain ⟨⟨name, v⟩, hmem, rfl⟩ := List.mem_map.1 he
  obtain ⟨hname, hv⟩ := hb.named _ hmem
  exact ⟨hv, hname, trivial⟩

/-- The arguments that the canonical text is made of. -/
def canonicalArguments (b : Bindings) : List Argument :=
  b.printedValues.map PrintedValue.argument ++ b.printedEntries.map PrintedEntry.argument

theorem IsWritable.spaced_canonical (hb : b.IsWritable) :
    Spaced b.canonicalArguments b.printed.toList :=
  spaced_printed hb.printedValues hb.printedEntries

theorem IsWritable.allAccepted_canonical (hb : b.IsWritable) (policy : DuplicatePolicy) :
    AllAccepted policy ∅ b.canonicalArguments := by
  have hnames : b.printedEntries.map (·.name) = b.named.keys := by
    rw [Table.keys, ← map_printedEntries, List.map_map]
    rfl
  have hnodup : (b.printedEntries.map (·.name)).Nodup := by
    rw [hnames]
    exact b.named.nodup_keys
  exact allAccepted_arguments policy hb.printedEntries hnodup

/-- Taking in what was written gives what it was written from. -/
theorem IsWritable.replay_canonical (hb : b.IsWritable) :
    (∅ : Bindings).replay b.canonicalArguments = b := by
  rw [canonicalArguments, replay_empty, filterMap_positionValue?_arguments hb.printedValues,
    filterMap_entry?_arguments hb.printedEntries, map_value_printedValues, map_printedEntries,
    Table.ofList_entries]

/-- Bindings that can be written are read back from their canonical text. -/
theorem IsWritable.parse_canonical (hb : b.IsWritable) (policy : DuplicatePolicy) :
    ArgumentList.parse policy b.printed = .ok ⟨b, b.printed⟩ := by
  have hrun := ArgumentList.run_of_laidOut hb.spaced_canonical.laidOut
    (hb.allAccepted_canonical policy)
  rw [ArgumentList.parse, hrun, ArgumentList.accepted, hb.replay_canonical]

end Bindings

/-! ## What was read -/

namespace ArgumentList

variable {input : String} {l : ArgumentList}

/-- **What was read can be written, and is read back.** In an accepted list no
name is listed twice, every name is one that a unit can stand for, and every
value can be written. The canonical text of the list is accepted under either
policy, with the same bindings. -/
theorem isWritable_of_parse (h : parse policy input = .ok l) :
    l.named.keys.Nodup ∧ (∀ e ∈ l.named.entries, IsName e.1 ∧ e.2.IsWritable) ∧
      (∀ v ∈ l.positional, v.IsWritable) ∧
      ∀ policy', parse policy' l.printed = .ok { l with input := l.printed } := by
  obtain ⟨as, hs, -, rfl⟩ := parse_eq_ok_iff_allAccepted.1 h
  have hwritable := Bindings.isWritable_empty.replay (Argument.isGrammatical_of_sequence hs)
  refine ⟨Table.nodup_keys _, hwritable.named, ?_, hwritable.parse_canonical⟩
  intro v hv
  exact hwritable.positional v (Array.mem_toList_iff.2 hv)

/-- An integer becomes a quoted literal, a name that was given twice is written
once, and its value is the later one. -/
theorem isWritable_of_parse_repeated : ∃ l,
    parse .overwrite " ../x 007 k=1 [a b] = 'say \\\"hi\\\"\\x0a' [k]=@key" = .ok l ∧
      l.printed = "../x \"007\" [k]=@key [a b]=\"say \\\"hi\\\"\\n\"" ∧
      parse .reject "../x \"007\" [k]=@key [a b]=\"say \\\"hi\\\"\\n\"" =
        .ok { l with input := "../x \"007\" [k]=@key [a b]=\"say \\\"hi\\\"\\n\"" } := by
  have h : parse .overwrite " ../x 007 k=1 [a b] = 'say \\\"hi\\\"\\x0a' [k]=@key" =
      .ok ⟨⟨#[.path "../x", .literal "007"],
        ⟨[("k", .path "@key"), ("a b", .literal "say \"hi\"\n")], by decide⟩⟩,
        " ../x 007 k=1 [a b] = 'say \\\"hi\\\"\\x0a' [k]=@key"⟩ := by decide +kernel
  obtain ⟨-, -, -, hagain⟩ := isWritable_of_parse h
  exact ⟨_, h, by decide +kernel, hagain .reject⟩

end ArgumentList

end TemplateArgs
