/-
What is written is read back.

Every value, name and entry is written as an argument that is spelled as the
language has it, and the space between two of them keeps them apart, so
`Argument.sequence_of_spaced` finds the arguments that were written. The rest is
about what they mean: an operand stands for the value it was written for, a unit
for its name, and with the names distinct nothing is given twice, so that neither
policy has anything to object to.
-/
import TemplateArgs.Proofs.Run
import TemplateArgs.Proofs.Value

set_option autoImplicit false

namespace TemplateArgs

/-! ## Names -/

namespace NameForm

variable {name : String} {form : NameForm}

theorem isNameUnit_chars (hname : IsName name) (hform : form.Allows name) :
    IsNameUnit (form.chars name) := by
  obtain ⟨hne, hclosed⟩ := hname
  cases form with
  | bare => exact .inl ⟨hne, hform⟩
  | bracketed => exact .inr ⟨name.toList, hne, fun c hc h => hclosed (h ▸ hc), rfl⟩

/-- A bare name has no bracket in it, so nothing is taken off it. -/
theorem name_chars (hform : form.Allows name) :
    NameUnit.name (form.chars name) = name.toList := by
  cases form with
  | bare => exact NameUnit.name_eq_self (NameUnit.closing_not_mem_of_bare hform)
  | bracketed => exact NameUnit.name_bracketed name.toList

end NameForm

/-! ## Arguments as they are written -/

/-- The argument that a value is written as. -/
def PrintedValue.argument (p : PrintedValue) : Argument := .positional p.chars

/-- The argument that a named value is written as. -/
def PrintedEntry.argument (e : PrintedEntry) : Argument :=
  .named (e.form.chars e.name) e.toPrintedValue.chars

/-- Whether an entry has a name and a value that can be written, in the form
that was chosen. -/
def PrintedEntry.IsWritable (e : PrintedEntry) : Prop :=
  e.value.IsWritable ∧ IsName e.name ∧ e.form.Allows e.name

variable {ps : List PrintedValue} {es : List PrintedEntry}

theorem PrintedValue.spelled {p : PrintedValue} (hp : p.value.IsWritable) :
    p.argument.Spelled p.chars :=
  .positional (Value.isOperand_chars hp p.quote)

theorem PrintedEntry.spelled {e : PrintedEntry} (he : e.IsWritable) :
    e.argument.Spelled e.chars := by
  obtain ⟨hvalue, hname, hform⟩ := he
  exact .named (NameForm.isNameUnit_chars hname hform) (Value.isOperand_chars hvalue e.quote)
    isBlankText_nil isBlankText_nil

/-- Words that are put together with spaces are arguments with blanks between
them. -/
theorem spaced_intercalate {words : List (Argument × List Char)}
    (h : ∀ word ∈ words, word.1.Spelled word.2) :
    Spaced (words.map Prod.fst) ([' '].intercalate (words.map Prod.snd)) := by
  induction words with
  | nil => exact .nil
  | cons word words ih =>
    obtain ⟨hword, hwords⟩ := List.forall_mem_cons.1 h
    -- A space is only put where another word follows.
    cases words with
    | nil => simpa [List.intercalate] using Spaced.last hword
    | cons word' words =>
      have hrest := ih hwords
      simp only [List.intercalate, List.map_cons, List.intersperse_cons_cons,
        List.flatten_cons] at hrest ⊢
      exact .cons hword (List.forall_mem_singleton.2 rfl) (List.cons_ne_nil ' ' []) hrest

/-- What is written is the arguments that were to be written. -/
theorem spaced_printed (hps : ∀ p ∈ ps, p.value.IsWritable) (hes : ∀ e ∈ es, e.IsWritable) :
    Spaced (ps.map PrintedValue.argument ++ es.map PrintedEntry.argument)
      (printed ps es).toList := by
  have hwords : ∀ word ∈ ps.map (fun p => (p.argument, p.chars)) ++
      es.map (fun e => (e.argument, e.chars)), word.1.Spelled word.2 := by
    intro word hword
    rcases List.mem_append.1 hword with h | h
    · obtain ⟨p, hp, rfl⟩ := List.mem_map.1 h
      exact PrintedValue.spelled (hps p hp)
    · obtain ⟨e, he, rfl⟩ := List.mem_map.1 h
      exact PrintedEntry.spelled (hes e he)
  have h := spaced_intercalate hwords
  rw [List.map_append, List.map_append, List.map_map, List.map_map, List.map_map,
    List.map_map] at h
  rw [printed, String.toList_ofList]
  exact h

/-! ## What the arguments mean -/

theorem PrintedValue.positionValue?_argument {p : PrintedValue} (hp : p.value.IsWritable) :
    p.argument.positionValue? = some p.value :=
  congrArg some (Value.ofOperand_chars hp p.quote)

theorem PrintedEntry.entry?_argument {e : PrintedEntry} (he : e.IsWritable) :
    e.argument.entry? = some (e.name, e.value) := by
  obtain ⟨hvalue, -, hform⟩ := he
  rw [argument, Argument.entry?, NameForm.name_chars hform, String.ofList_toList]
  exact congrArg (fun v => some (e.name, v)) (Value.ofOperand_chars hvalue e.quote)

theorem filterMap_positionValue?_arguments (hps : ∀ p ∈ ps, p.value.IsWritable) :
    (ps.map PrintedValue.argument ++ es.map PrintedEntry.argument).filterMap
      Argument.positionValue? = ps.map (·.value) := by
  have hvalues : ps.filterMap (Argument.positionValue? ∘ PrintedValue.argument) =
      ps.map (·.value) := by
    rw [← List.filterMap_eq_map]
    exact List.filterMap_congr fun p hp => p.positionValue?_argument (hps p hp)
  have hentries : es.filterMap (Argument.positionValue? ∘ PrintedEntry.argument) = [] :=
    List.filterMap_eq_nil_iff.2 fun _ _ => rfl
  rw [List.filterMap_append, List.filterMap_map, List.filterMap_map, hvalues, hentries,
    List.append_nil]

theorem filterMap_entry?_arguments (hes : ∀ e ∈ es, e.IsWritable) :
    (ps.map PrintedValue.argument ++ es.map PrintedEntry.argument).filterMap Argument.entry? =
      es.map fun e => (e.name, e.value) := by
  have hvalues : ps.filterMap (Argument.entry? ∘ PrintedValue.argument) = [] :=
    List.filterMap_eq_nil_iff.2 fun _ _ => rfl
  have hentries : es.filterMap (Argument.entry? ∘ PrintedEntry.argument) =
      es.map fun e => (e.name, e.value) := by
    rw [← List.filterMap_eq_map]
    exact List.filterMap_congr fun e he => e.entry?_argument (hes e he)
  rw [List.filterMap_append, List.filterMap_map, List.filterMap_map, hvalues, hentries,
    List.nil_append]

theorem positionalsFirst_arguments (ps : List PrintedValue) (es : List PrintedEntry) :
    Argument.PositionalsFirst (ps.map PrintedValue.argument ++ es.map PrintedEntry.argument) := by
  refine List.pairwise_append.2 ⟨?_, ?_, ?_⟩
  · refine List.pairwise_map.2 (List.pairwise_of_forall ?_)
    intro p q h
    exact absurd h (by simp [PrintedValue.argument, Argument.isNamed])
  · refine List.pairwise_map.2 (List.pairwise_of_forall ?_)
    intro e e' _
    rfl
  · intro a _ b hb _
    obtain ⟨e, -, rfl⟩ := List.mem_map.1 hb
    rfl

/-- Neither policy objects to what is written if no name is written twice. -/
theorem allAccepted_arguments (policy : DuplicatePolicy) (hes : ∀ e ∈ es, e.IsWritable)
    (hnames : (es.map (·.name)).Nodup) : Bindings.AllAccepted policy ∅
      (ps.map PrintedValue.argument ++ es.map PrintedEntry.argument) := by
  have hlenient := Bindings.allAccepted_default_empty_iff.2 (positionalsFirst_arguments ps es)
  cases policy with
  | overwrite => exact hlenient
  | reject =>
    refine Bindings.allAccepted_reject_iff.2 ⟨hlenient, ?_⟩
    rw [← Argument.map_fst_entries, filterMap_entry?_arguments hes, List.map_map]
    exact hnames

/-! ## The round trip -/

/-- **What is written is read back**, under either policy: positional values in
order, and the entries in order, whatever the quotes and the brackets. Names
have to be distinct, since a table keeps one entry for each. -/
theorem parse_printed (policy : DuplicatePolicy) (ps : List PrintedValue)
    (es : List PrintedEntry) (hps : ∀ p ∈ ps, p.value.IsWritable)
    (hes : ∀ e ∈ es, e.value.IsWritable ∧ IsName e.name ∧ e.form.Allows e.name)
    (hnames : (es.map (·.name)).Nodup) :
    ∃ l, ArgumentList.parse policy (printed ps es) = .ok l ∧
      l.positional.toList = ps.map (·.value) ∧
      l.named.entries = es.map fun e => (e.name, e.value) := by
  have hspaced := spaced_printed hps hes
  have hsequence := Argument.sequence_of_spaced hspaced
  rw [← Argument.trimBlanks_of_spaced hspaced] at hsequence
  refine ⟨_, ArgumentList.parse_eq_ok_iff_allAccepted.2
    ⟨_, hsequence, allAccepted_arguments policy hes hnames, rfl⟩, ?_, ?_⟩
  · rw [Bindings.replay_empty, filterMap_positionValue?_arguments hps]
  · rw [Bindings.named_replay, filterMap_entry?_arguments hes, Table.entries_insertAll_of_nodup]
    · rfl
    · rw [List.map_map]
      exact hnames

/-- A special variable, a literal that holds the quote around it, and a path
under a name that needs its brackets. -/
theorem parse_printed_quote_and_bracket :
    ∃ l, ArgumentList.parse .reject "@key 'it\\'s' [a b]=../x size=\"1\"" = .ok l ∧
      l.positional.toList = [.path "@key", .literal "it's"] ∧
      l.named.entries = [("a b", .path "../x"), ("size", .literal "1")] := by
  have hkey : (Value.path "@key").IsWritable :=
    .inl ⟨['k', 'e', 'y'], by decide, by simp, by decide⟩
  have hx : (Value.path "../x").IsWritable := by
    have hname : IsNameUnit ['x'] := .inl ⟨by decide, List.all_eq_true.1 rfl⟩
    refine .inr ⟨⟨1, [], ['x'], [], ?_, hname, .inl rfl, by decide⟩, ?_⟩
    · exact List.forall_mem_nil _
    · rw [← Value.isInteger_iff]
      decide
  have hsize : NameForm.Allows "size" .bare := List.all_eq_true.1 rfl
  exact parse_printed .reject
    [⟨.double, .path "@key"⟩, ⟨.single, .literal "it's"⟩]
    [⟨⟨.double, .path "../x"⟩, .bracketed, "a b"⟩, ⟨⟨.double, .literal "1"⟩, .bare, "size"⟩]
    (List.forall_mem_cons.2 ⟨hkey, List.forall_mem_singleton.2 trivial⟩)
    (List.forall_mem_cons.2 ⟨⟨hx, ⟨by decide, by decide⟩, trivial⟩,
      List.forall_mem_singleton.2 ⟨trivial, ⟨by decide, by decide⟩, hsize⟩⟩)
    (by decide)

end TemplateArgs
