/-
That nothing is lost when values, tables and argument lists are written as JSON.

Their JSON has no numbers in it, so it is read back from its text as it was
written (`Json.ofText?_text`), and what is left is to undo `toJson`. For a table that
needs its keys to be distinct: the members of an object are kept in order, but an
object in which a key is given twice is no table.
-/
import TemplateArgs.Json.Coding
import TemplateArgs.Proofs.JsonText
import TemplateArgs.Proofs.Run

set_option autoImplicit false

namespace TemplateArgs

variable {t u : Table String Value} {v : Value} {l : ArgumentList} {policy : DuplicatePolicy}
  {input : String}

/-! ## The JSON is legible -/

theorem Value.isLegible_toJson (v : Value) : v.toJson.IsLegible := by
  have hmembers : ∀ (key text : String), (Json.object [(key, .string text)]).IsLegible := by
    intro key text
    refine .object fun m hm => ?_
    obtain rfl := List.mem_singleton.1 hm
    exact .string text
  cases v with
  | path text => exact hmembers _ text
  | literal text => exact hmembers _ text

theorem Table.isLegible_toJson (t : Table String Value) : t.toJson.IsLegible := by
  refine .object fun m hm => ?_
  obtain ⟨⟨name, v⟩, -, rfl⟩ := List.mem_map.1 hm
  exact v.isLegible_toJson

theorem ArgumentList.isLegible_toJson (l : ArgumentList) : l.toJson.IsLegible := by
  have hitems : (Json.array (l.positional.toList.map Value.toJson)).IsLegible := by
    refine .array fun j hj => ?_
    obtain ⟨v, -, rfl⟩ := List.mem_map.1 hj
    exact v.isLegible_toJson
  refine .object fun m hm => ?_
  simp only [List.mem_cons, List.not_mem_nil, or_false] at hm
  rcases hm with rfl | rfl | rfl
  · exact hitems
  · exact l.named.isLegible_toJson
  · exact .string l.input

/-! ## Undoing `toJson` -/

/-- What undoes writing one item undoes writing a list of them. -/
theorem mapM_map_of_forall {α β : Type} {f : α → β} {g : β → Option α}
    (hg : ∀ a, g (f a) = some a) (l : List α) : (l.map f).mapM g = some l := by
  have hpure : g ∘ f = fun a => pure a := funext hg
  rw [List.mapM_map, hpure, List.mapM_pure, List.map_id']
  rfl

theorem Table.ofJson?_toJson (t : Table String Value) : ofJson? t.toJson = some t := by
  rw [toJson, ofJson?, mapM_map_of_forall]
  · simp only [Option.bind_eq_bind, Option.bind_some, dif_pos t.nodup_keys]
  · intro e
    simp only [Value.ofJson?_toJson, Option.map_some]

theorem ArgumentList.ofJson?_toJson (l : ArgumentList) : ofJson? l.toJson = some l := by
  have hitems : (l.positional.toList.map Value.toJson).mapM Value.ofJson? =
      some l.positional.toList :=
    mapM_map_of_forall Value.ofJson?_toJson _
  simp only [toJson, ofJson?, hitems, Table.ofJson?_toJson, Option.bind_eq_bind, Option.bind_some,
    Array.toArray_toList]

/-! ## Nothing is lost -/

theorem Value.ofText?_text (v : Value) : (Json.ofText? v.toJson.text).bind ofJson? = some v := by
  rw [Json.ofText?_text v.isLegible_toJson, Option.bind_some, ofJson?_toJson]

theorem Table.ofText?_text (t : Table String Value) :
    (Json.ofText? t.toJson.text).bind ofJson? = some t := by
  rw [Json.ofText?_text t.isLegible_toJson, Option.bind_some, ofJson?_toJson]

theorem ArgumentList.ofText?_text (l : ArgumentList) :
    (Json.ofText? l.toJson.text).bind ofJson? = some l := by
  rw [Json.ofText?_text l.isLegible_toJson, Option.bind_some, ofJson?_toJson]

/-- The text of a table is an object with the keys of the table, in order. -/
theorem Table.exists_members (t : Table String Value) :
    ∃ members, Json.ofText? t.toJson.text = some (.object members) ∧
      (members.map Prod.fst).Nodup ∧
      members.map (fun m => (m.1, Value.ofJson? m.2)) =
        t.entries.map fun e => (e.1, some e.2) := by
  refine ⟨_, Json.ofText?_text t.isLegible_toJson, ?_, ?_⟩
  · rw [List.map_map]
    exact t.nodup_keys
  · rw [List.map_map]
    refine List.map_congr_left fun e _ => ?_
    simp only [Function.comp_apply, Value.ofJson?_toJson]

/-- Two tables have the same text only if they have the same entries in the same
order. -/
theorem Table.text_toJson_inj : t.toJson.text = u.toJson.text ↔ t.entries = u.entries := by
  constructor
  · intro h
    have ht := t.ofText?_text
    rw [h, u.ofText?_text] at ht
    rw [Option.some.inj ht]
  · intro h
    rw [Table.ext h]

theorem ArgumentList.input_of_parse (h : parse policy input = .ok l) : l.input = input := by
  obtain ⟨as, -, -, rfl⟩ := parse_eq_ok_iff_allAccepted.1 h
  rfl

/-- **Nothing is lost in writing.** A value is read back from the text of its JSON.
The text of a table is an object that has no key twice, with the entries of the table
for its members, in order. From it the table is read back, so that two tables with
the same text have the same entries. An argument list that some text was read as is
read back too, with that text, which is untrimmed. -/
theorem ofText?_text_toJson :
    (∀ v : Value, (Json.ofText? v.toJson.text).bind Value.ofJson? = some v) ∧
    (∀ t : Table String Value,
      (∃ members, Json.ofText? t.toJson.text = some (.object members) ∧
        (members.map Prod.fst).Nodup ∧
        members.map (fun m => (m.1, Value.ofJson? m.2)) =
          t.entries.map fun e => (e.1, some e.2)) ∧
      (Json.ofText? t.toJson.text).bind Table.ofJson? = some t) ∧
    (∀ t u : Table String Value, t.toJson.text = u.toJson.text ↔ t.entries = u.entries) ∧
    ∀ policy input l, ArgumentList.parse policy input = .ok l →
      (Json.ofText? l.toJson.text).bind ArgumentList.ofJson? = some l ∧ l.input = input := by
  refine ⟨Value.ofText?_text, fun t => ⟨t.exists_members, t.ofText?_text⟩,
    fun t u => Table.text_toJson_inj, fun policy input l h => ?_⟩
  exact ⟨l.ofText?_text, ArgumentList.input_of_parse h⟩

/-- A literal with a quote and a line feed in it, and blanks around the text. -/
theorem ofText?_text_toJson_quote_and_newline :
    ∃ l, ArgumentList.parse .reject " a n='\"\\n' " = .ok l ∧
      l.toJson.text = "\x7b\"positional\":[\x7b\"VariablePath\":\"a\"\x7d],\"named\":" ++
        "\x7b\"n\":\x7b\"Literal\":\"\\\"\\n\"\x7d\x7d,\"original\":\" a n='\\\"\\\\n' \"\x7d" ∧
      (Json.ofText? l.toJson.text).bind ArgumentList.ofJson? = some l ∧
      l.input = " a n='\"\\n' " := by
  have hparse : ArgumentList.parse .reject " a n='\"\\n' " =
      .ok ⟨⟨#[.path "a"], ⟨[("n", .literal "\"\n")], by decide⟩⟩, " a n='\"\\n' "⟩ := by
    decide +kernel
  exact ⟨_, hparse, by decide +kernel, ofText?_text_toJson.2.2.2 _ _ _ hparse⟩

end TemplateArgs
