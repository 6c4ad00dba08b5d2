/-
Tables as finite maps, and what a history of insertions leaves behind.

A table is its keys in order and the value of each (`ext_get?`), so an operation
is known once it is known what it does to `keys` and to `get?`. One insertion
changes the value of one key and appends that key if it is new. A history of
them lists every key at its first mention (`keys_insertAll`) and gives it the
value of its last (`get?_insertAll_iff`).

A table that came from a history says as much about it as another table needs
to know: inserting its entries is inserting the history (`insertAll_ofList`).
-/
import Mathlib.Data.List.Basic
import Mathlib.Data.List.Induction
import TemplateArgs.Table

set_option autoImplicit false

namespace TemplateArgs.Table

variable {α β : Type} [DecidableEq α] {t u : Table α β} {key k : α} {value v : β}
  {history : List (α × β)}

/-! ## Keys and values -/

theorem get?_eq_none_iff : t.get? k = none ↔ k ∉ t.keys := by
  rw [get?, Option.map_eq_none_iff, List.find?_eq_none, keys, List.mem_map, not_exists]
  refine forall_congr' fun e => ?_
  rw [decide_eq_true_eq, not_and]

@[simp] theorem contains_iff : t.contains k = true ↔ k ∈ t.keys := by
  rw [contains, Option.isSome_iff_ne_none, Ne, get?_eq_none_iff, not_not]

/-- With the keys distinct, an entry is the only one of its key. -/
theorem find?_eq_some_iff {es : List (α × β)} (hes : (es.map Prod.fst).Nodup) :
    (es.find? (·.1 = k)).map Prod.snd = some v ↔ (k, v) ∈ es := by
  induction es with
  | nil => simp
  | cons e es ih =>
    obtain ⟨hfresh, hes⟩ := List.nodup_cons.1 hes
    by_cases hk : e.1 = k
    · rw [List.find?_cons_of_pos (by simp [hk]), Option.map_some, Option.some.injEq,
        List.mem_cons]
      constructor
      · rintro rfl
        exact .inl (Prod.ext hk.symm rfl)
      · rintro (h | h)
        · rw [← h]
        · exact absurd (List.mem_map_of_mem h) (hk ▸ hfresh)
    · rw [List.find?_cons_of_neg (by simp [hk]), ih hes, List.mem_cons]
      constructor
      · exact .inr
      · rintro (h | h)
        · exact absurd (congrArg Prod.fst h).symm hk
        · exact h

theorem get?_eq_some_iff : t.get? k = some v ↔ (k, v) ∈ t.entries :=
  find?_eq_some_iff t.nodup_keys

/-- The entries of a table are its keys, each with its value. -/
theorem entries_eq (t : Table α β) :
    t.entries = t.keys.filterMap fun k => (t.get? k).map fun v => (k, v) := by
  have hself : ∀ e ∈ t.entries, ((t.get? e.1).map fun v => (e.1, v)) = some e := by
    intro e he
    rw [get?_eq_some_iff.2 he, Option.map_some]
  rw [keys, List.filterMap_map]
  exact (List.filterMap_congr hself).trans List.filterMap_some |>.symm

/-- Two tables are equal if they have the same keys in the same order and give
them the same values. -/
theorem ext_get? (hkeys : t.keys = u.keys) (hget : ∀ k, t.get? k = u.get? k) : t = u := by
  apply Table.ext
  rw [entries_eq t, entries_eq u, hkeys]
  simp only [hget]

/-! ## One insertion -/

theorem find?_replaceOrAppend (es : List (α × β)) :
    ((replaceOrAppend key value es).find? (·.1 = k)).map Prod.snd =
      if k = key then some value else (es.find? (·.1 = k)).map Prod.snd := by
  induction es with
  | nil =>
    by_cases hk : k = key
    · simp [replaceOrAppend, hk]
    · simp [replaceOrAppend, hk, Ne.symm hk]
  | cons e es ih =>
    obtain ⟨k', v'⟩ := e
    by_cases hkey : k' = key <;> by_cases hk : k' = k
    · subst hkey hk
      simp [replaceOrAppend]
    · subst hkey
      simp [replaceOrAppend, hk, Ne.symm hk]
    · subst hk
      simp [replaceOrAppend, hkey]
    · simp [replaceOrAppend, hkey, hk, ih]

/-- An insertion gives one key its value and leaves the others theirs. -/
theorem get?_insert : (t.insert key value).get? k = if k = key then some value else t.get? k :=
  find?_replaceOrAppend t.entries

/-- A new key goes to the end. -/
theorem entries_insert_of_not_mem (hkey : key ∉ t.keys) :
    (t.insert key value).entries = t.entries ++ [(key, value)] := by
  have happend : ∀ es : List (α × β), key ∉ es.map Prod.fst →
      replaceOrAppend key value es = es ++ [(key, value)] := by
    intro es hes
    induction es with
    | nil => rfl
    | cons e es ih =>
      obtain ⟨hne, hes⟩ := not_or.1 (mt List.mem_cons.2 hes)
      rw [replaceOrAppend, if_neg (Ne.symm hne), ih hes, List.cons_append]
  exact happend t.entries hkey

omit [DecidableEq α] in
theorem isEmpty_iff : t.isEmpty = true ↔ t.keys = [] := by
  rw [isEmpty, List.isEmpty_iff, keys, List.map_eq_nil_iff]

@[simp] theorem isEmpty_insert : (t.insert key value).isEmpty = false := by
  rw [← Bool.not_eq_true, isEmpty_iff, keys_insert]
  split
  · next h => exact List.ne_nil_of_mem h
  · exact List.append_ne_nil_of_right_ne_nil _ (List.cons_ne_nil key [])

/-! ## A history of insertions -/

/-- The table after a history of insertions, the earliest first. -/
def insertAll (t : Table α β) (history : List (α × β)) : Table α β :=
  history.foldl (fun t e => t.insert e.1 e.2) t

theorem ofList_eq_insertAll : ofList history = (∅ : Table α β).insertAll history := rfl

theorem insertAll_concat {e : α × β} :
    t.insertAll (history ++ [e]) = (t.insertAll history).insert e.1 e.2 := by
  rw [insertAll, insertAll, List.foldl_concat]

theorem eraseDups_concat {l : List α} :
    (l ++ [k]).eraseDups = if k ∈ l then l.eraseDups else l.eraseDups ++ [k] := by
  rw [List.eraseDups_append]
  by_cases hk : k ∈ l <;> simp [List.removeAll, List.eraseDups_cons, hk]

theorem eraseDups_of_nodup {l : List α} (hl : l.Nodup) : l.eraseDups = l := by
  induction l using List.reverseRecOn with
  | nil => rfl
  | append_singleton l k ih =>
    obtain ⟨hl, -, hk⟩ := List.nodup_append.1 hl
    rw [eraseDups_concat, if_neg fun h => hk k h k (by simp) rfl, ih hl]

/-- Keys are listed at their first mention. -/
theorem keys_insertAll : (t.insertAll history).keys =
    (t.keys ++ history.map Prod.fst).eraseDups := by
  induction history using List.reverseRecOn with
  | nil =>
    rw [List.map_nil, List.append_nil]
    exact (eraseDups_of_nodup t.nodup_keys).symm
  | append_singleton history e ih =>
    rw [insertAll_concat, keys_insert, ih, List.map_append, List.map_singleton,
      ← List.append_assoc, eraseDups_concat]
    simp only [List.mem_eraseDups]

/-- A value is the last that a history gives to a key. -/
def IsLastFor (history : List (α × β)) (k : α) (v : β) : Prop :=
  ∃ before after, history = before ++ (k, v) :: after ∧ k ∉ after.map Prod.fst

omit [DecidableEq α] in
theorem isLastFor_concat {e : α × β} :
    IsLastFor (history ++ [e]) k v ↔ e = (k, v) ∨ e.1 ≠ k ∧ IsLastFor history k v := by
  constructor
  -- The new entry is the one in question, or it stands behind that one.
  · rintro ⟨before, after, hsplit, hk⟩
    rcases List.eq_nil_or_concat after with rfl | ⟨after, e', rfl⟩
    · exact .inl (List.append_inj_right' hsplit rfl |> List.cons.inj).1
    · rw [List.concat_eq_append, ← List.cons_append, ← List.append_assoc] at hsplit
      obtain ⟨hhistory, he⟩ := List.append_inj' hsplit rfl
      obtain ⟨rfl, -⟩ := List.cons.inj he
      simp only [List.concat_eq_append, List.map_append, List.mem_append, not_or] at hk
      exact .inr ⟨fun h => hk.2 (by simp [h]), before, after, hhistory, hk.1⟩
  · rintro (rfl | ⟨hne, before, after, rfl, hk⟩)
    · exact ⟨history, [], rfl, by simp⟩
    · exact ⟨before, after ++ [e], by simp, by simpa [Ne.symm hne] using hk⟩

/-- The last value that a history gives to a key is the one that stays. A key
that the history does not mention keeps its old value. -/
theorem get?_insertAll_iff : (t.insertAll history).get? k = some v ↔
    IsLastFor history k v ∨ k ∉ history.map Prod.fst ∧ t.get? k = some v := by
  induction history using List.reverseRecOn with
  | nil =>
    have hnone : ¬IsLastFor ([] : List (α × β)) k v := by
      rintro ⟨before, after, h, -⟩
      simp at h
    rw [or_iff_right hnone, List.map_nil]
    simp [insertAll]
  | append_singleton history e ih =>
    rw [insertAll_concat, get?_insert, isLastFor_concat, List.map_append, List.map_singleton,
      List.mem_append, List.mem_singleton]
    by_cases hk : k = e.1
    · rw [if_pos hk, Option.some.injEq]
      simp only [hk, or_true, not_true, false_and, or_false, ne_eq]
      exact ⟨fun h => by rw [← h], fun h => congrArg Prod.snd h⟩
    · rw [if_neg hk, ih]
      have hne : e ≠ (k, v) := fun h => hk (by rw [h])
      simp only [hne, hk, Ne.symm hk, or_false, false_or, ne_eq, not_false_eq_true, true_and]

theorem isLastFor_entries : IsLastFor u.entries k v ↔ u.get? k = some v := by
  rw [get?_eq_some_iff]
  constructor
  · rintro ⟨before, after, h, -⟩
    rw [h]
    simp
  · intro h
    obtain ⟨before, after, hsplit⟩ := List.append_of_mem h
    refine ⟨before, after, hsplit, ?_⟩
    have hnodup := u.nodup_keys
    rw [hsplit, List.map_append, List.map_cons] at hnodup
    exact (List.nodup_cons.1 (List.nodup_append.1 hnodup).2.1).1

/-- The entries of another table take precedence. -/
theorem get?_insertAll_entries :
    (t.insertAll u.entries).get? k = (u.get? k).or (t.get? k) := by
  refine Option.ext fun v => ?_
  rw [get?_insertAll_iff, isLastFor_entries, Option.or_eq_some_iff, get?_eq_none_iff]
  rfl

theorem keys_insertAll_entries : (t.insertAll u.entries).keys = (t.keys ++ u.keys).eraseDups :=
  keys_insertAll

/-- What is inserted last into a table is inserted last with it. -/
theorem insertAll_insert : t.insertAll (u.insert key value).entries =
    (t.insertAll u.entries).insert key value := by
  -- The key keeps its place if either table has it, and is last otherwise.
  apply ext_get?
  · rw [keys_insert, keys_insertAll_entries, keys_insertAll_entries, keys_insert]
    by_cases hkey : key ∈ u.keys
    · rw [if_pos hkey, if_pos (List.mem_eraseDups.2 (List.mem_append_right _ hkey))]
    · rw [if_neg hkey, ← List.append_assoc, eraseDups_concat]
      simp only [List.mem_eraseDups]
  · intro k
    rw [get?_insert, get?_insertAll_entries, get?_insertAll_entries, get?_insert]
    by_cases hk : k = key
    · rw [if_pos hk, if_pos hk, Option.some_or]
    · rw [if_neg hk, if_neg hk]

/-- The entries of a table stand for the history that led to it. -/
theorem insertAll_ofList : t.insertAll (ofList history).entries = t.insertAll history := by
  induction history using List.reverseRecOn with
  | nil => rfl
  | append_singleton history e ih =>
    rw [insertAll_concat, ← ih, ← insertAll_insert, ofList_eq_insertAll, ofList_eq_insertAll,
      insertAll_concat]

/-- A history without repetition is kept as it is. -/
theorem entries_insertAll_of_nodup (h : (t.keys ++ history.map Prod.fst).Nodup) :
    (t.insertAll history).entries = t.entries ++ history := by
  induction history using List.reverseRecOn with
  | nil => rw [List.append_nil]; rfl
  | append_singleton history e ih =>
    -- Each key is new when its turn comes, so each entry goes to the end.
    rw [List.map_append, List.map_singleton, ← List.append_assoc] at h
    obtain ⟨h', -, hfresh⟩ := List.nodup_append.1 h
    have hkeys : (t.insertAll history).keys = t.keys ++ history.map Prod.fst := by
      rw [keys_insertAll, eraseDups_of_nodup h']
    rw [insertAll_concat, entries_insert_of_not_mem, ih h', List.append_assoc]
    rw [hkeys]
    exact fun hmem => hfresh e.1 hmem e.1 (by simp) rfl

end TemplateArgs.Table
