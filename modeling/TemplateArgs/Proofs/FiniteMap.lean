/-
What a table tells of the insertions that led to it.

Everything that can be asked of a table is answered by its history: which keys it
has and in which order, what each of them is worth, how many there are, and what
a walk over it meets. `Records` lists the questions with their answers, and none
of the answers speaks of how entries are kept.

A history may start from a table that is not empty. The entries of that table
then count as inserted first, in their order, and this is no more than a way to
count: the table that is reached is the one that the longer history leads to from
nothing (`insertAll_eq_ofList`). So it is enough to know what a table tells that
was empty at first.
-/
import Mathlib.Data.Finset.Card
import TemplateArgs.Proofs.Table

set_option autoImplicit false

namespace TemplateArgs

/-! ## Walks -/

namespace Cursor

variable {α : Type}

/-- One call takes the entry in front, if there is one. -/
theorem next_eq (c : Cursor α) : c.next = (c.remaining.head?, ⟨c.remaining.tail⟩) := by
  obtain ⟨remaining⟩ := c
  cases remaining with
  | nil => rfl
  | cons e es => rfl

/-- Each call answers with an entry for as long as some are left, and with
nothing from then on. -/
theorem nexts_eq (count : Nat) (c : Cursor α) : nexts count c =
    ((c.remaining.take count).map some ++ List.replicate (count - c.remaining.length) none,
      ⟨c.remaining.drop count⟩) := by
  induction count generalizing c with
  | zero => simp [nexts]
  | succ count ih =>
    obtain ⟨remaining⟩ := c
    rw [nexts, next_eq]
    cases remaining with
    | nil => simp [ih, List.replicate_succ]
    | cons e es => simp [ih]

/-- At every point of a walk it is known how many entries are left. -/
theorem sizeBounds_nexts (count : Nat) (c : Cursor α) : (nexts count c).2.sizeBounds =
    (c.remaining.length - count, c.remaining.length - count) := by
  rw [nexts_eq, sizeBounds, List.length_drop]

end Cursor

namespace Table

variable {α β : Type} [DecidableEq α] {t start : Table α β} {key k : α} {value v : β}
  {history : List (α × β)}

/-! ## One insertion -/

/-- The value that is replaced is the one that the key had. -/
@[simp] theorem getThenInsert?_eq (t : Table α β) (key : α) (value : β) :
    t.getThenInsert? key value = (t.get? key, t.insert key value) := by
  simp only [getThenInsert?, exchange_eq]
  rfl

/-- An insertion moves no key. -/
theorem keys_prefix_keys_insert (t : Table α β) (key : α) (value : β) :
    t.keys <+: (t.insert key value).keys := by
  rw [keys_insert]
  split
  · exact List.prefix_rfl
  · exact List.prefix_append _ _

/-! ## A history from nothing -/

theorem get?_ofList_iff : (ofList history).get? k = some v ↔ IsLastFor history k v := by
  rw [ofList_eq_insertAll, get?_insertAll_iff, get?_eq_some_iff]
  exact or_iff_left fun h => absurd h.2 List.not_mem_nil

theorem keys_ofList : (ofList history).keys = (history.map Prod.fst).eraseDups :=
  keys_insertAll

/-- The entries of a table are a history that leads to it. -/
@[simp] theorem ofList_entries (t : Table α β) : ofList t.entries = t := by
  apply Table.ext
  exact entries_insertAll_of_nodup (t := ∅) t.nodup_keys

/-- A history that starts from a table goes on with the entries of that table. -/
theorem insertAll_eq_ofList (start : Table α β) (history : List (α × β)) :
    start.insertAll history = ofList (start.entries ++ history) := by
  have h : ofList (start.entries ++ history) = (ofList start.entries).insertAll history :=
    List.foldl_append
  rw [h, ofList_entries]

/-! ## What a table tells -/

/-- What a table answers to every question, in terms of the insertions that led
to it. -/
structure Records (t : Table α β) (history : List (α × β)) : Prop where
  /-- no key is listed twice -/
  nodup_keys : t.keys.Nodup
  /-- keys are listed in the order of their first insertion -/
  keys_eq : t.keys = (history.map Prod.fst).eraseDups
  /-- so are the entries, one for each key -/
  map_fst_entries : t.entries.map Prod.fst = (history.map Prod.fst).eraseDups
  /-- a key has the value that was inserted for it last -/
  get?_eq_some : ∀ k v, t.get? k = some v ↔ IsLastFor history k v
  /-- and none if there never was one -/
  get?_eq_none : ∀ k, t.get? k = none ↔ k ∉ history.map Prod.fst
  contains_eq : ∀ k, t.contains k = true ↔ k ∈ history.map Prod.fst
  /-- the size counts each key once -/
  size_eq : t.size = (history.map Prod.fst).toFinset.card
  isEmpty_eq : t.isEmpty = true ↔ t.size = 0

theorem records_ofList (history : List (α × β)) : (ofList history).Records history where
  nodup_keys := (ofList history).nodup_keys
  keys_eq := keys_ofList
  map_fst_entries := keys_ofList
  get?_eq_some k v := get?_ofList_iff
  get?_eq_none k := by rw [get?_eq_none_iff, keys_ofList, List.mem_eraseDups]
  contains_eq k := by rw [contains_iff, keys_ofList, List.mem_eraseDups]
  size_eq := by
    have hsize : (ofList history).size = (ofList history).keys.length := by
      rw [size, keys, List.length_map]
    have hnames : (ofList history).keys.toFinset = (history.map Prod.fst).toFinset := by
      rw [keys_ofList]
      ext k
      rw [List.mem_toFinset, List.mem_toFinset, List.mem_eraseDups]
    rw [hsize, ← hnames]
    exact (List.toFinset_card_of_nodup (ofList history).nodup_keys).symm
  isEmpty_eq := by rw [isEmpty, List.isEmpty_iff, size, List.length_eq_zero_iff]

/-- **Tables are finite maps in the order of arrival.** After any insertions into
any table, the empty one or one that was read from a text, each question is
answered by the history alone. One more insertion answers what its key was worth
before, makes the history one longer, and leaves every other key its value and
every key its place. A walk meets the entries in order and then nothing, and at
each step it is known how many are left. -/
theorem records_insertAll (start : Table α β) (history : List (α × β)) (key : α) (value : β)
    (count : Nat) :
    (start.insertAll history).Records (start.entries ++ history) ∧
    (start.insertAll history).getThenInsert? key value =
      ((start.insertAll history).get? key, start.insertAll (history ++ [(key, value)])) ∧
    (∀ k, k ≠ key → (start.insertAll (history ++ [(key, value)])).get? k =
      (start.insertAll history).get? k) ∧
    (start.insertAll history).keys <+: (start.insertAll (history ++ [(key, value)])).keys ∧
    ((start.insertAll history).cursor.nexts count).1 =
      ((start.insertAll history).entries.take count).map some ++
        List.replicate (count - (start.insertAll history).size) none ∧
    ((start.insertAll history).cursor.nexts count).2.sizeBounds =
      ((start.insertAll history).size - count, (start.insertAll history).size - count) := by
  have hrecords : (start.insertAll history).Records (start.entries ++ history) := by
    rw [insertAll_eq_ofList]
    exact records_ofList _
  have hconcat : start.insertAll (history ++ [(key, value)]) =
      (start.insertAll history).insert key value := insertAll_concat
  rw [hconcat]
  refine ⟨hrecords, getThenInsert?_eq _ key value, fun k hk => ?_,
    keys_prefix_keys_insert _ key value, ?_, Cursor.sizeBounds_nexts count _⟩
  · rw [get?_insert, if_neg hk]
  · rw [Cursor.nexts_eq]
    rfl

end Table

end TemplateArgs
