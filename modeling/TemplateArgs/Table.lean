/-
Tables: finite maps that remember in which order their keys arrived.

An entry is replaced where it stands. So giving a key a second value changes
what the key means and not where it is listed, and the order of a table is that
in which its keys were first inserted. That no key is listed twice is part of
the type: the one operation that changes a table, `Table.insert`, either
leaves the keys alone or appends one that is new (`keys_insert`).
`Table.getThenInsert?` is that operation for one who also asks for the value that
is replaced.

A `Cursor` walks over the entries of a table, one at a time, and tells at every
point how many are left.
-/
set_option autoImplicit false

namespace TemplateArgs

/-- A finite map in the order of its keys' first arrival. Two tables are equal
if they have the same entries in the same order. -/
@[ext] structure Table (α β : Type) where
  entries : List (α × β)
  nodup_keys : (entries.map Prod.fst).Nodup
deriving DecidableEq, Repr

namespace Table

variable {α β : Type}

/-- The table without entries. -/
def empty : Table α β := ⟨[], List.nodup_nil⟩

instance : EmptyCollection (Table α β) := ⟨empty⟩

instance : Inhabited (Table α β) := ⟨∅⟩

/-! ## Looking -/

/-- The keys, in the order of the table. -/
def keys (t : Table α β) : List α := t.entries.map Prod.fst

/-- How many keys there are. -/
def size (t : Table α β) : Nat := t.entries.length

/-- Whether there is no key at all. -/
def isEmpty (t : Table α β) : Bool := t.entries.isEmpty

variable [DecidableEq α]

/-- The value of a key. -/
def get? (t : Table α β) (key : α) : Option β :=
  (t.entries.find? (·.1 = key)).map Prod.snd

/-- Whether a key has a value. -/
def contains (t : Table α β) (key : α) : Bool := (t.get? key).isSome

/-! ## Inserting -/

/-- The entries with the value of a key replaced, or with the key appended if
there is no entry for it. -/
def replaceOrAppend (key : α) (value : β) : List (α × β) → List (α × β)
  | [] => [(key, value)]
  | (k, v) :: es =>
    if k = key then (k, value) :: es else (k, v) :: replaceOrAppend key value es

/-- Replacing leaves the keys alone and appending adds one. -/
theorem map_fst_replaceOrAppend (key : α) (value : β) (es : List (α × β)) :
    (replaceOrAppend key value es).map Prod.fst =
      if key ∈ es.map Prod.fst then es.map Prod.fst else es.map Prod.fst ++ [key] := by
  induction es with
  | nil => simp [replaceOrAppend]
  | cons e es ih =>
    obtain ⟨k, v⟩ := e
    by_cases hk : k = key
    · simp [replaceOrAppend, hk]
    · -- The entry stays, so the key is looked for among those behind it.
      have hk' : ¬key = k := fun h => hk h.symm
      simp only [replaceOrAppend, hk, if_false, List.map_cons, ih, List.mem_cons, hk', false_or]
      split <;> rfl

/-- The table with a value for a key: in place of the key's old value if it had
one, and at the end otherwise. -/
def insert (t : Table α β) (key : α) (value : β) : Table α β where
  entries := replaceOrAppend key value t.entries
  nodup_keys := by
    rw [map_fst_replaceOrAppend]
    split
    · exact t.nodup_keys
    · next h =>
      refine List.nodup_append.2 ⟨t.nodup_keys, by simp, ?_⟩
      rintro a ha b hb rfl
      exact h (List.mem_singleton.1 hb ▸ ha)

/-- The value that a key had, and the entries with a new one in its place, or
appended if the key had none. Both are found in one walk over the entries. -/
def exchange (key : α) (value : β) : List (α × β) → Option β × List (α × β)
  | [] => (none, [(key, value)])
  | (k, v) :: es =>
    if k = key then (some v, (k, value) :: es)
    else
      let (old, es) := exchange key value es
      (old, (k, v) :: es)

/-- The walk answers what a look before it would, and leaves what an insertion
leaves. -/
theorem exchange_eq (key : α) (value : β) (es : List (α × β)) :
    exchange key value es =
      ((es.find? (·.1 = key)).map Prod.snd, replaceOrAppend key value es) := by
  induction es with
  | nil => rfl
  | cons e es ih =>
    obtain ⟨k, v⟩ := e
    by_cases hk : k = key
    · simp [exchange, replaceOrAppend, hk]
    · simp [exchange, replaceOrAppend, hk, ih]

/-- The value that a key had, and the table with a new one. -/
def getThenInsert? (t : Table α β) (key : α) (value : β) : Option β × Table α β :=
  let exchanged := exchange key value t.entries
  (exchanged.1,
    { entries := exchanged.2
      nodup_keys := by
        have h : exchanged.2 = (t.insert key value).entries :=
          congrArg Prod.snd (exchange_eq key value t.entries)
        rw [h]
        exact (t.insert key value).nodup_keys })

/-- The table that a history of insertions leaves behind, the earliest first. -/
def ofList (history : List (α × β)) : Table α β :=
  history.foldl (fun t e => t.insert e.1 e.2) ∅

/-- An insertion changes no key and adds one at the end if it is new. -/
theorem keys_insert (t : Table α β) (key : α) (value : β) :
    (t.insert key value).keys = if key ∈ t.keys then t.keys else t.keys ++ [key] :=
  map_fst_replaceOrAppend key value t.entries

end Table

/-! ## Walking over a table -/

/-- A place in a walk: the entries that are still to come. -/
structure Cursor (α : Type) where
  remaining : List α
deriving DecidableEq, Repr

namespace Cursor

variable {α : Type}

/-- The next entry, if one is left, and the place behind it. -/
def next : Cursor α → Option α × Cursor α
  | ⟨[]⟩ => (none, ⟨[]⟩)
  | ⟨e :: es⟩ => (some e, ⟨es⟩)

/-- The answers to `count` calls of `next`, and the place after them. -/
def nexts : Nat → Cursor α → List (Option α) × Cursor α
  | 0, c => ([], c)
  | count + 1, c =>
    let (e, c) := c.next
    let (es, c) := nexts count c
    (e :: es, c)

/-- The least and the greatest number of entries that may be left. A cursor
knows it exactly, so they are one number. -/
def sizeBounds (c : Cursor α) : Nat × Nat := (c.remaining.length, c.remaining.length)

end Cursor

/-- The place before the first entry of a table. -/
def Table.cursor {α β : Type} (t : Table α β) : Cursor (α × β) := ⟨t.entries⟩

end TemplateArgs
