/-
Reading undoes writing, for every JSON value whose numbers are numbers.

The reader decides at the first character of a value which kind it is, and from
then on the text says where the value ends: a string at the quote that closes it,
an array and an object at their bracket. Only a number ends because of what
follows it. So a value is read back in front of any text that does not go on with
a character of a number (`IsReadBack`), and what follows an item or a member is a
comma or a bracket.

The reader goes down one level for every item and for every value inside
another, and each level has written at least one character. So a value is read back
to any depth greater than its text is long.
-/
import TemplateArgs.Json.Reader
import TemplateArgs.Proofs.Front

set_option autoImplicit false

namespace TemplateArgs.Json

/-! ## Strings -/

section Strings

variable {c letter : Char} {n : Nat} {s : List Char}

theorem ofShortEscape?_shortEscape? (h : shortEscape? c = some letter) :
    ofShortEscape? letter = some c ∧ letter ≠ 'u' := by
  unfold shortEscape? at h
  split at h
  case h_6 => simp at h
  all_goals
    obtain rfl := Option.some.inj h
    exact ⟨rfl, by decide⟩

theorem ofHex?_control (hn : n < 0x20) :
    ofHex? '0' '0' (Nat.digitChar (n / 16)) (Nat.digitChar (n % 16)) = some (Char.ofNat n) := by
  have hall : ∀ n < 0x20, ofHex? '0' '0' (Nat.digitChar (n / 16)) (Nat.digitChar (n % 16)) =
      some (Char.ofNat n) := by decide
  exact hall n hn

/-- Behind a backslash, any letter but the one for code points stands alone. -/
theorem readString?_backslash (hc : c ≠ 'u') : readString? ('\\' :: c :: s) =
    (ofShortEscape? c).bind fun e => (readString? s).map fun (m, r) => (e :: m, r) := by
  rw [readString?]
  · cases ofShortEscape? c <;> cases readString? s <;> rfl
  · rintro a b d e t rfl
    exact absurd rfl hc

/-- One character is read at a time, however it is written. -/
theorem readString?_escaped (c : Char) (s : List Char) :
    readString? (escaped c ++ s) = (readString? s).map fun (m, r) => (c :: m, r) := by
  unfold escaped
  split
  · next hc =>
    rw [List.cons_append, List.singleton_append]
    rcases hc with rfl | rfl
    · exact readString?_backslash (by decide)
    · exact readString?_backslash (by decide)
  · next hc =>
    obtain ⟨hquote, hesc⟩ := not_or.1 hc
    split
    · next letter hletter =>
      obtain ⟨hback, hu⟩ := ofShortEscape?_shortEscape? hletter
      rw [List.cons_append, List.singleton_append, readString?_backslash hu, hback]
      rfl
    · split
      · next hlow =>
        have hback := ofHex?_control hlow
        rw [Char.ofNat_toNat] at hback
        simp only [List.cons_append, List.nil_append, readString?, hback]
        cases readString? s <;> rfl
      · next hlow =>
        rw [List.singleton_append, readString?, if_neg (not_or.2 ⟨hesc, hlow⟩)]
        · cases readString? s <;> rfl
        · exact hquote
        · exact fun _ _ _ _ _ h => absurd h hesc
        · exact fun _ _ h => absurd h hesc

theorem readString?_flatMap (m r : List Char) :
    readString? (m.flatMap escaped ++ '\"' :: r) = some (m, r) := by
  induction m with
  | nil => rfl
  | cons c m ih =>
    rw [List.flatMap_cons, List.append_assoc, readString?_escaped, ih, Option.map_some]

theorem quoted_append (s : String) (r : List Char) :
    quoted s ++ r = '\"' :: (s.toList.flatMap escaped ++ '\"' :: r) := by
  rw [quoted, List.cons_append, List.append_assoc, List.singleton_append]

theorem readKey?_quoted (key : String) (r : List Char) :
    readKey? (quoted key ++ ':' :: r) = some (key, r) := by
  rw [quoted_append, readKey?, readString?_flatMap]
  exact congrArg (fun k => some (k, r)) String.ofList_toList

end Strings

/-! ## Values -/

/-- Whether the numbers in a value are such that they can be told from other
values. -/
inductive IsLegible : Json → Prop
  | null : IsLegible null
  | bool (b : Bool) : IsLegible (bool b)
  | number {literal : String} : literal.toList ≠ [] →
      (∀ c ∈ literal.toList, isNumberChar c = true) → IsLegible (number literal)
  | string (s : String) : IsLegible (string s)
  | array {items : List Json} : (∀ j ∈ items, IsLegible j) → IsLegible (array items)
  | object {members : List (String × Json)} : (∀ m ∈ members, IsLegible m.2) →
      IsLegible (object members)

/-- Whether a value is read back from its text in front of any other. -/
def IsReadBack (j : Json) : Prop :=
  ∀ (depth : Nat) (s : List Char), j.chars.length ≤ depth → NoneInFront isNumberChar s →
    readValue? (depth + 1) (j.chars ++ s) = some (j, s)

section Values

variable {depth : Nat} {j : Json} {s : List Char} {literal : String} {items : List Json}
  {members : List (String × Json)}

theorem isReadBack_number (hne : literal.toList ≠ [])
    (hnumber : ∀ c ∈ literal.toList, isNumberChar c = true) : IsReadBack (number literal) := by
  intro depth s _ hs
  obtain ⟨c, ds, hliteral⟩ := List.exists_cons_of_ne_nil hne
  have hc : isNumberChar c = true := hnumber c (by simp [hliteral])
  -- No other value begins with a character of a number.
  have hother : ∀ {x t}, isNumberChar x = false → literal.toList ++ s ≠ x :: t := by
    intro x t hx h
    rw [hliteral] at h
    rw [(List.cons.inj h).1, hx] at hc
    exact absurd hc (by decide)
  rw [chars, readValue?, takeWhile_append_of_noneInFront hnumber hs,
    dropWhile_append_of_noneInFront hnumber hs]
  · simp only [hliteral]
    rw [← hliteral, String.ofList_toList]
  · exact fun h => absurd h (by omega)
  -- The other goals are the kinds of value that the reader tries first.
  all_goals first
    | exact fun _ => hother (by decide)
    | exact fun _ _ _ => hother (by decide)

theorem isReadBack_string (t : String) : IsReadBack (string t) := by
  intro depth s _ _
  simp only [chars, quoted_append, readValue?, readString?_flatMap, Option.bind_eq_bind,
    Option.bind_some, String.ofList_toList]

/-! ## Items and members -/

/-- Behind an item there is a comma or a bracket. -/
theorem noneInFront_moreItemChars :
    NoneInFront isNumberChar (moreItemChars items ++ ']' :: s) := by
  cases items with
  | nil => exact noneInFront_cons.2 (by decide)
  | cons j items =>
    rw [moreItemChars]
    exact noneInFront_cons.2 (by decide)

theorem readItems?_append (hitems : ∀ j ∈ items, IsReadBack j)
    (hdepth : (moreItemChars items).length < depth) :
    readItems? depth (moreItemChars items ++ ']' :: s) = some (items, s) := by
  induction items generalizing depth with
  | nil => rw [moreItemChars, List.nil_append, readItems?]
  | cons j items ih =>
    obtain ⟨hj, hitems⟩ := List.forall_mem_cons.1 hitems
    rw [moreItemChars, List.length_cons, List.length_append] at hdepth
    obtain ⟨depth, rfl⟩ : ∃ d, depth = d + 1 + 1 := ⟨depth - 2, by omega⟩
    have hread := hj depth (moreItemChars items ++ ']' :: s) (by omega) noneInFront_moreItemChars
    have hmore : readItems? (depth + 1) (moreItemChars items ++ ']' :: s) = some (items, s) :=
      ih hitems (by omega)
    rw [moreItemChars, List.cons_append, List.append_assoc, readItems?, hread]
    simp only [Option.bind_eq_bind, Option.bind_some, hmore]

theorem noneInFront_moreMemberChars :
    NoneInFront isNumberChar (moreMemberChars members ++ '\x7d' :: s) := by
  cases members with
  | nil => exact noneInFront_cons.2 (by decide)
  | cons m members =>
    rw [moreMemberChars]
    exact noneInFront_cons.2 (by decide)

theorem readMembers?_append (hmembers : ∀ m ∈ members, IsReadBack m.2)
    (hdepth : (moreMemberChars members).length < depth) :
    readMembers? depth (moreMemberChars members ++ '\x7d' :: s) = some (members, s) := by
  induction members generalizing depth with
  | nil => rw [moreMemberChars, List.nil_append, readMembers?]
  | cons m members ih =>
    obtain ⟨key, j⟩ := m
    obtain ⟨hj, hmembers⟩ := List.forall_mem_cons.1 hmembers
    simp only [moreMemberChars, List.length_cons, List.length_append] at hdepth
    obtain ⟨depth, rfl⟩ : ∃ d, depth = d + 1 + 1 := ⟨depth - 2, by omega⟩
    have hread : readValue? (depth + 1) (j.chars ++ (moreMemberChars members ++ '\x7d' :: s)) =
        some (j, moreMemberChars members ++ '\x7d' :: s) :=
      hj depth _ (by simp only; omega) noneInFront_moreMemberChars
    have hmore : readMembers? (depth + 1) (moreMemberChars members ++ '\x7d' :: s) =
        some (members, s) := ih hmembers (by omega)
    rw [moreMemberChars, List.cons_append, List.append_assoc, List.cons_append, List.append_assoc,
      readMembers?, readKey?_quoted]
    simp only [Option.bind_eq_bind, Option.bind_some, hread, hmore]

/-- No value begins like the end of an array. -/
theorem chars_append_ne (hj : IsLegible j) (s t : List Char) : j.chars ++ s ≠ ']' :: t := by
  intro h
  cases hj with
  | null => exact absurd h (by simp [chars])
  | bool b => exact absurd h (by cases b <;> simp [chars])
  | number hne hnumber =>
    obtain ⟨c, ds, hliteral⟩ := List.exists_cons_of_ne_nil hne
    have hc := hnumber c (by simp [hliteral])
    rw [chars, hliteral] at h
    rw [(List.cons.inj h).1] at hc
    exact absurd hc (by decide)
  | string t => exact absurd h (by simp [chars, quoted])
  | array => exact absurd h (by simp [chars])
  | object => exact absurd h (by simp [chars])

theorem isReadBack_array (hitems : ∀ j ∈ items, IsLegible j ∧ IsReadBack j) :
    IsReadBack (array items) := by
  intro depth s hdepth _
  rw [chars, List.length_cons, List.length_append, List.length_singleton] at hdepth
  obtain ⟨depth, rfl⟩ : ∃ d, depth = d + 1 := ⟨depth - 1, by omega⟩
  rw [chars, List.cons_append, List.append_assoc, List.singleton_append]
  cases items with
  | nil => simp only [itemChars, List.nil_append, readValue?]
  | cons j items =>
    obtain ⟨⟨hlegible, hj⟩, hitems⟩ := List.forall_mem_cons.1 hitems
    rw [itemChars, List.length_append] at hdepth
    have hread := hj depth (moreItemChars items ++ ']' :: s) (by omega) noneInFront_moreItemChars
    have hmore : readItems? (depth + 1) (moreItemChars items ++ ']' :: s) = some (items, s) :=
      readItems?_append (fun j hj => (hitems j hj).2) (by omega)
    rw [itemChars, List.append_assoc, readValue?]
    · simp only [Option.bind_eq_bind, Option.bind_some, hread, hmore]
    · exact chars_append_ne hlegible _

theorem isReadBack_object (hmembers : ∀ m ∈ members, IsReadBack m.2) :
    IsReadBack (object members) := by
  intro depth s hdepth _
  rw [chars, List.length_cons, List.length_append, List.length_singleton] at hdepth
  obtain ⟨depth, rfl⟩ : ∃ d, depth = d + 1 := ⟨depth - 1, by omega⟩
  rw [chars, List.cons_append, List.append_assoc, List.singleton_append]
  cases members with
  | nil => simp only [memberChars, List.nil_append, readValue?]
  | cons m members =>
    obtain ⟨key, j⟩ := m
    obtain ⟨hj, hmembers⟩ := List.forall_mem_cons.1 hmembers
    simp only [memberChars, List.length_append, List.length_cons] at hdepth
    have hread : readValue? (depth + 1) (j.chars ++ (moreMemberChars members ++ '\x7d' :: s)) =
        some (j, moreMemberChars members ++ '\x7d' :: s) :=
      hj depth _ (by simp only; omega) noneInFront_moreMemberChars
    have hmore : readMembers? (depth + 1) (moreMemberChars members ++ '\x7d' :: s) =
        some (members, s) := readMembers?_append hmembers (by omega)
    rw [memberChars, List.append_assoc, List.cons_append, List.append_assoc, readValue?,
      readKey?_quoted]
    · simp only [Option.bind_eq_bind, Option.bind_some, hread, hmore]
    · intro t h
      exact absurd h (by simp [quoted])

/-- Every legible value is read back, by induction over its parts. -/
theorem IsLegible.isReadBack (hj : IsLegible j) : IsReadBack j := by
  induction hj with
  | null =>
    intro depth s _ _
    simp only [chars, List.cons_append, List.nil_append, readValue?]
  | bool b =>
    intro depth s _ _
    cases b <;> simp only [chars, List.cons_append, List.nil_append, readValue?]
  | number hne hnumber => exact isReadBack_number hne hnumber
  | string t => exact isReadBack_string t
  | array hitems ih => exact isReadBack_array fun j hj => ⟨hitems j hj, ih j hj⟩
  | object _ ih => exact isReadBack_object ih

/-- A legible value is the one that its text stands for. -/
theorem ofText?_text (hj : IsLegible j) : ofText? j.text = some j := by
  have hread : readValue? (j.text.length + 1) (j.text.toList ++ []) = some (j, []) := by
    rw [text, String.toList_ofList]
    refine hj.isReadBack _ [] ?_ noneInFront_nil
    simp
  rw [List.append_nil] at hread
  rw [ofText?, hread]

end Values

end TemplateArgs.Json
