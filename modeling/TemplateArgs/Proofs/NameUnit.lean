/-
What `NameUnit.split?` finds: every name unit that is complete where it stands,
and nothing else.

A bare unit goes on for as long as there are name characters, so it is complete
only if none follows. A bracketed unit brings its own end and is complete before
any text. `EndsBefore` says both, and `split?_iff` is the one fact about
the cut that later proofs use: the text is a unit and what follows it, and the
unit is complete there. The other results are read off it. In particular a unit in
front, complete or not, means that one is found and is at least as long
(`exists_split?_append`).
-/
import TemplateArgs.Proofs.Front

set_option autoImplicit false

namespace TemplateArgs.NameUnit

variable {s t u r m : List Char}

/-! ## The characters of a unit -/

/-- Whether a character can open a unit. -/
def opens (c : Char) : Bool := isNameChar c || c == '['

/-- A unit opens with a name character or a bracket, and closes with one. -/
theorem exists_cons_of_isNameUnit (hu : IsNameUnit u) : ∃ c v, u = c :: v ∧ opens c = true := by
  rcases hu with ⟨hne, hall⟩ | ⟨m, -, -, rfl⟩
  · obtain ⟨c, v, rfl⟩ := List.exists_cons_of_ne_nil hne
    exact ⟨c, v, rfl, by simp [opens, hall c (by simp)]⟩
  · exact ⟨'[', m ++ [']'], rfl, by decide⟩

theorem getLast?_of_isNameUnit (hu : IsNameUnit u) :
    ∃ c, u.getLast? = some c ∧ (isNameChar c = true ∨ c = ']') := by
  rcases hu with ⟨hne, hall⟩ | ⟨m, -, -, rfl⟩
  · exact ⟨u.getLast hne, List.getLast?_eq_some_getLast hne, .inl (hall _ (List.getLast_mem hne))⟩
  · refine ⟨']', ?_, .inr rfl⟩
    rw [← List.cons_append, List.getLast?_concat]

/-- A unit that closes with a name character is bare. -/
theorem isNameChar_of_getLast? {c : Char} (hu : IsNameUnit u) (hlast : u.getLast? = some c)
    (hc : isNameChar c = true) : ∀ c ∈ u, isNameChar c = true := by
  rcases hu with ⟨-, hall⟩ | ⟨m, -, -, rfl⟩
  · exact hall
  · rw [← List.cons_append, List.getLast?_concat] at hlast
    rw [← Option.some.inj hlast] at hc
    exact absurd hc (by decide)

/-! ## The two forms -/

/-- Whether a unit is complete with the text `r` behind it. -/
def EndsBefore (u r : List Char) : Prop :=
  (∀ c ∈ u, isNameChar c = true) → NoneInFront isNameChar r

theorem bare?_eq_some_iff : bare? s = some (u, r) ↔
    s = u ++ r ∧ u ≠ [] ∧ (∀ c ∈ u, isNameChar c = true) ∧ NoneInFront isNameChar r := by
  constructor
  · intro h
    have hne := ne_nil_of_bare? h
    unfold bare? at h
    split at h
    · exact absurd h (by simp)
    · obtain ⟨hu, hr⟩ := Prod.mk.inj (Option.some.inj h)
      obtain ⟨hs, hall, hnone⟩ := takeWhile_eq_iff.1 ⟨hu, hr⟩
      exact ⟨hs, hne, hall, hnone⟩
  · rintro ⟨hs, hne, hall, hr⟩
    obtain ⟨htake, hdrop⟩ := takeWhile_eq_iff.2 ⟨hs, hall, hr⟩
    unfold bare?
    rw [htake, hdrop]
    split
    · exact absurd rfl hne
    · rfl

theorem bracketed?_eq_some_iff : bracketed? s = some (u, r) ↔
    s = u ++ r ∧ ∃ m, m ≠ [] ∧ (∀ c ∈ m, c ≠ ']') ∧ u = '[' :: (m ++ [']']) := by
  constructor
  · intro h
    refine ⟨(append_of_bracketed? h).symm, ?_⟩
    unfold bracketed? at h
    split at h
    · next s =>
      split at h
      · next c m d r' hm hr =>
        obtain ⟨hu, -⟩ := Prod.mk.inj (Option.some.inj h)
        refine ⟨c :: m, List.cons_ne_nil c m, ?_, by rw [← hu, List.cons_append, List.cons_append]⟩
        intro x hx
        rw [← hm] at hx
        simpa using List.all_eq_true.1 List.all_takeWhile x hx
      · exact absurd h (by simp)
    · exact absurd h (by simp)
  · rintro ⟨rfl, m, hne, hall, rfl⟩
    -- The content ends at the first bracket that closes, and it holds none itself.
    obtain ⟨c, m, rfl⟩ := List.exists_cons_of_ne_nil hne
    have hm : ∀ x ∈ c :: m, (x != ']') = true := by
      intro x hx
      simpa using hall x hx
    have hr : NoneInFront (· != ']') (']' :: r) := noneInFront_cons.2 (by decide)
    have hs : '[' :: ((c :: m) ++ [']']) ++ r = '[' :: ((c :: m) ++ ']' :: r) := by simp
    rw [hs, bracketed?, takeWhile_append_of_noneInFront hm hr,
      dropWhile_append_of_noneInFront hm hr]
    rfl

/-! ## The unit in front -/

/-- A unit is found exactly if it is there and complete. -/
theorem split?_iff :
    split? s = some (u, r) ↔ s = u ++ r ∧ IsNameUnit u ∧ EndsBefore u r := by
  simp only [split?, Option.orElse_eq_orElse, Option.orElse_eq_or, Option.or_eq_some_iff]
  constructor
  · rintro (h | ⟨-, h⟩)
    · obtain ⟨hs, hne, hall, hr⟩ := bare?_eq_some_iff.1 h
      exact ⟨hs, .inl ⟨hne, hall⟩, fun _ => hr⟩
    · obtain ⟨hs, m, hne, hall, rfl⟩ := bracketed?_eq_some_iff.1 h
      exact ⟨hs, .inr ⟨m, hne, hall, rfl⟩, fun h => absurd (h '[' (by simp)) (by decide)⟩
  · rintro ⟨hs, ⟨hne, hall⟩ | ⟨m, hne, hall, rfl⟩, hend⟩
    · exact .inl (bare?_eq_some_iff.2 ⟨hs, hne, hall, hend hall⟩)
    · refine .inr ⟨?_, bracketed?_eq_some_iff.2 ⟨hs, m, hne, hall, rfl⟩⟩
      -- A bracket is no name character, so there is no bare unit to be found first.
      rw [hs, List.cons_append, bare?, List.takeWhile_cons_of_neg (by decide)]

theorem split?_append_of_endsBefore (hu : IsNameUnit u) (hend : EndsBefore u r) :
    split? (u ++ r) = some (u, r) :=
  split?_iff.2 ⟨rfl, hu, hend⟩

/-- Where no unit can open there is none. -/
theorem split?_eq_none (hs : NoneInFront opens s) : split? s = none := by
  cases h : split? s with
  | none => rfl
  | some ur =>
    obtain ⟨u, r⟩ := ur
    obtain ⟨rfl, hu, -⟩ := split?_iff.1 h
    obtain ⟨c, v, rfl, hc⟩ := exists_cons_of_isNameUnit hu
    rw [List.cons_append, noneInFront_cons, hc] at hs
    exact absurd hs (by decide)

/-- A unit in front of any text means that one is found, and at least as much
of it. -/
theorem exists_split?_append (hu : IsNameUnit u) (t : List Char) :
    ∃ v r, split? (u ++ t) = some (v, r) ∧ r.length ≤ t.length := by
  rcases hu with ⟨hne, hall⟩ | ⟨m, hne, hall, rfl⟩
  -- A bare unit takes with it whatever name characters the text begins with.
  · refine ⟨u ++ t.takeWhile isNameChar, t.dropWhile isNameChar, ?_,
      (List.dropWhile_sublist isNameChar).length_le⟩
    refine split?_iff.2 ⟨?_, .inl ⟨by simp [hne], ?_⟩, fun _ => noneInFront_dropWhile⟩
    · rw [List.append_assoc, List.takeWhile_append_dropWhile]
    · intro c hc
      rcases List.mem_append.1 hc with h | h
      · exact hall c h
      · exact List.all_eq_true.1 List.all_takeWhile c h
  · exact ⟨'[' :: (m ++ [']']), t, split?_append_of_endsBefore (.inr ⟨m, hne, hall, rfl⟩)
      (fun h => absurd (h '[' (by simp)) (by decide)), Nat.le_refl _⟩

theorem isCut : IsCut IsNameUnit split? where
  word h := by
    obtain ⟨hs, hu, -⟩ := split?_iff.1 h
    exact ⟨hs, hu⟩
  reach := exists_split?_append

/-! ## The name of a unit -/

theorem closing_not_mem_of_bare (hu : ∀ c ∈ u, isNameChar c = true) : ']' ∉ u := by
  intro hclosing
  exact absurd (hu ']' hclosing) (by decide)

/-- Nothing is taken off a text without a closing bracket. -/
theorem name_eq_self (hu : ']' ∉ u) : name u = u := by
  have hnone : between? '[' ']' u = none := by
    by_contra hsome
    obtain ⟨m, hm⟩ := Option.ne_none_iff_exists'.1 hsome
    apply hu
    rw [between?_eq_some_iff.1 hm]
    simp
  rw [name, hnone, Option.getD_none]

@[simp] theorem name_bracketed (m : List Char) : name ('[' :: (m ++ [']'])) = m := by
  rw [name, between?_eq_some_iff.2 rfl, Option.getD_some]

end TemplateArgs.NameUnit
