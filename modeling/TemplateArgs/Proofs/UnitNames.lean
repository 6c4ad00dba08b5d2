/-
Which name units stand for one name.

What an argument is called is found by looking at the two ends of its unit, and
a pair of brackets comes off if both are there. On any text that would be a poor
rule. `[[a]]` would lose its brackets one pair at a time, so that naming it twice
and naming it once would differ, and `[]` would be called nothing at all.

A unit is not any text. It is a name with no `]` in it, written in one of two forms
(`NameForm.exists_of_isNameUnit`), and the name without its form is what is left
of it. So a name is never shortened again, whatever bracket it begins with, and
two units of one name are the same or they are its two forms. This is what
comparing names when arguments are accepted rests on.
-/
import TemplateArgs.Proofs.Canonical

set_option autoImplicit false

namespace TemplateArgs.NameUnit

variable {u v s s' r r' : List Char}

/-- Whether `u` is bare and `v` is the same text between brackets. -/
def AreForms (u v : List Char) : Prop :=
  (∀ c ∈ u, isNameChar c = true) ∧ v = '[' :: (u ++ [']'])

/-- The two forms of a name are called the same. -/
theorem AreForms.name_eq (h : AreForms u v) : name u = name v := by
  obtain ⟨hu, rfl⟩ := h
  rw [name_bracketed, name_eq_self (closing_not_mem_of_bare hu)]

/-- Nothing else is: the name and the form make the unit. -/
theorem eq_or_areForms (hu : IsNameUnit u) (hv : IsNameUnit v) (h : name u = name v) :
    u = v ∨ AreForms u v ∨ AreForms v u := by
  obtain ⟨n, form, -, hn, rfl⟩ := NameForm.exists_of_isNameUnit hu
  obtain ⟨m, form', -, hm, rfl⟩ := NameForm.exists_of_isNameUnit hv
  rw [NameForm.name_chars hn, NameForm.name_chars hm] at h
  obtain rfl := String.toList_injective h
  cases form with
  | bare =>
    cases form' with
    | bare => exact .inl rfl
    | bracketed => exact .inr (.inl ⟨hn, rfl⟩)
  | bracketed =>
    cases form' with
    | bare => exact .inr (.inr ⟨hm, rfl⟩)
    | bracketed => exact .inl rfl

@[simp] theorem nameOf_ofList (u : List Char) :
    nameOf (String.ofList u) = String.ofList (name u) := by
  rw [nameOf, String.toList_ofList]

/-- What is called by a name already keeps it. -/
theorem nameOf_eq_self {name : String} (hname : IsName name) : nameOf name = name := by
  rw [nameOf, name_eq_self hname.2, String.ofList_toList]

/-- **A name has two spellings at most.** Two units that are cut off a text stand
for one name exactly if they are the same or one is bare and the other is the same
text between brackets. What a unit stands for has a character and no `]`, and it
stands for itself. -/
theorem nameOf_eq_nameOf_iff (hu : split? s = some (u, r)) (hv : split? s' = some (v, r')) :
    (nameOf (String.ofList u) = nameOf (String.ofList v) ↔
      u = v ∨ AreForms u v ∨ AreForms v u) ∧
    IsName (nameOf (String.ofList u)) ∧
    nameOf (nameOf (String.ofList u)) = nameOf (String.ofList u) := by
  obtain ⟨-, hunit, -⟩ := split?_iff.1 hu
  obtain ⟨-, hunit', -⟩ := split?_iff.1 hv
  have hname : IsName (nameOf (String.ofList u)) := by
    rw [nameOf_ofList]
    exact isName_of_isNameUnit hunit
  refine ⟨?_, hname, nameOf_eq_self hname⟩
  rw [nameOf_ofList, nameOf_ofList]
  constructor
  · intro h
    exact eq_or_areForms hunit hunit' (String.ofList_injective h)
  · rintro (rfl | h | h)
    · rfl
    · rw [h.name_eq]
    · rw [h.name_eq]

/-- A bare unit, the same in brackets, and a name that begins with a bracket. -/
theorem nameOf_eq_nameOf_iff_brackets :
    split? ['a', '='] = some (['a'], ['=']) ∧
    split? ['[', 'a', ']'] = some (['[', 'a', ']'], []) ∧
    split? ['[', '[', 'a', ']', ']'] = some (['[', '[', 'a', ']'], [']']) ∧
    nameOf "[a]" = nameOf "a" ∧ nameOf "[[a]" ≠ nameOf "[a]" ∧
    IsName (nameOf "[[a]") ∧ nameOf (nameOf "[[a]") = nameOf "[[a]" := by
  have hbare : split? ['a', '='] = some (['a'], ['=']) := by decide
  have hform : split? ['[', 'a', ']'] = some (['[', 'a', ']'], []) := by decide
  have hopen : split? ['[', '[', 'a', ']', ']'] = some (['[', '[', 'a', ']'], [']']) := by decide
  obtain ⟨hsame, -⟩ := nameOf_eq_nameOf_iff hbare hform
  obtain ⟨hother, hname, hagain⟩ := nameOf_eq_nameOf_iff hopen hform
  have hforms : AreForms ['a'] ['[', 'a', ']'] := ⟨List.forall_mem_singleton.2 rfl, rfl⟩
  refine ⟨hbare, hform, hopen, (hsame.2 (.inr (.inl hforms))).symm, fun h => ?_, hname, hagain⟩
  rcases hother.1 h with heq | ⟨-, heq⟩ | ⟨-, heq⟩
  · exact absurd heq (by decide)
  · exact absurd heq (by decide)
  · exact absurd heq (by decide)

end TemplateArgs.NameUnit
