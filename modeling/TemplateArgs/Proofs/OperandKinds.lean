/-
The kind of an operand, by three different roads.

The language has three kinds of operands, the scanner tries them one after the
other, and `Value.ofOperand` is told nothing of either: it looks at the text of the
operand alone. Here the three are brought together. Words of different kinds open
with different characters, so no text has two kinds in front (`Kind.eq_of_inFront`)
and the scanner may try them in any order (`findSome?_split?`). And what a word
means is what is to be expected of its kind (`Kind.means_ofOperand`): only a quoted
literal is unquoted and unescaped, whatever quotes a path may hold between brackets,
and of the others only a path can be an integer.

What a run recognises was found somewhere in the text, so all of this holds of it.
-/
import TemplateArgs.Proofs.Run
import TemplateArgs.Proofs.Value

set_option autoImplicit false

namespace TemplateArgs

variable {s t t' v r : List Char} {c : Char} {x : Value}

/-! ## Three kinds -/

/-- The kinds of operands. -/
inductive Operand.Kind where
  | path
  | quoted
  | special
deriving DecidableEq, Repr

namespace Operand.Kind

variable {k k' : Kind}

/-- The words of a kind. -/
def Word : Kind → List Char → Prop
  | path => IsPath
  | quoted => IsQuoted
  | special => IsSpecial

/-- The operand of a kind at the front of a text, and what follows it. -/
def split? : Kind → List Char → Option (List Char × List Char)
  | path => Path.split?
  | quoted => Quoted.split?
  | special => Special.split?

/-- Whether a character can open a word of a kind. -/
def opens : Kind → Char → Bool
  | path => Path.opens
  | quoted => isQuote
  | special => (· == '@')

/-! ## What is in front -/

theorem exists_cons_of_word (ht : k.Word t) : ∃ c v, t = c :: v ∧ k.opens c = true := by
  cases k with
  | path => exact Path.exists_cons_of_isPath ht
  | quoted => exact Quoted.exists_cons_of_isQuoted ht
  | special =>
    obtain ⟨n, -, -, rfl⟩ := ht
    exact ⟨'@', n, rfl, rfl⟩

/-- The kind of the words that a character opens, if it opens any. -/
def openedBy (c : Char) : Kind :=
  if isQuote c then quoted else if c = '@' then special else path

/-- The first character of a word tells its kind. -/
theorem eq_openedBy (hc : k.opens c = true) : k = openedBy c := by
  cases k with
  | path =>
    have hquote : ¬isQuote c = true := Bool.eq_false_iff.1 (not_isQuote_of_opens hc)
    have hat : c ≠ '@' := by
      rintro rfl
      exact absurd hc (by decide)
    rw [openedBy, if_neg hquote, if_neg hat]
  | quoted => exact (if_pos hc).symm
  | special =>
    obtain rfl := beq_iff_eq.1 hc
    decide

/-- No text has words of two kinds in front. -/
theorem eq_of_inFront (ht : k.Word t) (hts : t <+: s) (ht' : k'.Word t') (hts' : t' <+: s) :
    k = k' := by
  obtain ⟨c, v, rfl, hc⟩ := exists_cons_of_word ht
  obtain ⟨c', v', rfl, hc'⟩ := exists_cons_of_word ht'
  obtain ⟨u, rfl⟩ := hts
  obtain ⟨u', hu'⟩ := hts'
  -- Both words begin where the text does.
  obtain ⟨rfl, -⟩ := List.cons.inj hu'
  rw [eq_openedBy hc, eq_openedBy hc']

theorem isCut (k : Kind) : IsCut k.Word k.split? := by
  cases k with
  | path => exact Path.isCut
  | quoted => exact Quoted.isCut
  | special => exact Special.isCut

/-- An operand is cut off as a word of its kind. -/
theorem operand_split?_iff {tr : List Char × List Char} :
    Operand.split? s = some tr ↔ ∃ k : Kind, k.split? s = some tr := by
  rw [split?_eq_some_iff]
  constructor
  · rintro (h | h | h)
    · exact ⟨path, h⟩
    · exact ⟨quoted, h⟩
    · exact ⟨special, h⟩
  · rintro ⟨k, h⟩
    cases k with
    | path => exact .inl h
    | quoted => exact .inr (.inl h)
    | special => exact .inr (.inr h)

/-- It is of no account in which order the kinds are tried, or whether one is tried
again. -/
theorem findSome?_split? {ks : List Kind} (hks : ∀ k, k ∈ ks) (s : List Char) :
    ks.findSome? (·.split? s) = Operand.split? s := by
  cases h : Operand.split? s with
  | none =>
    rw [List.findSome?_eq_none_iff]
    intro k _
    by_contra hk
    obtain ⟨tr, hk⟩ := Option.ne_none_iff_exists'.1 hk
    exact absurd (h.symm.trans (operand_split?_iff.2 ⟨k, hk⟩)) (by simp)
  | some tr =>
    -- Whichever kind is found first, it is the one that is there.
    obtain ⟨k, hk⟩ := operand_split?_iff.1 h
    cases hfirst : ks.findSome? (·.split? s) with
    | none =>
      rw [List.findSome?_eq_none_iff] at hfirst
      exact absurd (hk.symm.trans (hfirst k (hks k))) (by simp)
    | some tr' =>
      obtain ⟨k', -, hk'⟩ := List.exists_of_findSome?_eq_some hfirst
      exact (operand_split?_iff.2 ⟨k', hk'⟩).symm.trans h

/-! ## What a word means -/

/-- What the words of each kind mean. A quoted literal means what is between its
quotes, unescaped; a path is an integer, known as it stands, or has yet to be looked
up; a special variable has yet to be looked up. -/
inductive Means : Kind → List Char → Value → Prop
  | integer {v : List Char} : IsInteger v → Means path v (.literal (String.ofList v))
  | path {v : List Char} : ¬IsInteger v → Means path v (.path (String.ofList v))
  | quoted {q : Char} {m : List Char} : isQuote q = true →
      Means quoted (q :: (m ++ [q])) (.literal (unescape (String.ofList m)))
  | special {v : List Char} : Means special v (.path (String.ofList v))

/-- The text of a word tells its kind well enough. -/
theorem means_ofOperand (hv : k.Word v) : k.Means v (Value.ofOperand v) := by
  cases k with
  | path =>
    by_cases hint : IsInteger v
    · rw [Value.ofOperand_of_isInteger hint]
      exact .integer hint
    · rw [Value.ofOperand_of_isPath hv hint]
      exact .path hint
  | quoted =>
    obtain ⟨q, ps, hq, -, rfl⟩ := hv
    have hunescape : Escape.decode ps.flatten =
        Escape.decode (String.ofList ps.flatten).toList := by rw [String.toList_ofList]
    rw [Value.ofOperand_quoted (Quoted.isQuote_iff.2 hq), hunescape]
    exact .quoted (Quoted.isQuote_iff.2 hq)
  | special =>
    rw [Value.ofOperand_of_isSpecial hv]
    exact .special

theorem Means.ne_quoted_of_isPath (h : k.Means v x) (hx : x.isPath = true) : k ≠ .quoted := by
  cases h with
  | quoted => exact absurd hx (by simp [Value.isPath])
  | _ => exact Kind.noConfusion

/-- Whatever stands without quotes is taken as it stands. -/
theorem Means.text_of_ne_quoted (h : k.Means v x) (hk : k ≠ .quoted) :
    x.text = String.ofList v := by
  cases h with
  | quoted => exact absurd rfl hk
  | _ => rfl

end Operand.Kind

/-! ## Operands that a run recognises -/

open Argument in
/-- The operand of an argument was found somewhere in the text. -/
theorem Argument.exists_operand_of_mem_sequence {a : Argument} (ha : a ∈ (sequence s).1) :
    ∃ u r, u <:+ s ∧ Operand.split? u = some (a.value, r) := by
  generalize has : (sequence s).1 = as at ha
  induction as generalizing s with
  | nil => exact absurd ha List.not_mem_nil
  | cons b as ih =>
    obtain ⟨r, hsplit, hr⟩ := sequence_eq_cons_iff.1 (Prod.ext has rfl : sequence s = (b :: as, _))
    rcases List.mem_cons.1 ha with rfl | ha
    · rcases split?_eq_some_iff.1 hsplit with h | ⟨-, h⟩
      · obtain ⟨n, v, t, u, hn, hu, hv, rfl⟩ := named?_eq_some_iff.1 h
        -- It stands behind the name, the `=` and the blanks around it.
        refine ⟨skipBlanks u, r, ?_, hv⟩
        have ht : '=' :: u <:+ t := hu ▸ List.dropWhile_suffix isBlank
        have hs : t <:+ s := ⟨n, NameUnit.append_of_split? hn⟩
        exact (List.dropWhile_suffix isBlank).trans ((List.suffix_cons '=' u).trans (ht.trans hs))
      · obtain ⟨v, hv, rfl⟩ := positional?_eq_some_iff.1 h
        exact ⟨s, r, List.suffix_refl s, hv⟩
    · obtain ⟨u, r', hu, hv⟩ := ih (by rw [hr]) ha
      obtain ⟨t, hs, -, -⟩ := exists_spelled_of_split? hsplit
      have hrs : r <:+ s := ⟨t, hs.symm⟩
      exact ⟨u, r', hu.trans ((List.dropWhile_suffix isBlank).trans hrs), hv⟩

namespace ArgumentList

variable {policy : DuplicatePolicy} {input : String} {a : Argument}

theorem mem_sequence_of_mem_recognised (ha : a ∈ (run policy input).recognised) :
    a ∈ (Argument.sequence (trimBlanks input.toList)).1 := by
  obtain ⟨before, after, hsplit⟩ := List.append_of_mem ha
  obtain ⟨-, after', rest, hs⟩ := (ending_run policy input).allAccepted hsplit
  rw [hs]
  exact List.mem_append_right before List.mem_cons_self

/-- **A literal is never taken for a path.** At most one of the three kinds is in
front of a text, so they may be tried in any order. The operand of every argument
that is recognised was found in the text as a word of some kind, can be found as a
word of no other, and means what this kind says: a quoted literal is never a path,
and nothing but a quoted literal is unescaped. -/
theorem means_of_recognised :
    (∀ (s : List Char) (k k' : Operand.Kind) t t', k.Word t → t <+: s → k'.Word t' → t' <+: s →
      k = k') ∧
    (∀ (s : List Char) (k : Operand.Kind),
      (∃ t r, k.split? s = some (t, r)) ↔ ∃ t, k.Word t ∧ t <+: s) ∧
    (∀ (s : List Char) (ks : List Operand.Kind), (∀ k, k ∈ ks) →
      ks.findSome? (·.split? s) = Operand.split? s) ∧
    ∀ policy input, ∀ a ∈ (run policy input).recognised, ∃ k : Operand.Kind,
      (∃ u r, u <:+ trimBlanks input.toList ∧ Operand.split? u = some (a.value, r) ∧
        k.split? u = some (a.value, r)) ∧
      (∀ (k' : Operand.Kind) u r, k'.split? u = some (a.value, r) → k' = k) ∧
      k.Means a.value (Value.ofOperand a.value) ∧
      ((Value.ofOperand a.value).isPath = true → k ≠ .quoted) ∧
      (k ≠ .quoted → (Value.ofOperand a.value).text = String.ofList a.value) := by
  refine ⟨fun s k k' t t' ht hts ht' hts' => Operand.Kind.eq_of_inFront ht hts ht' hts',
    fun s k => k.isCut.exists_iff,
    fun s ks hks => Operand.Kind.findSome?_split? hks s, fun policy input a ha => ?_⟩
  obtain ⟨u, r, hu, hsplit⟩ :=
    Argument.exists_operand_of_mem_sequence (mem_sequence_of_mem_recognised ha)
  obtain ⟨k, hk⟩ := Operand.Kind.operand_split?_iff.1 hsplit
  have hword := (k.isCut.word hk).2
  have hmeans := Operand.Kind.means_ofOperand hword
  refine ⟨k, ⟨u, r, hu, hsplit, hk⟩, fun k' u' r' hk' => ?_, hmeans, hmeans.ne_quoted_of_isPath,
    hmeans.text_of_ne_quoted⟩
  -- Wherever else the same word may stand, it is in front of itself.
  have hword' := (k'.isCut.word hk').2
  exact Operand.Kind.eq_of_inFront hword' List.prefix_rfl hword List.prefix_rfl

/-- A quote between brackets opens nothing, and an escaped quote closes nothing. -/
theorem means_of_recognised_quotes :
    .positional ['[', 'i', 't', '\'', 's', ']'] ∈ (run .reject "[it's] n='it\\'s'").recognised ∧
    .named ['n'] ['\'', 'i', 't', '\\', '\'', 's', '\''] ∈
      (run .reject "[it's] n='it\\'s'").recognised ∧
    Operand.Kind.path.Means ['[', 'i', 't', '\'', 's', ']'] (.path "[it's]") ∧
    Operand.Kind.quoted.Means ['\'', 'i', 't', '\\', '\'', 's', '\''] (.literal "it's") := by
  have hpath : .positional ['[', 'i', 't', '\'', 's', ']'] ∈
      (run .reject "[it's] n='it\\'s'").recognised := by decide +kernel
  have hquoted : .named ['n'] ['\'', 'i', 't', '\\', '\'', 's', '\''] ∈
      (run .reject "[it's] n='it\\'s'").recognised := by decide +kernel
  obtain ⟨k, -, hk, hmeans, -⟩ := means_of_recognised.2.2.2 _ _ _ hpath
  obtain ⟨k', -, hk', hmeans', -⟩ := means_of_recognised.2.2.2 _ _ _ hquoted
  -- Each is known from a text that is nothing but the operand.
  obtain rfl := hk .path ['[', 'i', 't', '\'', 's', ']'] [] (by decide +kernel)
  obtain rfl := hk' .quoted ['\'', 'i', 't', '\\', '\'', 's', '\''] [] (by decide +kernel)
  have hit : Value.ofOperand ['\'', 'i', 't', '\\', '\'', 's', '\''] = .literal "it's" := by
    decide +kernel
  exact ⟨hpath, hquoted, hmeans, hit ▸ hmeans'⟩

end ArgumentList

end TemplateArgs
