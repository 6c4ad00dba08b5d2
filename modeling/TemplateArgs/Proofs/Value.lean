/-
The value of an operand, and how a value is written.

What `Value.ofOperand` decides by looking at a text is said here in terms of the
language: an integer is told by `isInteger` (`isInteger_iff`), and a text that
does not open with a quote is never unquoted. A literal is written with few
escapes, and decoding undoes each of them on its own, whatever follows
(`Escape.decode_escaped`). So every value that can be written is the value of the
operand that it is written as (`ofOperand_chars`).
-/
import TemplateArgs.Proofs.Operand
import TemplateArgs.Printer

set_option autoImplicit false

namespace TemplateArgs

variable {s t : List Char} {c : Char}

/-! ## Escapes -/

namespace Escape

@[simp] theorem decode_cons (hc : c ≠ '\\') : decode (c :: s) = c :: decode s := by
  rw [decode]
  · rintro rfl
    exact absurd rfl hc
  · rintro d r rfl
    exact absurd rfl hc

/-- An escape stands for one character, and decoding goes on behind it. -/
theorem decode_backslash : decode ('\\' :: c :: s) = (resolve c s).1 :: decode (resolve c s).2 := by
  rw [decode]

/-- A character that means nothing special stands for itself. -/
theorem resolve_of_other (hcontrol : control? c = none) (hx : c ≠ 'x')
    (hoctal : octalDigit? c = none) : resolve c s = (c, s) := by
  simp only [resolve, hcontrol, if_neg hx, hoctal]

/-- However a character is escaped between quotes, it is what is read. -/
@[simp] theorem decode_escaped (q : Quote) (c : Char) (s : List Char) :
    decode (q.escaped c ++ s) = c :: decode s := by
  rw [Quote.escaped]
  split
  -- Neither kind of quote, nor the backslash, is the name of an escape.
  · next hc =>
    have hresolve : resolve c s = (c, s) := by
      rcases hc with rfl | rfl
      · exact resolve_of_other rfl (by decide) rfl
      · cases q <;> exact resolve_of_other rfl (by decide) rfl
    rw [List.cons_append, List.singleton_append, decode_backslash, hresolve]
  · next hc =>
    split
    · next hnewline =>
      rw [List.cons_append, List.singleton_append, decode_backslash, hnewline]
      rfl
    · exact decode_cons (not_or.1 hc).1

@[simp] theorem decode_flatMap_escaped (q : Quote) (s : List Char) :
    decode (s.flatMap q.escaped) = s := by
  induction s with
  | nil => rw [List.flatMap_nil, decode]
  | cons c s ih => rw [List.flatMap_cons, decode_escaped, ih]

end Escape

namespace Value

/-! ## What an operand is -/

theorem isDigit_iff : c.isDigit = true ↔ '0' ≤ c ∧ c ≤ '9' := Char.isDigit_iff_toNat

theorem isInteger_iff : isInteger t = true ↔ IsInteger t := by
  have hdigits : ∀ ds : List Char, (!ds.isEmpty && ds.all Char.isDigit) = true ↔
      ds ≠ [] ∧ ∀ c ∈ ds, '0' ≤ c ∧ c ≤ '9' := by
    intro ds
    rw [Bool.and_eq_true, List.all_eq_true]
    simp only [isDigit_iff, Bool.not_eq_true', List.isEmpty_eq_false_iff]
  unfold isInteger
  split
  · next s =>
    rw [hdigits]
    constructor
    · rintro ⟨hne, hall⟩
      exact ⟨s, hne, hall, .inr rfl⟩
    · rintro ⟨ds, hne, hall, rfl | h⟩
      -- The sign is no digit, so it is not the first of a run of them.
      · exact absurd (hall '-' (by simp)) (by decide)
      · obtain ⟨-, rfl⟩ := List.cons.inj h
        exact ⟨hne, hall⟩
  · next hminus =>
    rw [hdigits]
    constructor
    · rintro ⟨hne, hall⟩
      exact ⟨_, hne, hall, .inl rfl⟩
    · rintro ⟨ds, hne, hall, rfl | rfl⟩
      · exact ⟨hne, hall⟩
      · exact absurd rfl (hminus ds)

/-- What stands between two quotes is decoded. -/
theorem ofOperand_quoted {q : Char} {m : List Char} (hq : isQuote q = true) :
    ofOperand (q :: (m ++ [q])) = literal (String.ofList (Escape.decode m)) := by
  simp only [ofOperand, unquote?_eq_some_iff.2 ⟨q, hq, rfl⟩]

/-- Without a quote in front a text is taken as it stands. -/
theorem ofOperand_of_noneInFront (ht : NoneInFront isQuote t) : ofOperand t =
    if isInteger t then literal (String.ofList t) else path (String.ofList t) := by
  have hnone : unquote? t = none := by
    cases h : unquote? t with
    | none => rfl
    | some m =>
      obtain ⟨q, hq, rfl⟩ := unquote?_eq_some_iff.1 h
      rw [noneInFront_cons.1 ht] at hq
      exact absurd hq (by decide)
  simp only [ofOperand, hnone]

theorem ofOperand_of_isSpecial (ht : IsSpecial t) : ofOperand t = path (String.ofList t) := by
  obtain ⟨n, -, -, rfl⟩ := ht
  rw [ofOperand_of_noneInFront (noneInFront_cons.2 (by decide)), if_neg]
  rw [isInteger_iff]
  rintro ⟨ds, -, hall, h | h⟩
  · exact absurd (hall '@' (h ▸ List.mem_cons_self)) (by decide)
  · exact absurd (List.cons.inj h).1 (by decide)

/-- An integer is known as it stands. Neither a digit nor a sign is a quote. -/
theorem ofOperand_of_isInteger (ht : IsInteger t) : ofOperand t = literal (String.ofList t) := by
  have hfront : NoneInFront isQuote t := by
    obtain ⟨ds, hne, hall, rfl | rfl⟩ := ht
    · obtain ⟨d, ds, rfl⟩ := List.exists_cons_of_ne_nil hne
      refine noneInFront_cons.2 (Bool.eq_false_iff.2 fun hd => ?_)
      have hdigit := hall d List.mem_cons_self
      rcases Quoted.isQuote_iff.1 hd with rfl | rfl <;> exact absurd hdigit (by decide)
    · exact noneInFront_cons.2 (by decide)
  rw [ofOperand_of_noneInFront hfront, if_pos (isInteger_iff.2 ht)]

theorem ofOperand_of_isPath (ht : IsPath t) (hint : ¬IsInteger t) :
    ofOperand t = path (String.ofList t) := by
  obtain ⟨c, v, rfl, hc⟩ := Path.exists_cons_of_isPath ht
  rw [ofOperand_of_noneInFront (noneInFront_cons.2 (Operand.not_isQuote_of_opens hc)), if_neg]
  rwa [isInteger_iff]

/-! ## Values that are written -/

@[simp] theorem isQuote_char (q : Quote) : isQuote q.char = true := by
  cases q <;> decide

theorem isQuotedPiece_escaped (q : Quote) (c : Char) : IsQuotedPiece q.char (q.escaped c) := by
  rw [Quote.escaped]
  split
  · next hc =>
    refine .inr ⟨c, ?_, rfl⟩
    rintro rfl
    rcases hc with hc | hc
    · exact absurd hc (by decide)
    · cases q <;> exact absurd hc (by decide)
  · next hc =>
    obtain ⟨hbackslash, hquote⟩ := not_or.1 hc
    split
    · exact .inr ⟨'n', by decide, rfl⟩
    · next hnewline => exact .inl ⟨c, hquote, hbackslash, hnewline, rfl⟩

/-- What a value is written as is an operand. -/
theorem isOperand_chars {v : Value} (hv : v.IsWritable) (q : Quote) : IsOperand (v.chars q) := by
  cases v with
  | path t =>
    rcases hv with hv | ⟨hv, -⟩
    · exact .inr (.inr hv)
    · exact .inl hv
  | literal t =>
    refine .inr (.inl ⟨q.char, t.toList.map q.escaped, ?_, ?_, ?_⟩)
    · exact Quoted.isQuote_iff.1 (isQuote_char q)
    · intro p hp
      obtain ⟨c, -, rfl⟩ := List.mem_map.1 hp
      exact isQuotedPiece_escaped q c
    · rw [chars, List.flatMap_def]

/-- A value that can be written is read back, between whichever quotes. -/
theorem ofOperand_chars {v : Value} (hv : v.IsWritable) (q : Quote) :
    ofOperand (v.chars q) = v := by
  cases v with
  | path t =>
    have ht : ofOperand t.toList = path (String.ofList t.toList) := by
      rcases hv with hv | ⟨hv, hint⟩
      · exact ofOperand_of_isSpecial hv
      · exact ofOperand_of_isPath hv hint
    rw [chars, ht, String.ofList_toList]
  | literal t =>
    rw [chars, ofOperand_quoted (isQuote_char q), Escape.decode_flatMap_escaped,
      String.ofList_toList]

end Value

end TemplateArgs
