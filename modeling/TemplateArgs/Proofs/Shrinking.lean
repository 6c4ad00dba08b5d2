/-
What unescaping does to the size of a text.

A piece that is no plain character is a backslash and at least one character more,
and it stands for a single one. That may be the character behind the backslash, or
else it is one of the first 256 (`Piece.value_eq_or_lt`), so the bytes that spell
the piece are enough for it: two at least, against two at most.

The rest is induction over the pieces of a text. A text with a backslash that has
something behind it loses a character there and gains none anywhere; a text
without is spelled with plain characters, and perhaps a last backslash, and is left as it
is (`shrinks_or_keeps`). A result built up in a buffer with as many bytes as the
text has never outgrows it, and beyond the first 256 characters it has none that the text has not.
-/
import Mathlib
import TemplateArgs.Proofs.LiteralEscapes

set_option autoImplicit false

namespace TemplateArgs

namespace Escape

variable {c : Char} {s ds : List Char} {p : Piece} {ps : List Piece}

/-! ## Bytes -/

/-- A byte is enough for ASCII, and two are for twice as many characters and more. -/
theorem utf8Size_le_two (hc : c.toNat < 256) : c.utf8Size ≤ 2 := by
  by_cases hascii : c.val ≤ 127
  · rw [Char.utf8Size_eq_one_iff.2 hascii]
    omega
  · have hval : c.val ≤ 2047 := by
      rw [UInt32.le_iff_toNat_le, Char.toNat_val]
      exact Nat.le_trans (Nat.le_of_lt hc) (by decide)
    exact Nat.le_of_eq (Char.utf8Size_eq_two_iff.2 ⟨UInt32.not_le.1 hascii, hval⟩)

/-! ## The character of an escape -/

/-- Digits spell a number that is smaller than the next power of the radix. -/
theorem numeral_lt {radix : Nat} (hds : ∀ d ∈ ds, digitValue d < radix) :
    numeral radix ds < radix ^ ds.length := by
  induction ds with
  | nil => exact Nat.one_pos
  | cons d ds ih =>
    obtain ⟨hd, hds⟩ := List.forall_mem_cons.1 hds
    have hlt := ih hds
    have hle : (digitValue d + 1) * radix ^ ds.length ≤ radix * radix ^ ds.length :=
      Nat.mul_le_mul_right _ hd
    rw [Nat.add_mul, Nat.one_mul] at hle
    rw [numeral_cons, List.length_cons, Nat.pow_succ']
    omega

theorem numeral_hex_lt (hlen : ds.length = 1 ∨ ds.length = 2) (hds : ∀ d ∈ ds, d ∈ hexDigits) :
    numeral 16 ds < 256 := by
  have hall : hexDigits.all (digitValue · < 16) = true := by decide
  have hlt : numeral 16 ds < 16 ^ ds.length :=
    numeral_lt fun d hd => of_decide_eq_true (List.all_eq_true.1 hall d (hds d hd))
  have hpow : 16 ^ ds.length ≤ 16 ^ 2 := Nat.pow_le_pow_right (by decide) (by omega)
  exact Nat.lt_of_lt_of_le hlt hpow

/-- An escape stands for the character behind the backslash, or for one that has the
number of a byte. -/
theorem Piece.value_eq_or_lt (hp : p.IsValid) (htext : p.text = '\\' :: c :: ds) :
    p.value = c ∨ p.value.toNat < 256 := by
  cases p with
  | plain d => exact absurd htext (by simp [text])
  | dangling => exact absurd htext (by simp [text])
  | control letter value =>
    have hall : controls.all (·.2.toNat < 256) = true := by decide
    exact .inr (of_decide_eq_true (List.all_eq_true.1 hall _ hp))
  | hex ds =>
    have hlt := numeral_hex_lt hp.1 hp.2
    right
    rwa [value, Char.toNat_ofNat, if_pos (.inl (by omega))]
  | octal ds =>
    have hlt : numeral 8 ds % 256 < 256 := Nat.mod_lt _ (by decide)
    right
    rwa [value, Char.toNat_ofNat, if_pos (.inl (by omega))]
  | bareX =>
    simp only [text, List.cons.injEq] at htext
    exact .inl htext.2.1
  | escaped d =>
    simp only [text, List.cons.injEq] at htext
    exact .inl htext.2.1

/-! ## One piece -/

/-- The text of a piece has room for the character that it stands for. -/
theorem Piece.utf8Size_value_le (hp : p.IsValid) : p.value.utf8Size ≤ String.utf8Len p.text := by
  cases p.shape hp with
  | plain =>
    rw [text, String.utf8Len_cons]
    exact Nat.le_add_left _ _
  | dangling => exact Nat.le_refl _
  | @escape _ c ds htext =>
    have hpos := c.utf8Size_pos
    have hbackslash : '\\'.utf8Size = 1 := rfl
    rw [htext, String.utf8Len_cons, String.utf8Len_cons, hbackslash]
    rcases p.value_eq_or_lt hp htext with hvalue | hvalue
    · rw [hvalue]
      omega
    · have hle := utf8Size_le_two hvalue
      omega

/-- A character that is in no byte is not made up. -/
theorem Piece.value_mem_text (hp : p.IsValid) (hvalue : 255 < p.value.toNat) :
    p.value ∈ p.text := by
  cases p.shape hp with
  | plain => exact List.mem_singleton.2 rfl
  | dangling => exact List.mem_singleton.2 rfl
  | escape htext =>
    rcases p.value_eq_or_lt hp htext with h | h
    · rw [htext, h]
      simp
    · omega

/-! ## A whole text -/

/-- Whether a text has a backslash with a character behind it. -/
def HasEscape (s : List Char) : Prop := '\\' ∈ s.dropLast

instance (s : List Char) : Decidable (HasEscape s) :=
  inferInstanceAs (Decidable ('\\' ∈ s.dropLast))

@[simp] theorem hasEscape_backslash : HasEscape ('\\' :: c :: s) := by
  rw [HasEscape, List.dropLast_cons_of_ne_nil (List.cons_ne_nil c s)]
  exact List.mem_cons_self

theorem hasEscape_cons (hc : c ≠ '\\') : HasEscape (c :: s) ↔ HasEscape s := by
  cases s with
  | nil => simp [HasEscape]
  | cons d s => simp [HasEscape, hc.symm]

theorem AreComplete.isValid (hps : AreComplete ps) : ∀ p ∈ ps, p.IsValid := by
  induction ps with
  | nil => exact List.forall_mem_nil _
  | cons p ps ih => exact List.forall_mem_cons.2 ⟨hps.1, ih hps.2.2⟩

theorem length_le_length_spelling (ps : List Piece) : ps.length ≤ (spelling ps).length := by
  induction ps with
  | nil => exact Nat.zero_le _
  | cons p ps ih =>
    have hpos := List.length_pos_iff.2 p.text_ne_nil
    rw [spelling_cons, List.length_append, List.length_cons]
    omega

/-- A text with an escape has fewer pieces than characters, and one without is what
its pieces stand for. -/
theorem shrinks_or_keeps (hps : AreComplete ps) :
    HasEscape (spelling ps) ∧ ps.length < (spelling ps).length ∨
    ¬HasEscape (spelling ps) ∧ ps.map Piece.value = spelling ps := by
  induction ps with
  | nil => exact .inr ⟨List.not_mem_nil, rfl⟩
  | cons p ps ih =>
    obtain ⟨hp, hend, hps⟩ := hps
    have hle := length_le_length_spelling ps
    rw [spelling_cons]
    cases p.shape hp with
    | @plain c hc =>
      -- Whether there is an escape is up to the pieces behind.
      rcases ih hps with ⟨hescape, hlt⟩ | ⟨hescape, hkeep⟩
      · exact .inl ⟨(hasEscape_cons hc).2 hescape, Nat.succ_lt_succ hlt⟩
      · exact .inr ⟨mt (hasEscape_cons hc).1 hescape, congrArg (c :: ·) hkeep⟩
    | dangling =>
      have hnil : spelling ps = [] := hend
      rw [hnil] at hle ⊢
      obtain rfl := List.length_eq_zero_iff.1 (Nat.le_zero.1 hle)
      exact .inr ⟨List.not_mem_nil, rfl⟩
    | escape htext =>
      refine .inl ?_
      rw [htext]
      refine ⟨hasEscape_backslash, ?_⟩
      simp only [List.length_cons, List.length_append]
      omega

theorem utf8Len_map_value_le (hps : ∀ p ∈ ps, p.IsValid) :
    String.utf8Len (ps.map Piece.value) ≤ String.utf8Len (spelling ps) := by
  induction ps with
  | nil => exact Nat.le_refl _
  | cons p ps ih =>
    obtain ⟨hp, hps⟩ := List.forall_mem_cons.1 hps
    have hle := p.utf8Size_value_le hp
    have hrest := ih hps
    rw [List.map_cons, String.utf8Len_cons, spelling_cons, String.utf8Len_append]
    omega

theorem mem_spelling_of_mem_map_value (hps : ∀ p ∈ ps, p.IsValid)
    (hc : c ∈ ps.map Piece.value) (hlarge : 255 < c.toNat) : c ∈ spelling ps := by
  obtain ⟨p, hmem, rfl⟩ := List.mem_map.1 hc
  exact List.mem_flatMap.2 ⟨p, hmem, p.value_mem_text (hps p hmem) hlarge⟩

end Escape

open Escape in
/-- **Unescaping only shrinks.** A text is left as it is exactly if no backslash in it
has a character behind it, and is shorter otherwise. It never takes more bytes than
before, and a character that has not the number of a byte was there before. -/
theorem unescape_shrinks (text : String) :
    (unescape text = text ↔ ¬HasEscape text.toList) ∧
    (HasEscape text.toList → (unescape text).length < text.length) ∧
    (unescape text).utf8ByteSize ≤ text.utf8ByteSize ∧
    ∀ c ∈ (unescape text).toList, 255 < c.toNat → c ∈ text.toList := by
  obtain ⟨ps, hps, hspell⟩ := exists_areComplete text.toList
  obtain rfl : text = String.ofList (spelling ps) := by rw [hspell, String.ofList_toList]
  have hvalue : unescape (String.ofList (spelling ps)) = String.ofList (ps.map Piece.value) := by
    rw [unescape, String.toList_ofList, decode_spelling hps]
  have hshorter : HasEscape (spelling ps) →
      (ps.map Piece.value).length < (spelling ps).length := by
    intro hescape
    rcases shrinks_or_keeps hps with ⟨-, hlt⟩ | ⟨hnone, -⟩
    · rwa [List.length_map]
    · exact absurd hescape hnone
  rw [hvalue, String.toList_ofList, String.toList_ofList, String.length_ofList,
    String.length_ofList, String.utf8ByteSize_ofList, String.utf8ByteSize_ofList]
  refine ⟨?_, hshorter, utf8Len_map_value_le hps.isValid,
    fun c hc hlarge => mem_spelling_of_mem_map_value hps.isValid hc hlarge⟩
  constructor
  · intro hsame hescape
    have hlt := hshorter hescape
    rw [String.ofList_injective hsame] at hlt
    exact absurd hlt (Nat.lt_irrefl _)
  · intro hnone
    rcases shrinks_or_keeps hps with ⟨hescape, -⟩ | ⟨-, hkeep⟩
    · exact absurd hescape hnone
    · rw [hkeep]

open Escape in
/-- A number of two digits, an escaped character of three bytes and a last backslash,
and what is left when there is nothing more to escape. -/
theorem unescape_shrinks_euro :
    HasEscape "\\xff\\€\\".toList ∧
    (unescape "\\xff\\€\\").length < "\\xff\\€\\".length ∧
    '€' ∈ (unescape "\\xff\\€\\").toList ∧ '€' ∈ "\\xff\\€\\".toList ∧
    ¬HasEscape "ÿ€\\".toList ∧ unescape "ÿ€\\" = "ÿ€\\" := by
  obtain ⟨-, hshorter, -, hthere⟩ := unescape_shrinks "\\xff\\€\\"
  have hescape : HasEscape "\\xff\\€\\".toList := by decide +kernel
  have hmem : '€' ∈ (unescape "\\xff\\€\\").toList := by decide +kernel
  have hnone : ¬HasEscape "ÿ€\\".toList := by decide +kernel
  exact ⟨hescape, hshorter hescape, hmem, hthere '€' hmem (by decide), hnone,
    (unescape_shrinks "ÿ€\\").1.2 hnone⟩

end TemplateArgs
