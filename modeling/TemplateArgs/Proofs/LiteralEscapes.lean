/-
Where the scan for a literal and unescaping agree.

The scan takes a backslash and one character behind it, whatever that is. When the
text is unescaped, up to four characters are one piece. So the two go through the
content of a literal in different steps, and it is not plain that they are ever at
the same place again. They are, because what a piece takes beyond the first two of
its characters are digits, and to the scan a digit is a step of its own: it neither
closes nor escapes. A piece that begins where a step begins then ends where a step
ends (`exists_content_of_piece`), which is the invariant that carries
`exists_pieces_of_isContent` along the pieces of a text to the closing quote.

So no piece reaches over that quote. It is a piece by itself, and the pieces before
it are those of the content alone.
-/
import TemplateArgs.Proofs.ClosingQuote
import TemplateArgs.Proofs.Pieces

set_option autoImplicit false

namespace TemplateArgs

open Quoted (IsContent)

namespace Escape

variable {q c : Char} {m r s u ds : List Char} {p : Piece} {ps qs : List Piece}

/-! ## What a piece looks like -/

theorem isQuote_of_mem_hexDigits (hc : c ∈ hexDigits) : isQuote c = false := by
  have hall : hexDigits.all (!isQuote ·) = true := by decide
  simpa using List.all_eq_true.1 hall c hc

theorem ne_backslash_of_mem_hexDigits (hc : c ∈ hexDigits) : c ≠ '\\' := by
  rintro rfl
  exact absurd hc (by decide)

theorem mem_hexDigits_of_mem_octalDigits (hc : c ∈ octalDigits) : c ∈ hexDigits := by
  have hall : octalDigits.all (· ∈ hexDigits) = true := by decide
  exact of_decide_eq_true (List.all_eq_true.1 hall c hc)

/-- Behind a backslash there is one character, and digits or nothing behind that. -/
inductive Piece.Shape : Piece → Prop
  | plain {c : Char} : c ≠ '\\' → Shape (plain c)
  | dangling : Shape dangling
  | escape {p : Piece} {c : Char} {ds : List Char} : p.text = '\\' :: c :: ds →
      (∀ d ∈ ds, d ∈ hexDigits) → (isQuote c = true → p = .escaped c) → Shape p

theorem Piece.shape (hp : p.IsValid) : p.Shape := by
  cases p with
  | plain c => exact .plain hp
  | dangling => exact .dangling
  | control letter value =>
    refine .escape rfl (by simp) fun hquote => ?_
    have hall : controls.all (!isQuote ·.1) = true := by decide
    have h := List.all_eq_true.1 hall _ hp
    rw [hquote] at h
    exact absurd h (by decide)
  | hex ds => exact .escape rfl hp.2 fun hquote => absurd hquote (by decide)
  | bareX => exact .escape rfl (by simp) fun hquote => absurd hquote (by decide)
  | escaped c => exact .escape rfl (by simp) fun _ => rfl
  | octal ds =>
    obtain ⟨hlen, hds⟩ := hp
    obtain ⟨d, ds, rfl⟩ := List.exists_cons_of_length_pos (l := ds) (by omega)
    have hhex : ∀ c ∈ d :: ds, c ∈ hexDigits := fun c hc =>
      mem_hexDigits_of_mem_octalDigits (hds c hc)
    obtain ⟨hd, hds⟩ := List.forall_mem_cons.1 hhex
    refine .escape rfl hds fun hquote => ?_
    rw [isQuote_of_mem_hexDigits hd] at hquote
    exact absurd hquote (by decide)

/-- A piece is complete at the end of a text if it is complete before more. -/
theorem Piece.EndsBefore.of_append (hend : p.EndsBefore (m ++ u)) (hp : p ≠ dangling) :
    p.EndsBefore m := by
  cases m with
  | nil =>
    have hnone : ∀ digits : List Char, ∀ c ∈ ([] : List Char).head?, c ∉ digits := by simp
    cases p with
    | plain | control | escaped => trivial
    | hex => exact fun _ => hnone _
    | bareX => exact hnone _
    | octal => exact fun _ => hnone _
    | dangling => exact absurd rfl hp
  | cons d m =>
    cases p with
    | dangling => exact absurd rfl hp
    | _ => exact hend

/-! ## Complete pieces -/

theorem spelling_append_plain :
    spelling (ps ++ .plain c :: qs) = spelling ps ++ c :: spelling qs := by
  rw [spelling_append, spelling_cons]
  rfl

/-- Pieces that are complete before others are complete at the end of a text. -/
theorem AreComplete.left (h : AreComplete (ps ++ qs)) (hps : ∀ p ∈ ps, p ≠ .dangling) :
    AreComplete ps := by
  induction ps with
  | nil => trivial
  | cons p ps ih =>
    obtain ⟨hp, hrest⟩ := List.forall_mem_cons.1 hps
    obtain ⟨hvalid, hend, hcomplete⟩ := h
    have happend : p.EndsBefore (spelling ps ++ spelling qs) := by
      rw [← spelling_append]
      exact hend
    exact ⟨hvalid, happend.of_append hp, ih hcomplete hrest⟩

theorem AreComplete.right (h : AreComplete (ps ++ qs)) : AreComplete qs := by
  induction ps with
  | nil => exact h
  | cons p ps ih => exact ih h.2.2

/-! ## The pieces of content -/

/-- Whether a piece may stand before more text, and has no quote `q` in it but one that it
escapes. -/
def Piece.Escapes (q : Char) (p : Piece) : Prop := p ≠ dangling ∧ (q ∈ p.text → p = escaped q)

/-- Digits in content are steps of the scan, one each. -/
theorem exists_content_of_digits (hq : isQuote q = true) (hds : ∀ d ∈ ds, d ∈ hexDigits)
    (hm : IsContent q m) (h : ds ++ r = m ++ q :: s) :
    ∃ m', m = ds ++ m' ∧ r = m' ++ q :: s ∧ IsContent q m' := by
  induction ds generalizing m with
  | nil => exact ⟨m, rfl, h, hm⟩
  | cons d ds ih =>
    obtain ⟨hd, hrest⟩ := List.forall_mem_cons.1 hds
    cases hm with
    | nil =>
      obtain ⟨rfl, -⟩ := List.cons.inj h
      rw [isQuote_of_mem_hexDigits hd] at hq
      exact absurd hq (by decide)
    | plain _ _ _ hm =>
      obtain ⟨rfl, hsplit⟩ := List.cons.inj h
      obtain ⟨m', rfl, hr, hm'⟩ := ih hrest hm hsplit
      exact ⟨m', rfl, hr, hm'⟩
    | escaped =>
      obtain ⟨rfl, -⟩ := List.cons.inj h
      exact absurd rfl (ne_backslash_of_mem_hexDigits hd)

/-- The piece that content begins with ends within it, and content is left. It is one
step of the scan, and some more if it is a number. -/
theorem exists_content_of_piece (hq : isQuote q = true) (hm : IsContent q m) (hne : m ≠ [])
    (hp : p.IsValid) (hend : p.EndsBefore r) (h : p.text ++ r = m ++ q :: s) :
    ∃ m', m = p.text ++ m' ∧ r = m' ++ q :: s ∧ IsContent q m' ∧ p.Escapes q := by
  obtain ⟨hqesc, -⟩ := Quoted.ne_of_isQuote hq
  cases p.shape hp with
  | @plain c hc =>
    cases hm with
    | nil => exact absurd rfl hne
    | @plain d m hcq _ _ hm =>
      obtain ⟨rfl, hr⟩ := List.cons.inj h
      refine ⟨m, rfl, hr, hm, by simp, fun hmem => ?_⟩
      exact absurd (List.mem_singleton.1 hmem).symm hcq
    | escaped => exact absurd (List.cons.inj h).1 hc
  | dangling =>
    obtain rfl : r = [] := hend
    have hlen := congrArg List.length h
    have hpos := List.length_pos_iff.2 hne
    simp [Piece.text] at hlen
    omega
  | @escape _ c ds htext hds hescaped =>
    rw [htext] at h ⊢
    cases hm with
    | nil => exact absurd rfl hne
    | plain _ hesc => exact absurd (List.cons.inj h).1.symm hesc
    | @escaped d m _ hm =>
      simp only [List.cons_append, List.cons.injEq, true_and] at h
      obtain ⟨rfl, hsplit⟩ := h
      obtain ⟨m', rfl, hr, hm'⟩ := exists_content_of_digits hq hds hm hsplit
      refine ⟨m', rfl, hr, hm', ?_, fun hmem => ?_⟩
      · rintro rfl
        exact absurd htext (by simp [Piece.text])
      · rw [htext, List.mem_cons, List.mem_cons] at hmem
        rcases hmem with hmem | rfl | hmem
        · exact absurd hmem hqesc
        · exact hescaped hq
        · rw [isQuote_of_mem_hexDigits (hds q hmem)] at hq
          exact absurd hq (by decide)

/-- Whatever stands behind the closing quote, the quote is a piece and the content is
made of the pieces before it. -/
theorem exists_pieces_of_isContent (hq : isQuote q = true) (hm : IsContent q m)
    (hps : AreComplete ps) (h : spelling ps = m ++ q :: s) :
    ∃ us vs, ps = us ++ .plain q :: vs ∧ spelling us = m ∧ spelling vs = s ∧
      ∀ p ∈ us, p.Escapes q := by
  induction ps generalizing m with
  | nil => exact absurd h.symm (by simp [spelling])
  | cons p ps ih =>
    obtain ⟨hp, hend, hrest⟩ := hps
    rw [spelling_cons] at h
    by_cases hne : m = []
    · subst hne
      obtain ⟨rfl, hs⟩ : p = .plain q ∧ spelling ps = s := by
        cases p.shape hp with
        | plain =>
          obtain ⟨rfl, hs⟩ := List.cons.inj h
          exact ⟨rfl, hs⟩
        | dangling => exact absurd (List.cons.inj h).1.symm (Quoted.ne_of_isQuote hq).1
        | escape htext =>
          rw [htext] at h
          exact absurd (List.cons.inj h).1.symm (Quoted.ne_of_isQuote hq).1
      exact ⟨[], ps, rfl, rfl, hs, by simp⟩
    · obtain ⟨m', rfl, hr, hm', hescapes⟩ := exists_content_of_piece hq hm hne hp hend h
      obtain ⟨us, vs, rfl, rfl, hs, hus⟩ := ih hm' hrest hr
      exact ⟨p :: us, vs, rfl, spelling_cons, hs, List.forall_mem_cons.2 ⟨hescapes, hus⟩⟩

/-- In a pair the quote is the second character, for the first is a backslash. -/
theorem eq_of_pair_eq_append (hq : q ≠ '\\') (h : ['\\', q] = m ++ q :: s) :
    m = ['\\'] ∧ s = [] := by
  cases m with
  | nil => exact absurd (List.cons.inj h).1.symm hq
  | cons c m =>
    obtain ⟨rfl, htail⟩ := List.cons.inj h
    cases m with
    | nil => exact ⟨rfl, (List.cons.inj htail).2.symm⟩
    | cons d m => simp at htail

/-- Text made of pieces that escape `q` has it only behind a backslash. -/
theorem exists_escaped_of_append (hq : q ≠ '\\') (hps : ∀ p ∈ ps, p.Escapes q)
    (h : spelling ps = m ++ q :: s) :
    ∃ us vs, ps = us ++ .escaped q :: vs ∧ m = spelling us ++ ['\\'] ∧ s = spelling vs := by
  induction ps generalizing m with
  | nil => exact absurd h.symm (by simp [spelling])
  | cons p ps ih =>
    obtain ⟨⟨-, hp⟩, hrest⟩ := List.forall_mem_cons.1 hps
    rw [spelling_cons] at h
    have behind : ∀ m', m = p.text ++ m' → spelling ps = m' ++ q :: s →
        ∃ us vs, p :: ps = us ++ .escaped q :: vs ∧ m = spelling us ++ ['\\'] ∧
          s = spelling vs := by
      rintro m' rfl hsplit
      obtain ⟨us, vs, rfl, rfl, hs⟩ := ih hrest hsplit
      exact ⟨p :: us, vs, rfl, by rw [spelling_cons, List.append_assoc], hs⟩
    rcases List.append_eq_append_iff.1 h with ⟨m', hm, hsplit⟩ | ⟨u, htext, hsplit⟩
    · exact behind m' hm hsplit
    · cases u with
      | nil => exact behind [] (by simpa using htext.symm) hsplit.symm
      | cons d u =>
        obtain ⟨rfl, hs⟩ := List.cons.inj hsplit
        obtain rfl := hp (by rw [htext]; simp)
        obtain ⟨rfl, rfl⟩ := eq_of_pair_eq_append hq htext
        exact ⟨[], ps, rfl, rfl, hs⟩

/-! ## Reading over the closing quote -/

/-- Content and a quote behind it are read piece by piece, whatever follows. -/
theorem exists_reading (hq : isQuote q = true) (hm : IsContent q m) (s : List Char) :
    ∃ us vs, spelling us = m ∧ spelling vs = s ∧ AreComplete us ∧ AreComplete vs ∧
      AreComplete (us ++ .plain q :: vs) ∧ ∀ p ∈ us, p.Escapes q := by
  obtain ⟨ps, hps, hspell⟩ := exists_areComplete (m ++ q :: s)
  obtain ⟨us, vs, rfl, hu, hv, hus⟩ := exists_pieces_of_isContent hq hm hps hspell
  have hleft : AreComplete us := hps.left fun p hp => (hus p hp).1
  have hright : AreComplete (.plain q :: vs) := hps.right
  exact ⟨us, vs, hu, hv, hleft, hright.2.2, hps, hus⟩

theorem decode_content (hq : isQuote q = true) (hm : IsContent q m) (s : List Char) :
    decode (m ++ q :: s) = decode m ++ q :: decode s := by
  obtain ⟨us, vs, rfl, rfl, hus, hvs, hall, -⟩ := exists_reading hq hm s
  rw [← spelling_append_plain, decode_spelling hall, decode_spelling hus, decode_spelling hvs,
    List.map_append, List.map_cons, Piece.value]

end Escape

open Escape in
/-- **The two scans agree on where a literal ends.** If a literal with the content `c`
is found behind a quote, `c` has no line feed, and with any text behind the closing
quote it unescapes as it does alone, and so does that text. The pieces of `c`, for
which unescaping puts their characters, are the same in all of these, with the closing
quote as a piece of its own behind them. None of them is a backslash without a
character, none is a free quote of the same kind, and each such quote in `c` is the
character that an escape stands for. So the closing quote is the first that is read as
a plain character. -/
theorem Quoted.escapes_of_split? {q : Char} {c r rest : List Char}
    (h : Quoted.split? (q :: r) = some (q :: c ++ [q], rest)) :
    r = c ++ q :: rest ∧ '\n' ∉ c ∧
    (∀ s, unescape (String.ofList (c ++ q :: s)) =
      unescape (String.ofList c) ++ String.singleton q ++ unescape (String.ofList s)) ∧
    ∃ ps, AreComplete ps ∧ spelling ps = c ∧
      unescape (String.ofList c) = String.ofList (ps.map Piece.value) ∧
      (∀ s, ∃ qs, AreComplete (ps ++ .plain q :: qs) ∧
        spelling (ps ++ .plain q :: qs) = c ++ q :: s) ∧
      .dangling ∉ ps ∧ .plain q ∉ ps ∧
      ∀ c₁ c₂, c = c₁ ++ q :: c₂ →
        ∃ ps₁ ps₂, ps = ps₁ ++ .escaped q :: ps₂ ∧ c₁ = spelling ps₁ ++ ['\\'] ∧
          c₂ = spelling ps₂ := by
  have hq : isQuote q = true := by
    obtain ⟨q', m, v, hq, hv, -⟩ := Quoted.split?_eq_some_iff.1 h
    rwa [(List.cons.inj hv).1]
  obtain ⟨m, hm, hr, ht⟩ := (Quoted.split?_cons_iff hq).1 h
  obtain rfl : c = m := by simpa using ht
  obtain ⟨hesc, -⟩ := Quoted.ne_of_isQuote hq
  obtain ⟨hline, -, -⟩ := hm.parity hesc (p := []) rfl
  obtain ⟨ps, qs, hc, hs, hps, -, hall, hescapes⟩ := exists_reading hq hm rest
  refine ⟨hr, hline, fun s => ?_, ps, hps, hc, ?_, fun s => ?_, fun hmem => ?_, fun hmem => ?_, ?_⟩
  · simp only [unescape, String.toList_ofList, decode_content hq hm]
    apply String.toList_injective
    simp
  · rw [unescape, String.toList_ofList, ← hc, decode_spelling hps]
  · obtain ⟨us, vs, hu, rfl, hus, -, hreading, -⟩ := exists_reading hq hm s
    obtain rfl := eq_of_spelling_eq hus hps (hu.trans hc.symm)
    exact ⟨vs, hreading, by rw [spelling_append_plain, hc]⟩
  · exact (hescapes _ hmem).1 rfl
  · have hescaped := (hescapes _ hmem).2 (by simp [Piece.text])
    exact absurd hescaped (by simp)
  · intro c₁ c₂ hsplit
    exact exists_escaped_of_append hesc hescapes (hc.trans hsplit)

/-- A number that could go on ends at the closing quote all the same. -/
theorem Quoted.escapes_of_split?_short_hex :
    Quoted.split? ['\"', '\\', '\"', '\\', 'x', '4', '\"', '1'] =
        some ('\"' :: ['\\', '\"', '\\', 'x', '4'] ++ ['\"'], ['1']) ∧
      ∀ s, unescape (String.ofList (['\\', '\"', '\\', 'x', '4'] ++ '\"' :: s)) =
        unescape (String.ofList ['\\', '\"', '\\', 'x', '4']) ++ String.singleton '\"' ++
          unescape (String.ofList s) := by
  have h : Quoted.split? ['\"', '\\', '\"', '\\', 'x', '4', '\"', '1'] =
      some ('\"' :: ['\\', '\"', '\\', 'x', '4'] ++ ['\"'], ['1']) := by decide
  exact ⟨h, (Quoted.escapes_of_split? h).2.2.1⟩

end TemplateArgs
