/-
The pieces that a text is made of, and that decoding goes by them.

Where a piece ends may depend on what follows it, since a number goes on for as
long as its form allows more digits. So a text is cut from the front, and at each
place there is one piece to go on with, complete before what is left. That there
is one is `Piece.exists_append`, and that there is no other comes from
`Piece.inFront?`, which finds it by looking at the text alone.

Decoding knows nothing of pieces, but it takes exactly one of them in each step
(`Piece.decode_append`), which is where its tables and its counting of digits are
held against those that pieces are described with. The rest is induction over the
pieces. A text spelled with pieces that nothing can lengthen needs no looking
ahead, and stands for the text that was spelled.
-/
import Mathlib.Tactic.Ring
import TemplateArgs.Escape.Piece
import TemplateArgs.Proofs.Value

set_option autoImplicit false

namespace TemplateArgs

namespace Escape

/-! ## Digits -/

section Digits

variable {digit? : Char → Option Nat} {allowed ds r : List Char} {c d : Char} {limit : Nat}

/-- Whether the members of a list are the digits that a function knows. -/
def AreDigits (digit? : Char → Option Nat) (allowed : List Char) : Prop :=
  ∀ c, digit? c = if c ∈ allowed then some (digitValue c) else none

/-- The characters that a function knows are ASCII, so it is enough to try these. -/
theorem areDigits_of_ascii (hascii : ∀ c, digit? c ≠ none → c.toNat < 128)
    (hvalue : allowed.all (fun c => digit? c = some (digitValue c)) = true)
    (hnone : ∀ n < 128, digit? (Char.ofNat n) ≠ none → Char.ofNat n ∈ allowed) :
    AreDigits digit? allowed := by
  intro c
  split
  · next hc => exact of_decide_eq_true (List.all_eq_true.1 hvalue c hc)
  · next hc =>
    by_contra hsome
    have hmem := hnone c.toNat (hascii c hsome)
    rw [Char.ofNat_toNat] at hmem
    exact hc (hmem hsome)

theorem toNat_lt_of_le (h : c ≤ d) (hd : d.toNat < 128) : c.toNat < 128 :=
  Nat.lt_of_le_of_lt h hd

theorem areDigits_hex : AreDigits hexDigit? hexDigits := by
  refine areDigits_of_ascii ?_ (by decide) (by decide)
  intro c hc
  unfold hexDigit? at hc
  split at hc
  · next h => exact toNat_lt_of_le h.2 (by decide)
  · split at hc
    · next h => exact toNat_lt_of_le h.2 (by decide)
    · split at hc
      · next h => exact toNat_lt_of_le h.2 (by decide)
      · exact absurd rfl hc

theorem areDigits_octal : AreDigits octalDigit? octalDigits := by
  refine areDigits_of_ascii ?_ (by decide) (by decide)
  intro c hc
  unfold octalDigit? at hc
  split at hc
  · next h => exact toNat_lt_of_le h.2 (by decide)
  · exact absurd rfl hc

/-- As many digits as the limit allows are taken, and no fewer. -/
theorem digits_append (hdigit : AreDigits digit? allowed) (hds : ∀ c ∈ ds, c ∈ allowed)
    (hlimit : ds.length ≤ limit) (hr : ds.length < limit → ∀ c ∈ r.head?, c ∉ allowed) :
    digits digit? limit (ds ++ r) = (ds.map digitValue, r) := by
  induction ds generalizing limit with
  | nil =>
    rw [List.nil_append]
    cases limit with
    | zero => simp [digits]
    | succ limit =>
      cases r with
      | nil => simp [digits]
      | cons c r =>
        have hc : digit? c = none := by
          rw [hdigit, if_neg (hr (by simp) c (by simp))]
        simp [digits, hc]
  | cons d ds ih =>
    obtain ⟨hd, hds⟩ := List.forall_mem_cons.1 hds
    cases limit with
    | zero => simp at hlimit
    | succ limit =>
      simp only [List.length_cons, Nat.add_lt_add_iff_right, Nat.add_le_add_iff_right] at hlimit hr
      have hd' : digit? d = some (digitValue d) := by rw [hdigit, if_pos hd]
      simp only [List.cons_append, digits, hd', ih hds hlimit hr, List.map_cons]

@[simp] theorem numeral_cons (radix : Nat) (c : Char) (ds : List Char) :
    numeral radix (c :: ds) = digitValue c * radix ^ ds.length + numeral radix ds := rfl

/-- Adding up digits from the left gives the number that they spell. -/
theorem foldl_digitValue (radix n : Nat) (ds : List Char) :
    (ds.map digitValue).foldl (fun n d => radix * n + d) n =
      n * radix ^ ds.length + numeral radix ds := by
  induction ds generalizing n with
  | nil => exact (Nat.mul_one n).symm
  | cons d ds ih =>
    rw [List.map_cons, List.foldl_cons, ih, numeral_cons, List.length_cons]
    ring

theorem ofDigits_map_digitValue (radix : Nat) (ds : List Char) :
    ofDigits radix (ds.map digitValue) = numeral radix ds := by
  rw [ofDigits, foldl_digitValue, Nat.zero_mul, Nat.zero_add]

/-- The digits at the front of a text, at most `limit` of them. -/
def digitRun (allowed : List Char) (limit : Nat) (s : List Char) : List Char :=
  (s.take limit).takeWhile (· ∈ allowed)

theorem digitRun_append (hds : ∀ c ∈ ds, c ∈ allowed) (hlimit : ds.length ≤ limit)
    (hr : ds.length < limit → ∀ c ∈ r.head?, c ∉ allowed) :
    digitRun allowed limit (ds ++ r) = ds := by
  have hfront : NoneInFront (· ∈ allowed) (r.take (limit - ds.length)) := by
    intro c hc
    rw [List.head?_take] at hc
    split at hc
    · simp at hc
    · exact decide_eq_false (hr (by omega) c hc)
  rw [digitRun, List.take_append, List.take_of_length_le hlimit]
  exact takeWhile_append_of_noneInFront (fun c hc => decide_eq_true (hds c hc)) hfront

/-- Every text has digits in front, if only none, as many as there are up to the
limit. -/
theorem exists_digits (allowed : List Char) (limit : Nat) (s : List Char) :
    ∃ ds r, s = ds ++ r ∧ (∀ c ∈ ds, c ∈ allowed) ∧ ds.length ≤ limit ∧
      (ds.length < limit → ∀ c ∈ r.head?, c ∉ allowed) := by
  induction s generalizing limit with
  | nil => exact ⟨[], [], rfl, by simp, by simp, by simp⟩
  | cons c s ih =>
    by_cases hc : c ∈ allowed ∧ 0 < limit
    · obtain ⟨hc, hlimit⟩ := hc
      obtain ⟨ds, r, rfl, hds, hle, hr⟩ := ih (limit - 1)
      refine ⟨c :: ds, r, rfl, List.forall_mem_cons.2 ⟨hc, hds⟩, ?_, ?_⟩
      · rw [List.length_cons]
        omega
      · intro hlt
        rw [List.length_cons] at hlt
        exact hr (by omega)
    · refine ⟨[], c :: s, rfl, by simp, by simp, ?_⟩
      intro hlimit d hd
      obtain rfl := Option.some.inj hd
      exact fun hmem => hc ⟨hmem, hlimit⟩

end Digits

/-! ## Letters -/

section Letters

variable {c value : Char}

theorem lookup_controls (h : (c, value) ∈ controls) : controls.lookup c = some value := by
  have hall : controls.all (fun e => controls.lookup e.1 = some e.2) = true := by decide
  exact of_decide_eq_true (List.all_eq_true.1 hall _ h)

theorem lookup_controls_eq_none (h : c ∉ controls.map Prod.fst) : controls.lookup c = none := by
  rw [List.lookup_eq_none_iff]
  intro e he
  exact bne_iff_ne.2 fun hc => h (hc ▸ List.mem_map_of_mem he)

theorem control?_eq_lookup (c : Char) : control? c = controls.lookup c := by
  unfold control?
  split
  case h_8 => exact (lookup_controls_eq_none (by simp_all [controls])).symm
  all_goals rfl

theorem control?_x : control? 'x' = none := rfl

end Letters

/-! ## The piece in front -/

namespace Piece

variable {s r ds : List Char} {p : Piece}

/-- The piece that a text begins with. -/
def inFront? : List Char → Option Piece
  | [] => none
  | ['\\'] => some dangling
  | '\\' :: c :: s =>
    if c = 'x' then
      match digitRun hexDigits 2 s with
      | [] => some bareX
      | ds => some (hex ds)
    else if c ∈ octalDigits then some (octal (digitRun octalDigits 3 (c :: s)))
    else
      match controls.lookup c with
      | some value => some (control c value)
      | none => some (escaped c)
  | c :: _ => some (plain c)

/-- A piece that is complete is the one that the text begins with. -/
theorem inFront?_append (hp : p.IsValid) (hr : p.EndsBefore r) :
    inFront? (p.text ++ r) = some p := by
  cases p with
  | plain c =>
    rw [text, List.singleton_append, inFront?]
    · rintro rfl
      exact absurd rfl hp
    · rintro d s rfl
      exact absurd rfl hp
  | control letter value =>
    have hout : controls.all (fun e => e.1 ≠ 'x' ∧ e.1 ∉ octalDigits) = true := by decide
    obtain ⟨hx, hoctal⟩ := of_decide_eq_true (List.all_eq_true.1 hout _ hp)
    simp only [text, List.cons_append, List.nil_append, inFront?, if_neg hx, if_neg hoctal,
      lookup_controls hp]
  | hex ds =>
    obtain ⟨hlen, hds⟩ := hp
    have hrun : digitRun hexDigits 2 (ds ++ r) = ds :=
      digitRun_append hds (by omega) hr
    obtain ⟨d, ds, rfl⟩ := List.exists_cons_of_length_pos (l := ds) (by omega)
    simp only [text, List.cons_append, inFront?, if_pos] at hrun ⊢
    rw [hrun]
  | bareX =>
    have hrun : digitRun hexDigits 2 ([] ++ r) = [] :=
      digitRun_append (by simp) (by simp) fun _ => hr
    rw [List.nil_append] at hrun
    simp only [text, List.cons_append, List.nil_append, inFront?, if_pos, hrun]
  | octal ds =>
    obtain ⟨hlen, hds⟩ := hp
    have hrun : digitRun octalDigits 3 (ds ++ r) = ds :=
      digitRun_append hds (by omega) hr
    obtain ⟨d, ds, rfl⟩ := List.exists_cons_of_length_pos (l := ds) (by omega)
    have hd : d ∈ octalDigits := hds d List.mem_cons_self
    have hx : d ≠ 'x' := by
      rintro rfl
      exact absurd hd (by decide)
    rw [List.cons_append] at hrun
    simp only [text, List.cons_append, inFront?, if_neg hx, if_pos hd, hrun]
  | escaped c =>
    obtain ⟨hcontrol, hx, hoctal⟩ := hp
    simp only [text, List.cons_append, List.nil_append, inFront?, if_neg hx, if_neg hoctal,
      lookup_controls_eq_none hcontrol]
  | dangling =>
    obtain rfl : r = [] := hr
    rfl

/-- Every text but the empty one begins with a piece that is complete. -/
theorem exists_append (hs : s ≠ []) :
    ∃ (p : Piece) (r : List Char), s = p.text ++ r ∧ p.IsValid ∧ p.EndsBefore r := by
  obtain ⟨c, s, rfl⟩ := List.exists_cons_of_ne_nil hs
  by_cases hc : c = '\\'
  · subst hc
    cases s with
    | nil => exact ⟨dangling, [], rfl, trivial, rfl⟩
    | cons c s =>
      by_cases hx : c = 'x'
      · subst hx
        obtain ⟨ds, r, rfl, hds, hlimit, hr⟩ := exists_digits hexDigits 2 s
        cases ds with
        | nil => exact ⟨bareX, r, rfl, trivial, hr (by decide)⟩
        | cons d ds =>
          refine ⟨hex (d :: ds), r, rfl, ⟨?_, hds⟩, hr⟩
          rw [List.length_cons] at hlimit ⊢
          omega
      · by_cases hoctal : c ∈ octalDigits
        · obtain ⟨ds, r, hs, hds, hlimit, hr⟩ := exists_digits octalDigits 3 (c :: s)
          cases ds with
          | nil =>
            obtain rfl : c :: s = r := hs
            exact absurd hoctal (hr (by decide) c rfl)
          | cons d ds =>
            refine ⟨octal (d :: ds), r, congrArg _ hs, ⟨?_, hds⟩, hr⟩
            rw [List.length_cons] at hlimit ⊢
            omega
        · by_cases hcontrol : c ∈ controls.map Prod.fst
          · obtain ⟨⟨letter, value⟩, he, rfl⟩ := List.mem_map.1 hcontrol
            exact ⟨control letter value, s, rfl, he, trivial⟩
          · exact ⟨escaped c, s, rfl, ⟨hcontrol, hx, hoctal⟩, trivial⟩
  · exact ⟨plain c, s, rfl, hc, trivial⟩

/-- Decoding takes one piece at a time, each for the character it stands for. -/
theorem decode_append (hp : p.IsValid) (hr : p.EndsBefore r) :
    decode (p.text ++ r) = p.value :: decode r := by
  cases p with
  | plain c => exact decode_cons hp
  | control letter value =>
    have hresolve : resolve letter r = (value, r) := by
      simp only [resolve, control?_eq_lookup, lookup_controls hp]
    rw [text, List.cons_append, List.singleton_append, decode_backslash, hresolve, Piece.value]
  | hex ds =>
    obtain ⟨hlen, hds⟩ := hp
    obtain ⟨d, ds, rfl⟩ := List.exists_cons_of_length_pos (l := ds) (by omega)
    have hdigits := digits_append areDigits_hex hds (by omega) hr
    have hresolve : resolve 'x' (d :: ds ++ r) =
        (Char.ofNat (ofDigits 16 ((d :: ds).map digitValue)), r) := by
      simp only [resolve, control?_x, if_pos, hdigits, List.map_cons]
    rw [text, List.cons_append, List.cons_append, decode_backslash, hresolve,
      ofDigits_map_digitValue, Piece.value]
  | bareX =>
    have hdigits : digits hexDigit? 2 ([] ++ r) = ([].map digitValue, r) :=
      digits_append areDigits_hex (by simp) (Nat.zero_le 2) fun _ => hr
    have hresolve : resolve 'x' r = ('x', r) := by
      rw [List.nil_append] at hdigits
      simp only [resolve, control?_x, if_pos, hdigits, List.map_nil]
    rw [text, List.cons_append, List.singleton_append, decode_backslash, hresolve, Piece.value]
  | octal ds =>
    obtain ⟨hlen, hds⟩ := hp
    obtain ⟨d, ds, rfl⟩ := List.exists_cons_of_length_pos (l := ds) (by omega)
    obtain ⟨hd, hds⟩ := List.forall_mem_cons.1 hds
    simp only [List.length_cons] at hlen
    have hdigits : digits octalDigit? 2 (ds ++ r) = (ds.map digitValue, r) :=
      digits_append areDigits_octal hds (by omega) fun h => hr (by rw [List.length_cons]; omega)
    have hresolve : resolve d (ds ++ r) =
        (Char.ofNat (ofDigits 8 ((d :: ds).map digitValue) % 256), r) := by
      have hout : octalDigits.all (fun c => control? c = none ∧ c ≠ 'x') = true := by decide
      obtain ⟨hcontrol, hx⟩ := of_decide_eq_true (List.all_eq_true.1 hout d hd)
      simp only [resolve, hcontrol, if_neg hx, areDigits_octal d, if_pos hd, hdigits,
        List.map_cons]
    rw [text, List.cons_append, List.cons_append, decode_backslash, hresolve,
      ofDigits_map_digitValue, Piece.value]
  | escaped c =>
    obtain ⟨hcontrol, hx, hoctal⟩ := hp
    have hnone : control? c = none := by
      rw [control?_eq_lookup, lookup_controls_eq_none hcontrol]
    have hdigit : octalDigit? c = none := by
      rw [areDigits_octal, if_neg hoctal]
    rw [text, List.cons_append, List.singleton_append, decode_backslash,
      resolve_of_other hnone hx hdigit, Piece.value]
  | dangling =>
    obtain rfl : r = [] := hr
    simp [text, decode, Piece.value]

end Piece

/-! ## The pieces of a text -/

section Pieces

variable {s : List Char} {p : Piece} {ps qs : List Piece}

@[simp] theorem Piece.text_ne_nil (p : Piece) : p.text ≠ [] := by
  cases p <;> simp [text]

@[simp] theorem spelling_nil : spelling [] = [] := rfl

@[simp] theorem spelling_cons : spelling (p :: ps) = p.text ++ spelling ps := List.flatMap_cons

@[simp] theorem spelling_append : spelling (ps ++ qs) = spelling ps ++ spelling qs :=
  List.flatMap_append

theorem decode_spelling (hps : AreComplete ps) : decode (spelling ps) = ps.map Piece.value := by
  induction ps with
  | nil => rw [spelling_nil, decode, List.map_nil]
  | cons p ps ih =>
    obtain ⟨hp, hend, hps⟩ := hps
    rw [spelling_cons, Piece.decode_append hp hend, ih hps, List.map_cons]

/-- Every text is made of pieces. -/
theorem exists_areComplete (s : List Char) : ∃ ps, AreComplete ps ∧ spelling ps = s := by
  by_cases hs : s = []
  · exact ⟨[], trivial, hs.symm⟩
  · obtain ⟨p, r, hsplit, hp, hend⟩ := Piece.exists_append hs
    have hlt : r.length < s.length := by
      have hlen := List.length_pos_iff.2 p.text_ne_nil
      rw [hsplit, List.length_append]
      omega
    obtain ⟨ps, hps, rfl⟩ := exists_areComplete r
    exact ⟨p :: ps, ⟨hp, hend, hps⟩, hsplit.symm⟩
termination_by s.length

/-- A text is made of pieces in one way only, for at each place there is one piece
that it can go on with. -/
theorem eq_of_spelling_eq (hps : AreComplete ps) (hqs : AreComplete qs)
    (h : spelling ps = spelling qs) : ps = qs := by
  have hfront : ∀ {p ps}, AreComplete (p :: ps) → Piece.inFront? (spelling (p :: ps)) = some p := by
    rintro p ps ⟨hp, hend, -⟩
    rw [spelling_cons]
    exact Piece.inFront?_append hp hend
  induction ps generalizing qs with
  | nil =>
    cases qs with
    | nil => rfl
    | cons q qs =>
      have hq := hfront hqs
      rw [← h] at hq
      exact absurd hq (by simp [spelling, Piece.inFront?])
  | cons p ps ih =>
    have hp := hfront hps
    cases qs with
    | nil =>
      rw [h] at hp
      exact absurd hp (by simp [spelling, Piece.inFront?])
    | cons q qs =>
      have hq := hfront hqs
      rw [← h, hp] at hq
      obtain rfl := Option.some.inj hq
      rw [spelling_cons, spelling_cons] at h
      rw [ih hps.2.2 hqs.2.2 (List.append_cancel_left h)]

/-! ## Pieces that nothing can lengthen -/

/-- Whether a piece is complete with any text behind it: it is no number, or one
with as many digits as there may be. -/
def Piece.IsClosed : Piece → Prop
  | hex ds => ds.length = 2
  | octal ds => ds.length = 3
  | bareX => False
  | dangling => False
  | _ => True

theorem Piece.endsBefore_of_isClosed (hp : p.IsClosed) (s : List Char) : p.EndsBefore s := by
  cases p with
  | plain | control | escaped => trivial
  | hex ds =>
    have hlen : ds.length = 2 := hp
    exact fun hlt => absurd hlt (by omega)
  | octal ds =>
    have hlen : ds.length = 3 := hp
    exact fun hlt => absurd hlt (by omega)
  | bareX | dangling => exact hp.elim

theorem areComplete_of_isClosed (hps : ∀ p ∈ ps, p.IsValid ∧ p.IsClosed) : AreComplete ps := by
  induction ps with
  | nil => trivial
  | cons p ps ih =>
    obtain ⟨⟨hp, hclosed⟩, hps⟩ := List.forall_mem_cons.1 hps
    exact ⟨hp, Piece.endsBefore_of_isClosed hclosed _, ih hps⟩

end Pieces

end Escape

open Escape in
/-- **Escapes are read by maximal munch.** A text is made of complete pieces in
exactly one way, and unescaping puts for each of them the character that it stands
for. In particular a text that is spelled with closed pieces, in whatever mixture,
is the text that was spelled. -/
theorem unescape_eq_map_value (text : String) :
    (∃! ps, AreComplete ps ∧ spelling ps = text.toList) ∧
    (∀ ps, AreComplete ps → spelling ps = text.toList →
      unescape text = String.ofList (ps.map Piece.value)) ∧
    ∀ ps, (∀ p ∈ ps, p.IsValid ∧ p.IsClosed) →
      unescape (String.ofList (spelling ps)) = String.ofList (ps.map Piece.value) := by
  refine ⟨?_, fun ps hps htext => ?_, fun ps hps => ?_⟩
  · obtain ⟨ps, hps, htext⟩ := exists_areComplete text.toList
    refine ⟨ps, ⟨hps, htext⟩, ?_⟩
    rintro qs ⟨hqs, htext'⟩
    exact eq_of_spelling_eq hqs hps (htext'.trans htext.symm)
  · rw [unescape, ← htext, decode_spelling hps]
  · rw [unescape, String.toList_ofList, decode_spelling (areComplete_of_isClosed hps)]

open Escape in
/-- Numbers with as many digits as there may be, and a digit behind each of them. -/
theorem unescape_eq_map_value_digits :
    (∀ p ∈ [Piece.hex ['4', '1'], .plain '4', .octal ['1', '0', '1'], .plain '8', .escaped '\"'],
      p.IsValid ∧ p.IsClosed) ∧ unescape "\\x414\\1018\\\"" = "A4A8\"" := by
  have hps : ∀ p ∈ [Piece.hex ['4', '1'], .plain '4', .octal ['1', '0', '1'], .plain '8',
      .escaped '\"'], p.IsValid ∧ p.IsClosed := by
    simp [Piece.IsValid, Piece.IsClosed, hexDigits, octalDigits, controls]
  have h := (unescape_eq_map_value "").2.2 _ hps
  have htext : String.ofList (spelling [Piece.hex ['4', '1'], .plain '4', .octal ['1', '0', '1'],
      .plain '8', .escaped '\"']) = "\\x414\\1018\\\"" := by decide +kernel
  rw [htext] at h
  exact ⟨hps, h.trans (by decide +kernel)⟩

end TemplateArgs
