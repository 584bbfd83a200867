import Mathlib
import Radiance.Json.Reader

/-!
# Tokens are read back from their text

The text of a token is cut off as that token again, whatever comes after it.  Only a number can run
into what follows, so there something has to follow that does not belong to a number.

## Main definitions

* `Json.Number.Fits`: the numbers whose digits fit a word and whose values are in range.
* `Json.Token.Fits`: the tokens that have a text of their own.

## Main statements

* `Json.number?_text`: a number is read back from its text.
* `Json.scanString_quote`: a string is read back from its quoted form.
* `Json.lex_chars_append`: a token is cut off a text that starts with it.
-/

namespace Radiance.Json

/-! ## Digits -/

theorem digitsValue_eq (ds : List Char) : digitsValue ds = Nat.ofDigitChars 10 ds 0 := by
  simp [digitsValue, Nat.ofDigitChars_eq_foldl, Nat.mul_comm]

theorem isDigit_of_mem_digits {n : Nat} {c : Char} (h : c ∈ Nat.toDigits 10 n) :
    c.isDigit = true :=
  Nat.isDigit_of_mem_toDigits (by decide) (by decide) h

theorem all_isDigit_digits (n : Nat) : (Nat.toDigits 10 n).all Char.isDigit = true :=
  List.all_eq_true.2 fun _ => isDigit_of_mem_digits

/-- Digits that do not outgrow a word are absorbed to the last. -/
theorem absorb_eq {ds : List Char} {significand : Nat}
    (h : Nat.ofDigitChars 10 ds significand < 2 ^ 64) :
    absorb significand ds = (Nat.ofDigitChars 10 ds significand, []) := by
  induction ds generalizing significand with
  | nil => rfl
  | cons c ds ih =>
    rw [Nat.ofDigitChars_cons, Nat.mul_comm] at h
    have hle : significand * 10 + (c.toNat - '0'.toNat) ≤
        Nat.ofDigitChars 10 ds (significand * 10 + (c.toNat - '0'.toNat)) := by
      rw [Nat.ofDigitChars_eq_ofDigitChars_zero]
      have := Nat.le_mul_of_pos_left (significand * 10 + (c.toNat - '0'.toNat))
        (Nat.pow_pos (n := ds.length) (a := 10) (by decide))
      omega
    have hnext : significand * 10 + (c.toNat - '0'.toNat) < Nat.pow 2 64 := by
      rw [Nat.pow_eq]
      omega
    simp only [absorb, if_pos hnext, ih h, Nat.ofDigitChars_cons, Nat.mul_comm 10]

theorem absorb_digits {n : Nat} (h : n < 2 ^ 64) : absorb 0 (Nat.toDigits 10 n) = (n, []) := by
  rw [absorb_eq, Nat.ofDigitChars_ten_toDigits]
  rwa [Nat.ofDigitChars_ten_toDigits]

/-- Only zero starts with the digit zero. -/
theorem eq_zero_of_head?_digits {n : Nat} (h : (Nat.toDigits 10 n).head? = some '0') : n = 0 := by
  induction n using Nat.strongRecOn with
  | _ n ih =>
    by_cases hn : n < 10
    · rw [Nat.toDigits_of_lt_base hn] at h
      exact Nat.digitChar_eq_zero.1 (Option.some.inj h)
    · rw [Nat.toDigits_of_base_le (by decide) (by omega), List.head?_append,
        List.head?_eq_some_head Nat.toDigits_ne_nil, Option.some_or,
        ← List.head?_eq_some_head Nat.toDigits_ne_nil] at h
      have := ih (n / 10) (by omega) h
      omega

theorem digits_wellFormed (n : Nat) :
    ¬(Nat.toDigits 10 n = [] ∨
      (Nat.toDigits 10 n).head? = some '0' ∧ (Nat.toDigits 10 n).length ≠ 1) := by
  rintro (hnil | ⟨hzero, hlength⟩)
  · exact Nat.toDigits_ne_nil hnil
  · rw [eq_zero_of_head?_digits hzero] at hlength
    exact hlength rfl

/-- A run of characters of one kind ends where another kind starts. -/
theorem takeWhile_dropWhile_append (p : Char → Bool) {cs : List Char} (rest : List Char)
    (hcs : ∀ c ∈ cs, p c = true) (hrest : ∀ c ∈ rest.head?, p c = false) :
    (cs ++ rest).takeWhile p = cs ∧ (cs ++ rest).dropWhile p = rest := by
  rw [List.takeWhile_append_of_pos hcs, List.dropWhile_append_of_pos hcs]
  cases rest with
  | nil => simp
  | cons c rest => simp [hrest c rfl]

theorem unsigned?_digits (negative : Bool) (n : Nat) :
    unsigned? negative (Nat.toDigits 10 n) = some (wholeNumber negative (Nat.toDigits 10 n)) := by
  obtain ⟨hwhole, hrest⟩ := takeWhile_dropWhile_append Char.isDigit []
    (fun c => isDigit_of_mem_digits (n := n)) nofun
  rw [List.append_nil] at hwhole hrest
  rw [unsigned?, hwhole, hrest]
  exact if_neg (digits_wellFormed n)

theorem unsigned?_digits_exponent (negative : Bool) (n : Nat) (ds : List Char) :
    unsigned? negative (Nat.toDigits 10 n ++ 'e' :: ds) =
      (exponent? ds).map (decimalNumber negative (Nat.toDigits 10 n) []) := by
  obtain ⟨hwhole, hrest⟩ := takeWhile_dropWhile_append Char.isDigit ('e' :: ds)
    (fun c => isDigit_of_mem_digits (n := n)) (by simp)
  rw [unsigned?, hwhole, hrest]
  exact if_neg (digits_wellFormed n)

/-! ## Numbers -/

/-- Whether a number is read back from its text: a word holds its digits, and its value is in
range. -/
def Number.Fits : Number → Prop
  | integer n => -2 ^ 63 ≤ n ∧ n < 2 ^ 64
  | decimal negative c e => c < 2 ^ 64 ∧ inRange (decimal negative c e) = true

instance : DecidablePred Number.Fits
  | .integer _ => inferInstanceAs (Decidable (_ ∧ _))
  | .decimal _ _ _ => inferInstanceAs (Decidable (_ ∧ _))

theorem Number.Fits.inRange {n : Number} (h : n.Fits) : Json.inRange n = true := by
  cases n with
  | integer n => rfl
  | decimal negative c e => exact h.2

theorem toList_toString_ofNat (n : Nat) : (toString (Int.ofNat n)).toList = Nat.toDigits 10 n :=
  Nat.toList_repr

theorem toList_toString_negSucc (n : Nat) :
    (toString (Int.negSucc n)).toList = '-' :: Nat.toDigits 10 (n + 1) := by
  simp [toString, Int.repr]

/-- Digits start with no sign. -/
theorem exists_digits_eq_cons (n : Nat) :
    ∃ c cs, Nat.toDigits 10 n = c :: cs ∧ c ≠ '+' ∧ c ≠ '-' := by
  obtain ⟨c, cs, hcs⟩ := List.exists_cons_of_ne_nil (Nat.toDigits_ne_nil (n := n) (b := 10))
  have hc : c.isDigit = true := isDigit_of_mem_digits (n := n) (hcs ▸ List.mem_cons_self)
  refine ⟨c, cs, hcs, ?_, ?_⟩
  all_goals
    rintro rfl
    exact absurd hc (by decide)

theorem exponent?_toString (e : Int) : exponent? (toString e).toList = some e := by
  have hdigits (n : Nat) : Nat.toDigits 10 n ≠ [] ∧ (Nat.toDigits 10 n).all Char.isDigit = true :=
    ⟨Nat.toDigits_ne_nil, all_isDigit_digits n⟩
  have hvalue (n : Nat) : digitsValue (Nat.toDigits 10 n) = n := by
    rw [digitsValue_eq, Nat.ofDigitChars_ten_toDigits]
  cases e with
  | ofNat n =>
    obtain ⟨c, cs, hcs, hplus, hminus⟩ := exists_digits_eq_cons n
    rw [toList_toString_ofNat, exponent?.eq_3 _ (by simp [hcs, hplus]) (by simp [hcs, hminus]),
      if_pos (hdigits n), hvalue]
    rfl
  | negSucc n =>
    rw [toList_toString_negSucc, exponent?, if_pos (hdigits _), hvalue]
    rfl

/-- The sign of a number is split off first. -/
theorem number?_sign_append (negative : Bool) (n : Nat) (rest : List Char) :
    number? ((if negative then ['-'] else []) ++ (Nat.toDigits 10 n ++ rest)) =
      unsigned? negative (Nat.toDigits 10 n ++ rest) := by
  cases negative with
  | true => rfl
  | false =>
    obtain ⟨c, cs, hcs, -, hminus⟩ := exists_digits_eq_cons n
    exact number?.eq_2 _ (by simp [hcs, hminus])

theorem number?_whole (negative : Bool) (n : Nat) :
    number? ((if negative then ['-'] else []) ++ Nat.toDigits 10 n) =
      some (wholeNumber negative (Nat.toDigits 10 n)) := by
  have hsign := number?_sign_append negative n []
  rwa [List.append_nil, unsigned?_digits] at hsign

theorem toList_text_decimal (negative : Bool) (c : Nat) (e : Int) :
    (Number.decimal negative c e).text.toList =
      (if negative then ['-'] else []) ++ (Nat.toDigits 10 c ++ 'e' :: (toString e).toList) := by
  cases negative <;> simp [Number.text]

/-- A number is read back from its text. -/
theorem number?_text {n : Number} (h : n.Fits) : number? n.text.toList = some n := by
  rcases n with (n | n) | ⟨negative, c, e⟩
  · have hword : n < 2 ^ 64 := Int.ofNat_lt.1 h.2
    rw [Number.text, toList_toString_ofNat]
    refine (number?_whole false n).trans ?_
    rw [wholeNumber, absorb_digits hword]
    rfl
  · have hword : n + 1 ≤ 2 ^ 63 := by
      have := h.1
      omega
    rw [Number.text, toList_toString_negSucc]
    refine (number?_whole true (n + 1)).trans ?_
    have hnone : ¬(n + 1 = 0 ∨ Nat.pow 2 63 < n + 1) := by
      rw [Nat.pow_eq]
      omega
    rw [wholeNumber, absorb_digits (by omega)]
    simp only [Bool.not_true, Bool.false_eq_true, if_false, if_neg hnone]
    rfl
  · rw [toList_text_decimal, number?_sign_append, unsigned?_digits_exponent, exponent?_toString,
      Option.map_some, decimalNumber, absorb_digits h.1]
    simp [absorb]

/-- The text of a number is not empty and has only characters of numbers. -/
theorem isNumberChar_of_mem_text {n : Number} {c : Char} (hc : c ∈ n.text.toList) :
    isNumberChar c = true := by
  have hdigit {n : Nat} (h : c ∈ Nat.toDigits 10 n) : isNumberChar c = true := by
    simp [isNumberChar, isDigit_of_mem_digits h]
  have hint {e : Int} (h : c ∈ (toString e).toList) : isNumberChar c = true := by
    cases e with
    | ofNat e =>
      rw [toList_toString_ofNat] at h
      exact hdigit h
    | negSucc e =>
      rw [toList_toString_negSucc] at h
      rcases List.mem_cons.1 h with rfl | h
      · rfl
      · exact hdigit h
  cases n with
  | integer n => exact hint hc
  | decimal negative m e =>
    rw [toList_text_decimal] at hc
    simp only [List.mem_append, List.mem_cons] at hc
    rcases hc with hsign | hm | rfl | he
    · cases negative with
      | true =>
        obtain rfl := List.mem_singleton.1 hsign
        rfl
      | false => cases hsign
    · exact hdigit hm
    · rfl
    · exact hint he

/-! ## Strings -/

/-- The part that a character becomes in quotes. -/
def piece (c : Char) : Piece := if c.toNat < 0x20 then .code c.toNat else .char c

theorem hexCode?_hexCode : ∀ n < 0x20,
    ∃ a b c d, hexCode n = [a, b, c, d] ∧ hexCode? a b c d = some n := by
  have hread : ∀ n < 0x20, hexCode? (Nat.digitChar (n / Nat.pow 16 3 % 16))
      (Nat.digitChar (n / Nat.pow 16 2 % 16)) (Nat.digitChar (n / Nat.pow 16 1 % 16))
      (Nat.digitChar (n / Nat.pow 16 0 % 16)) = some n := by decide
  exact fun n hn => ⟨_, _, _, _, rfl, hread n hn⟩

/-- A character in quotes is scanned as one part. -/
theorem scanQuoted_escape_append (c : Char) (rest : List Char) :
    scanQuoted (escape c ++ rest) =
      (scanQuoted rest).map fun (ps, after) => (piece c :: ps, after) := by
  unfold escape
  split
  next h =>
    subst h
    rfl
  next hquote =>
    split
    next h =>
      subst h
      rfl
    next hslash =>
      split
      next hcode =>
        obtain ⟨w, x, y, z, hhex, hread⟩ := hexCode?_hexCode _ hcode
        rw [hhex]
        simp only [List.cons_append, List.nil_append, scanQuoted, hread, piece, if_pos hcode]
      next hcode =>
        have hplain : ¬((decide (c.toNat < 0x20) || decide (c = '\\')) = true) := by
          simp [hcode, hslash]
        rw [List.singleton_append, scanQuoted.eq_4 _ _ (by simpa using hquote)
          (by simp [hslash]) (by simp [hslash]), if_neg hplain, piece, if_neg hcode]

theorem joinPieces_map_piece (cs : List Char) : joinPieces (cs.map piece) = some cs := by
  induction cs with
  | nil => rfl
  | cons c cs ih =>
    rw [List.map_cons, piece]
    split
    next hcode =>
      have hhigh : isHighSurrogate c.toNat = false := by
        simp only [isHighSurrogate, Bool.and_eq_false_iff, decide_eq_false_iff_not]
        omega
      have hlow : isLowSurrogate c.toNat = false := by
        simp only [isLowSurrogate, Bool.and_eq_false_iff, decide_eq_false_iff_not]
        omega
      rw [joinPieces.eq_def]
      simp [hhigh, hlow, ih]
    next => rw [joinPieces, ih, Option.map_some]

/-- A string is read back from its quoted form. -/
theorem scanString_quote (s : String) (rest : List Char) :
    scanString (s.toList.flatMap escape ++ '"' :: rest) = some (.str s, rest) := by
  have hscan (cs : List Char) :
      scanQuoted (cs.flatMap escape ++ '"' :: rest) = some (cs.map piece, rest) := by
    induction cs with
    | nil => rfl
    | cons c cs ih =>
      rw [List.flatMap_cons, List.append_assoc, scanQuoted_escape_append, ih]
      rfl
  simp only [scanString, hscan, joinPieces_map_piece, String.ofList_toList]

/-! ## Tokens -/

/-- Whether a token has a text of its own from which it can be read back. -/
def Token.Fits : Token → Prop
  | num n => n.Fits
  | wideNumber => False
  | brokenString => False
  | _ => True

/-- Where a number ends, because what follows does not belong to it. -/
def EndsNumber (rest : List Char) : Prop := ∀ c ∈ rest.head?, isNumberChar c = false

theorem scanToken_number {c : Char} (h : isNumberChar c = true) (rest : List Char) :
    scanToken c rest =
      (number? (c :: rest.takeWhile isNumberChar)).map
        (numberToken ·, rest.dropWhile isNumberChar) := by
  unfold scanToken
  split
  case h_11 => exact if_pos h
  all_goals exact absurd h (by decide)

theorem isBlank_eq_false {c : Char} (h : isNumberChar c = true) : isBlank c = false := by
  apply Bool.eq_false_iff.2
  intro hblank
  simp only [isBlank, Bool.or_eq_true, decide_eq_true_eq] at hblank
  rcases hblank with ((rfl | rfl) | rfl) | rfl
  all_goals exact absurd h (by decide)

theorem scanToken_text {n : Number} (h : n.Fits) {rest : List Char} (hrest : EndsNumber rest) :
    ∃ c cs, n.text.toList = c :: cs ∧ isBlank c = false ∧
      scanToken c (cs ++ rest) = some (.num n, rest) := by
  have hread := number?_text h
  cases htext : n.text.toList with
  | nil =>
    rw [htext] at hread
    cases hread
  | cons c cs =>
    have hchars : ∀ d ∈ c :: cs, isNumberChar d = true := fun d hd =>
      isNumberChar_of_mem_text (n := n) (htext ▸ hd)
    obtain ⟨htake, hdrop⟩ := takeWhile_dropWhile_append isNumberChar rest
      (fun d hd => hchars d (List.mem_cons_of_mem c hd)) hrest
    have hc := hchars c List.mem_cons_self
    refine ⟨c, cs, rfl, isBlank_eq_false hc, ?_⟩
    rw [scanToken_number hc, htake, hdrop, ← htext, hread, Option.map_some, numberToken,
      if_pos h.inRange]

theorem lex_cons {c : Char} {rest after : List Char} {t : Token} (hblank : isBlank c = false)
    (h : scanToken c rest = some (t, after)) : lex (c :: rest) = (lex after).map (t :: ·) := by
  rw [lex, if_neg (by simp [hblank])]
  split
  next hnone => simp [h] at hnone
  next hsome =>
    obtain ⟨rfl, rfl⟩ := Prod.mk.inj (Option.some.inj (h.symm.trans hsome))
    rfl

/-- A token is cut off a text that starts with it. -/
theorem lex_chars_append {t : Token} (ht : t.Fits) {rest : List Char}
    (hrest : ∀ n, t = .num n → EndsNumber rest) :
    lex (t.chars ++ rest) = (lex rest).map (t :: ·) := by
  cases t with
  | num n =>
    obtain ⟨c, cs, htext, hblank, hscan⟩ := scanToken_text ht (hrest n rfl)
    rw [Token.chars, htext]
    exact lex_cons hblank hscan
  | str s =>
    rw [Token.chars, quote, List.cons_append, List.append_assoc]
    exact lex_cons rfl (scanString_quote s rest)
  | bool b => cases b <;> exact lex_cons rfl rfl
  | wideNumber | brokenString => exact ht.elim
  | leftBrace | rightBrace | leftBracket | rightBracket | colon | comma | null =>
    exact lex_cons rfl rfl

end Radiance.Json
