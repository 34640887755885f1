import EstarGo.Config.IniReader
import Mathlib.Data.List.TakeWhile

/-!
# Numerals in a configuration file

A numeral is a sign, digits, and for a number that is not an integer a fraction
and an exponent.  `atoi` and `atof` read it with blanks around it.

## Main definitions

* `Numeral` — a numeral, by its parts.
* `IntText`, `FloatText` — the texts that denote a number.

## Main results

* `atoi_of_intText`, `atof_of_floatText`: what is read is what is denoted.

## Design notes

**A grammar beside the functions.**  What a text denotes is said by the numeral
it is written from, and not by what a function finds in it.  The functions read
as far as they can, and the results are that they read all of a numeral and stop
behind it.

**Rounding** is left out: a numeral denotes a rational number, and `atof` reads
that.
-/

namespace EstarGo

/-- A space or a tab, which may stand around a value. -/
def isBlank (c : Char) : Bool := c = ' ' || c = '\t'

/-- Nothing but blanks, or nothing at all. -/
def Blanks (text : Text) : Prop := text.all isBlank = true

/-- Nothing but digits, or nothing at all. -/
def Digits (text : Text) : Prop := text.all Char.isDigit = true

instance (text : Text) : Decidable (Blanks text) := inferInstanceAs (Decidable (_ = _))

instance (text : Text) : Decidable (Digits text) := inferInstanceAs (Decidable (_ = _))

/-- The sign of a numeral, or none. -/
inductive Sign where
  | none
  | plus
  | minus
  deriving DecidableEq, Repr

namespace Sign

/-- How a sign is written. -/
def text : Sign → Text
  | none => []
  | plus => ['+']
  | minus => ['-']

/-- A number with a sign. -/
def apply {α : Type} [Neg α] : Sign → α → α
  | none, x => x
  | plus, x => x
  | minus, x => -x

end Sign

/-- A numeral, by its parts: the digits as they are written.  Leading zeros are
allowed, and so is a fraction without digits. -/
structure Numeral where
  sign : Sign
  whole : Text
  fraction : Option Text
  exponent : Option (Sign × Text)
  deriving DecidableEq, Repr

namespace Numeral

/-- How an exponent is written. -/
def exponentText (n : Numeral) : Text := n.exponent.elim [] fun x => 'e' :: (x.1.text ++ x.2)

/-- How a fraction is written. -/
def fractionText (n : Numeral) : Text := n.fraction.elim [] ('.' :: ·)

/-- How a numeral is written. -/
def text (n : Numeral) : Text := n.sign.text ++ n.whole ++ n.fractionText ++ n.exponentText

/-- The number that a numeral denotes. -/
def value (n : Numeral) : ℚ :=
  n.sign.apply
    ((decimal n.whole + decimal (n.fraction.getD []) / 10 ^ (n.fraction.getD []).length) *
      10 ^ n.exponent.elim (0 : ℤ) fun x => x.1.apply (decimal x.2 : ℤ))

/-- A numeral has digits, and so has its exponent. -/
structure Wf (n : Numeral) : Prop where
  whole : n.whole ≠ [] ∧ Digits n.whole
  fraction : ∀ t ∈ n.fraction, Digits t
  exponent : ∀ x ∈ n.exponent, x.2 ≠ [] ∧ Digits x.2

end Numeral

/-- A text that denotes an `int`: a sign and digits, within its range.  What
`atoi` does beyond the range is undefined, so nothing is said of it. -/
def IntText (text : Text) (n : ℤ) : Prop :=
  ∃ (sign : Sign) (digits : Text), digits ≠ [] ∧ Digits digits ∧ text = sign.text ++ digits ∧
    n = sign.apply (decimal digits : ℤ) ∧ -2 ^ 31 ≤ n ∧ n < 2 ^ 31

/-- A text that denotes a number. -/
def FloatText (text : Text) (x : ℚ) : Prop := ∃ n : Numeral, n.Wf ∧ text = n.text ∧ x = n.value

/-! ## Digits and what follows them

Where a number ends. -/

/-- The text does not go on with a digit.  This is what ends the digits that are
read. -/
def Stops (text : Text) : Prop := ∀ c ∈ text.head?, c.isDigit = false

/-- What is taken while a test holds, where it holds up to a place. -/
theorem takeWhile_stop {p : Char → Bool} {text rest : Text} (inside : ∀ c ∈ text, p c = true)
    (boundary : ∀ c ∈ rest.head?, p c = false) : (text ++ rest).takeWhile p = text := by
  rw [List.takeWhile_append_of_pos inside]
  cases rest with
  | nil => rw [List.takeWhile_nil, List.append_nil]
  | cons c rest =>
      rw [List.takeWhile_cons_of_neg (by simp [boundary c rfl]), List.append_nil]

theorem dropWhile_stop {p : Char → Bool} {text rest : Text} (inside : ∀ c ∈ text, p c = true)
    (boundary : ∀ c ∈ rest.head?, p c = false) : (text ++ rest).dropWhile p = rest := by
  rw [List.dropWhile_append_of_pos inside]
  cases rest with
  | nil => rfl
  | cons c rest => rw [List.dropWhile_cons_of_neg (by simp [boundary c rfl])]

/-- The digits of a text are those up to the first other character. -/
theorem takeWhile_digits {digits rest : Text} (hdigits : Digits digits) (hrest : Stops rest) :
    (digits ++ rest).takeWhile Char.isDigit = digits :=
  takeWhile_stop (List.all_eq_true.mp hdigits) hrest

theorem dropWhile_digits {digits rest : Text} (hdigits : Digits digits) (hrest : Stops rest) :
    (digits ++ rest).dropWhile Char.isDigit = rest :=
  dropWhile_stop (List.all_eq_true.mp hdigits) hrest

/-- A blank is a space to the C library. -/
theorem isSpace_of_isBlank {c : Char} (h : isBlank c = true) : isSpace c = true := by
  rw [isBlank, Bool.or_eq_true, decide_eq_true_eq, decide_eq_true_eq] at h
  rcases h with rfl | rfl <;> decide

theorem isDigit_of_isBlank {c : Char} (h : isBlank c = true) : c.isDigit = false := by
  rw [isBlank, Bool.or_eq_true, decide_eq_true_eq, decide_eq_true_eq] at h
  rcases h with rfl | rfl <;> decide

theorem stops_of_blanks {blanks : Text} (h : Blanks blanks) : Stops blanks := fun c hc =>
  isDigit_of_isBlank (List.all_eq_true.mp h c (List.mem_of_mem_head? hc))

theorem dropWhile_blanks {blanks rest : Text} (hblanks : Blanks blanks)
    (hrest : ∀ c ∈ rest.head?, isSpace c = false) :
    (blanks ++ rest).dropWhile isSpace = rest :=
  dropWhile_stop (fun c hc => isSpace_of_isBlank (List.all_eq_true.mp hblanks c hc)) hrest

/-- Digits, with a sign or without, begin with no blank. -/
theorem not_isSpace_sign {sign : Sign} {digits rest : Text} (hne : digits ≠ [])
    (hdigits : Digits digits) :
    ∀ c ∈ (sign.text ++ (digits ++ rest)).head?, isSpace c = false := by
  intro c hc
  cases sign with
  | plus =>
      obtain rfl := Option.some.inj hc
      decide
  | minus =>
      obtain rfl := Option.some.inj hc
      decide
  | none =>
      cases digits with
      | nil => exact absurd rfl hne
      | cons d digits =>
          obtain rfl := Option.some.inj hc
          rw [Digits, List.all_cons, Bool.and_eq_true] at hdigits
          exact isSpace_of_isDigit hdigits.1

/-- Digits do not begin with another character. -/
theorem digits_ne_cons {digits rest more : Text} (hne : digits ≠ []) (hdigits : Digits digits)
    {c : Char} (hc : c.isDigit = false) : digits ++ rest ≠ c :: more := by
  intro heq
  cases digits with
  | nil => exact hne rfl
  | cons d digits =>
      rw [Digits, List.all_cons, Bool.and_eq_true] at hdigits
      obtain rfl := (List.cons.inj heq).1
      rw [hdigits.1] at hc
      cases hc

/-! ## `atoi` -/

theorem strtolDigits_append {digits rest : Text} (hdigits : Digits digits) (hrest : Stops rest)
    (n : ℤ) : strtolDigits (digits ++ rest) n = strtolDigits digits n := by
  induction digits generalizing n with
  | nil =>
      cases rest with
      | nil => rfl
      | cons c rest => simp [strtolDigits, hrest c rfl]
  | cons d digits ih =>
      rw [Digits, List.all_cons, Bool.and_eq_true] at hdigits
      rw [List.cons_append, strtolDigits, strtolDigits, if_pos hdigits.1, if_pos hdigits.1,
        ih hdigits.2]

/-- With a sign or without, it reads what they denote. -/
theorem strtolSigned_digits {sign : Sign} {digits rest : Text} (hne : digits ≠ [])
    (hdigits : Digits digits) (hrest : Stops rest) :
    strtolSigned (sign.text ++ (digits ++ rest)) = sign.apply (decimal digits : ℤ) := by
  have hread : strtolDigits (digits ++ rest) 0 = decimal digits := by
    rw [strtolDigits_append hdigits hrest]
    exact strtolDigits_eq hdigits 0
  cases sign with
  | plus => exact hread
  | minus => exact congrArg Neg.neg hread
  | none =>
      rw [Sign.text, List.nil_append, strtolSigned]
      · exact hread
      · exact fun more => digits_ne_cons hne hdigits (by decide)
      · exact fun more => digits_ne_cons hne hdigits (by decide)

/-- **`atoi` reads the integer that a text between blanks denotes.**  Blanks in
front are skipped, and those behind end the digits. -/
theorem atoi_of_intText {lead value trail : Text} {n : ℤ} (hlead : Blanks lead)
    (hvalue : IntText value n) (htrail : Blanks trail) : atoi (lead ++ value ++ trail) = n := by
  obtain ⟨sign, digits, hne, hdigits, rfl, rfl, hlo, hhi⟩ := hvalue
  have hread : strtol (lead ++ (sign.text ++ digits) ++ trail) =
      sign.apply (decimal digits : ℤ) := by
    rw [strtol, List.append_assoc, List.append_assoc,
      dropWhile_blanks hlead (not_isSpace_sign hne hdigits),
      strtolSigned_digits hne hdigits (stops_of_blanks htrail)]
    omega
  rw [atoi, hread, toInt, Int.bmod_eq_of_le] <;> omega

/-! ## `atof` -/

namespace Numeral

/-- An exponent does not begin with a digit, nor does what follows a number
without one. -/
theorem stops_exponentText (n : Numeral) {trail : Text} (htrail : Stops trail) :
    Stops (n.exponentText ++ trail) := by
  rw [exponentText]
  cases n.exponent with
  | none => exact htrail
  | some x =>
      intro c hc
      obtain rfl := Option.some.inj hc
      decide

theorem stops_fractionText (n : Numeral) {trail : Text} (htrail : Stops trail) :
    Stops (n.fractionText ++ (n.exponentText ++ trail)) := by
  rw [fractionText]
  cases n.fraction with
  | none => exact n.stops_exponentText htrail
  | some t =>
      intro c hc
      obtain rfl := Option.some.inj hc
      decide

/-- The digits of the fraction, and what follows them. -/
theorem atofFraction_eq {n : Numeral} (hn : n.Wf) {trail : Text} (htrail : Blanks trail) :
    atofFraction (n.fractionText ++ (n.exponentText ++ trail)) = n.fraction.getD [] ∧
      atofRest (n.fractionText ++ (n.exponentText ++ trail)) = n.exponentText ++ trail := by
  have hstops := n.stops_exponentText (stops_of_blanks htrail)
  rw [fractionText]
  cases hfraction : n.fraction with
  | some t =>
      have hdigits := hn.fraction t hfraction
      exact ⟨takeWhile_digits hdigits hstops, dropWhile_digits hdigits hstops⟩
  | none =>
      have hpoint : ∀ rest, n.exponentText ++ trail ≠ '.' :: rest := by
        intro rest heq
        cases hexp : n.exponent with
        | some x =>
            rw [exponentText, hexp] at heq
            exact absurd (List.cons.inj heq).1 (by decide)
        | none =>
            rw [exponentText, hexp] at heq
            obtain rfl : trail = '.' :: rest := heq
            exact absurd htrail (by simp [Blanks, isBlank])
      rw [Option.elim_none, List.nil_append, atofFraction, atofRest]
      · exact ⟨rfl, rfl⟩
      · exact hpoint
      · exact hpoint

/-- Without an exponent, it is zero. -/
theorem atofExponent_blanks {trail : Text} (htrail : Blanks trail) : atofExponent trail = 0 := by
  cases trail with
  | nil => rfl
  | cons c rest =>
      rw [Blanks, List.all_cons, Bool.and_eq_true] at htrail
      have hc : ¬(c = 'e' ∨ c = 'E') := by
        rintro (rfl | rfl)
        · exact absurd htrail.1 (by decide)
        · exact absurd htrail.1 (by decide)
      unfold atofExponent
      split
      · next heq =>
          obtain ⟨rfl, -⟩ := List.cons.inj heq
          exact if_neg hc
      · next heq =>
          obtain ⟨rfl, -⟩ := List.cons.inj heq
          exact if_neg hc
      · next heq =>
          obtain ⟨rfl, -⟩ := List.cons.inj heq
          exact if_neg hc
      · rfl

/-- The exponent is read with its sign. -/
theorem atofExponent_eq {n : Numeral} (hn : n.Wf) {trail : Text} (htrail : Blanks trail) :
    atofExponent (n.exponentText ++ trail) =
      n.exponent.elim (0 : ℤ) fun x => x.1.apply (decimal x.2 : ℤ) := by
  rw [exponentText]
  cases hexp : n.exponent with
  | none => exact atofExponent_blanks htrail
  | some x =>
      obtain ⟨hne, hdigits⟩ := hn.exponent x hexp
      have hread := takeWhile_digits hdigits (stops_of_blanks htrail)
      obtain ⟨sign, digits⟩ := x
      simp only [Option.elim_some, List.cons_append, List.append_assoc]
      cases sign with
      | minus => simp [Sign.text, Sign.apply, atofExponent, hread]
      | plus => simp [Sign.text, Sign.apply, atofExponent, hread]
      | none =>
          rw [Sign.text, List.nil_append, atofExponent, if_pos (.inl rfl), hread]
          · rfl
          · exact fun more => digits_ne_cons hne hdigits (by decide)
          · exact fun more => digits_ne_cons hne hdigits (by decide)

theorem atofUnsigned_eq {n : Numeral} (hn : n.Wf) {trail : Text} (htrail : Blanks trail) :
    atofUnsigned (n.whole ++ (n.fractionText ++ (n.exponentText ++ trail))) =
      (decimal n.whole + decimal (n.fraction.getD []) / 10 ^ (n.fraction.getD []).length) *
        10 ^ n.exponent.elim (0 : ℤ) fun x => x.1.apply (decimal x.2 : ℤ) := by
  have hstops := n.stops_fractionText (stops_of_blanks htrail)
  obtain ⟨hfraction, hrest⟩ := atofFraction_eq hn htrail
  simp only [atofUnsigned, takeWhile_digits hn.whole.2 hstops, dropWhile_digits hn.whole.2 hstops,
    hfraction, hrest, atofExponent_eq hn htrail]

end Numeral

/-- **`atof` reads the number that a text between blanks denotes.**  It is the
rational number; that a float is only close to it is not modelled. -/
theorem atof_of_floatText {lead value trail : Text} {x : ℚ} (hlead : Blanks lead)
    (hvalue : FloatText value x) (htrail : Blanks trail) : atof (lead ++ value ++ trail) = x := by
  obtain ⟨n, hn, rfl, rfl⟩ := hvalue
  have hread := n.atofUnsigned_eq hn htrail
  have hdrop : (lead ++ n.text ++ trail).dropWhile isSpace =
      n.sign.text ++ (n.whole ++ (n.fractionText ++ (n.exponentText ++ trail))) := by
    rw [Numeral.text]
    simp only [List.append_assoc]
    exact dropWhile_blanks hlead (not_isSpace_sign hn.whole.1 hn.whole.2)
  rw [atof, hdrop, Numeral.value]
  cases n.sign with
  | plus => exact hread
  | minus => exact congrArg Neg.neg hread
  | none =>
      rw [Sign.text, List.nil_append]
      split
      · next heq => exact absurd heq (digits_ne_cons hn.whole.1 hn.whole.2 (by decide))
      · next heq => exact absurd heq (digits_ne_cons hn.whole.1 hn.whole.2 (by decide))
      · exact hread

end EstarGo
