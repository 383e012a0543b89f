/-
  Proofs/Numerals.lean --- the text of a number, read again.

  WHAT THIS FILE IS FOR.  An integer is read again from its text as it was.  A double
  is not, since its text has six places only; but the double that is read has the
  same text (`Datum.ofWord_written_double`).  An infinity, or what is no number, is
  read as a symbol, and the text of a symbol is its name.
-/
import DynLisp.Datum.Printer
import DynLisp.Datum.Word
import DynLisp.Proofs.Bits
import DynLisp.Proofs.Nearest

set_option autoImplicit false

namespace DynLisp.Decimal

/-! ## Digits -/

theorem isDigit_toDigits (n : Nat) : ∀ c ∈ Nat.toDigits 10 n, c.isDigit = true :=
  fun _ hc => Nat.isDigit_of_mem_toDigits (by decide) (by decide) hc

theorem isDigit_paddedDigits (width n : Nat) : ∀ c ∈ paddedDigits width n, c.isDigit = true := by
  intro c hc
  rcases List.mem_append.mp hc with hzero | hdigit
  · rw [List.eq_of_mem_replicate hzero]
    rfl
  · exact isDigit_toDigits n c hdigit

theorem length_paddedDigits {width n : Nat} (hwidth : 0 < width) (h : n < 10 ^ width) :
    (paddedDigits width n).length = width := by
  have hle := (Nat.length_toDigits_le_iff (by decide) hwidth).mpr h
  simp only [paddedDigits, List.length_append, List.length_replicate]
  omega

theorem ofDigitChars_paddedDigits (width n : Nat) :
    Nat.ofDigitChars 10 (paddedDigits width n) 0 = n := by
  rw [paddedDigits, Nat.ofDigitChars_append, Nat.ofDigitChars_replicate_zero, Nat.mul_zero,
    Nat.ofDigitChars_ten_toDigits]

theorem splitDigits_append {digits : List Char} (hdigits : ∀ c ∈ digits, c.isDigit = true)
    (rest : List Char) (hrest : ∀ c, rest.head? = some c → c.isDigit = false) :
    splitDigits (digits ++ rest) = (digits, rest) := by
  unfold splitDigits
  rw [List.takeWhile_append_of_pos hdigits, List.dropWhile_append_of_pos hdigits]
  cases rest with
  | nil => simp
  | cons c more => simp [hrest c rfl]

theorem natural?_toDigits (n : Nat) : natural? (Nat.toDigits 10 n) = some n := by
  unfold natural?
  rw [if_pos ⟨Nat.toDigits_ne_nil, List.all_eq_true.mpr (isDigit_toDigits n)⟩,
    Nat.ofDigitChars_ten_toDigits]

/-! ## Signs -/

/-- A minus, or nothing. -/
def signText (negative : Bool) : List Char := if negative then ['-'] else []

/-- A sign is told from the digit that comes after it. -/
theorem splitSign_signText (negative : Bool) {c : Char} (hc : c.isDigit = true)
    (rest : List Char) : splitSign (signText negative ++ c :: rest) = (negative, c :: rest) := by
  cases negative with
  | true => rfl
  | false =>
    show splitSign (c :: rest) = _
    unfold splitSign
    split
    · rename_i heq
      rw [(List.cons.inj heq).1] at hc
      exact absurd hc (by decide)
    · rename_i heq
      rw [(List.cons.inj heq).1] at hc
      exact absurd hc (by decide)
    · rfl

theorem exists_cons_toDigits (n : Nat) :
    ∃ c rest, Nat.toDigits 10 n = c :: rest ∧ c.isDigit = true := by
  obtain ⟨c, rest, heq⟩ := List.exists_cons_of_ne_nil (@Nat.toDigits_ne_nil n 10)
  exact ⟨c, rest, heq, isDigit_toDigits n c (heq ▸ List.mem_cons_self)⟩

theorem splitSign_signText_toDigits (negative : Bool) (n : Nat) (rest : List Char) :
    splitSign (signText negative ++ (Nat.toDigits 10 n ++ rest)) =
      (negative, Nat.toDigits 10 n ++ rest) := by
  obtain ⟨c, more, heq, hc⟩ := exists_cons_toDigits n
  rw [heq]
  exact splitSign_signText negative hc (more ++ rest)

/-! ## Whole numbers -/

theorem whole?_toDigits (negative : Bool) (n : Nat) :
    whole? (signText negative ++ Nat.toDigits 10 n) =
      some (if negative then -(n : Int) else n) := by
  have hsplit := splitSign_signText_toDigits negative n []
  rw [List.append_nil] at hsplit
  unfold whole?
  rw [hsplit]
  dsimp only
  rw [natural?_toDigits]
  rfl

/-! ## Decimals -/

section Places

variable (negative : Bool) {places : Nat} (n : Nat)

theorem significand?_writePlaces :
    significand? (writePlaces places n) = some (Nat.toDigits 10 (n / 10 ^ places),
      paddedDigits places (n % 10 ^ places), []) := by
  have hbefore := splitDigits_append (isDigit_toDigits (n / 10 ^ places))
    ('.' :: paddedDigits places (n % 10 ^ places)) (by simp)
  have hafter := splitDigits_append (isDigit_paddedDigits places (n % 10 ^ places)) [] (by simp)
  rw [List.append_nil] at hafter
  unfold significand? writePlaces
  simp only [Nat.pow_eq, hbefore, hafter, Nat.toDigits_ne_nil, false_and, if_false]

/-- What was written with some places after the point is read as what was written. -/
theorem decimal?_writePlaces (hplaces : 0 < places) :
    decimal? (signText negative ++ writePlaces places n) = some (negative, ⟨n, -places⟩) := by
  have hsplit : splitSign (signText negative ++ writePlaces places n) =
      (negative, writePlaces places n) := splitSign_signText_toDigits negative _ _
  have hlength : (paddedDigits places (n % 10 ^ places)).length = places :=
    length_paddedDigits hplaces (Nat.mod_lt n (Nat.pow_pos (by decide)))
  unfold decimal?
  rw [hsplit]
  dsimp only
  rw [significand?_writePlaces]
  dsimp only [exponent?]
  rw [Nat.ofDigitChars_append, Nat.ofDigitChars_eq_ofDigitChars_zero, ofDigitChars_paddedDigits,
    Nat.ofDigitChars_ten_toDigits, hlength, Nat.div_add_mod, Int.zero_sub]

/-- What was written with some places after the point is a decimal from its front to its end. -/
theorem afterDecimal?_writePlaces :
    afterDecimal? (signText negative ++ writePlaces places n) = some [] := by
  have hsplit : splitSign (signText negative ++ writePlaces places n) =
      (negative, writePlaces places n) := splitSign_signText_toDigits negative _ _
  unfold afterDecimal?
  rw [hsplit, significand?_writePlaces]
  rfl

/-- The point tells it from a whole number. -/
theorem int64?_writePlaces : int64? (signText negative ++ writePlaces places n) = none := by
  have hsplit : splitSign (signText negative ++ writePlaces places n) =
      (negative, writePlaces places n) := splitSign_signText_toDigits negative _ _
  have hpoint : '.' ∈ writePlaces places n := by simp [writePlaces]
  have hnatural : natural? (writePlaces places n) = none := by
    unfold natural?
    rw [if_neg]
    rintro ⟨-, hall⟩
    exact absurd (List.all_eq_true.mp hall '.' hpoint) (by decide)
  unfold int64? whole?
  rw [hsplit]
  dsimp only
  rw [hnatural]
  rfl

end Places

/-! ## Doubles -/

theorem units_lt_of_lt {k m : Nat} (h : m < (k + 2) * binade) : units m < 2 * binade * 2 ^ k :=
  Nat.lt_of_lt_of_le (Nat.lt_add_of_pos_right (Nat.two_pow_pos k)) (units_add_le h)

theorem lt_pow_add_of_le_mul {n bound digits places : Nat} (h : bound < 10 ^ digits)
    (hn : n ≤ bound * 10 ^ places) : n < 10 ^ (digits + places) := by
  rw [Nat.pow_add]
  exact Nat.lt_of_le_of_lt hn (Nat.mul_lt_mul_of_pos_right h (Nat.pow_pos (by decide)))

/-- A finite double has 309 digits before the point at most. -/
theorem roundHalfEven_units_lt {m places : Nat} (hm : m < infinityMagnitude) :
    roundHalfEven (units m * 10 ^ places) unitsPerOne < 10 ^ (309 + places) := by
  have hsteps : 0 < 10 ^ places := Nat.pow_pos (by decide)
  have hunits : units m < 2 ^ 1024 * unitsPerOne := by
    calc units m < 2 * binade * 2 ^ 2045 := units_lt_of_lt hm
      _ = 2 ^ 1024 * unitsPerOne := by decide +kernel
  have hscaled : units m * 10 ^ places < 2 ^ 1024 * 10 ^ places * unitsPerOne := by
    rw [Nat.mul_right_comm]
    exact Nat.mul_lt_mul_of_pos_right hunits hsteps
  have hdigits : 2 ^ 1024 < 10 ^ 309 := by decide +kernel
  have hle := (nearest_roundHalfEven (units m * 10 ^ places) unitsPerOne_pos).le_of_lt hscaled
  exact lt_pow_add_of_le_mul hdigits hle

theorem nearest_zero (den : Nat) : nearest 0 den = 0 := by
  have hround : ∀ d, roundHalfEven 0 d = 0 := by
    intro d
    unfold roundHalfEven
    simp only [Nat.zero_div, Nat.zero_mod]
    split
    · rfl
    · split
      · omega
      · rfl
  rw [nearest_eq_min, nearestUnbounded]
  simp only [Nat.zero_mul, Nat.zero_div, hround]
  rfl

/-- A decimal that is in range is rounded as it is. -/
theorem toMagnitude_places {n places : Nat} (hplaces : places ≤ 330) (h : n < 10 ^ (309 + places)) :
    Scientific.toMagnitude ⟨n, -places⟩ = nearest n (10 ^ places) := by
  have hmost := (Nat.length_toDigits_le_iff (by decide) (by omega)).mpr h
  have hleast := @Nat.length_toDigits_pos 10 n
  unfold Scientific.toMagnitude
  dsimp only
  split
  · rename_i hzero
    rw [hzero, nearest_zero]
  · rw [if_neg (by omega), if_neg (by omega), Int.neg_neg, Int.toNat_natCast, Int.toNat_neg_natCast]
    rw [Nat.pow_eq, Nat.pow_eq, Nat.pow_zero, Nat.mul_one]

section Written

variable {x : Float} {places : Nat}

theorem writeFixed_of_lt (h : magnitude x < infinityMagnitude) :
    writeFixed places x = signText (isNegative x) ++
      writePlaces places (roundHalfEven (units (magnitude x) * 10 ^ places) unitsPerOne) := by
  unfold writeFixed writeSign signText
  dsimp only
  rw [if_pos h, decide_eq_true (Nat.le_of_lt h), Bool.and_true]
  rfl

/-- What is written for a finite double is read as one for which the same is written. -/
theorem double?_writeFixed (hplaces : 0 < places) (hplaces' : places ≤ 330)
    (h : magnitude x < infinityMagnitude) :
    ∃ y, double? (writeFixed places x) = some y ∧ writeFixed places y = writeFixed places x := by
  have hsteps : 0 < 10 ^ places := Nat.pow_pos (by decide)
  obtain ⟨hfinite, hsame⟩ := roundHalfEven_units_nearest hsteps h
  have hrange := toMagnitude_places hplaces' (roundHalfEven_units_lt h)
  refine ⟨ofMagnitude (isNegative x) (nearest
    (roundHalfEven (units (magnitude x) * 10 ^ places) unitsPerOne) (10 ^ places)), ?_, ?_⟩
  · unfold double?
    rw [writeFixed_of_lt h, decimal?_writePlaces _ _ hplaces]
    dsimp only
    rw [hrange]
  · have hmagnitude := magnitude_ofMagnitude (isNegative x) (Nat.le_of_lt hfinite)
    have hnegative := isNegative_ofMagnitude (isNegative x) (Nat.le_of_lt hfinite)
    rw [writeFixed_of_lt (by rw [hmagnitude]; exact hfinite), writeFixed_of_lt h, hmagnitude,
      hnegative, hsame]

end Written

end DynLisp.Decimal

namespace DynLisp

open Decimal

namespace Number

/-! ## The text of a number -/

/-- A character of a number's text: of digits, or of what is written for a double that is not
finite. -/
def isTextChar (c : Char) : Bool := c.isDigit || ['-', '.', 'i', 'n', 'f', 'N', 'a'].contains c

theorem written_integer (n : Int64) :
    (integer n).written = signText (decide (n.toInt < 0)) ++ Nat.toDigits 10 n.toInt.natAbs := by
  unfold written signText
  by_cases hnegative : n.toInt < 0 <;> simp [hnegative]

/-- What is written for a double that is not finite. -/
theorem writeFixed_of_ge {x : Float} (places : Nat) (h : ¬ magnitude x < infinityMagnitude) :
    writeFixed places x ∈ [['i', 'n', 'f'], ['-', 'i', 'n', 'f'], ['N', 'a', 'N']] := by
  unfold writeFixed writeSign writeNonFinite
  dsimp only
  rw [if_neg h]
  by_cases hinfinite : magnitude x = infinityMagnitude
  · cases isNegative x <;> simp [hinfinite]
  · have hgt : ¬ magnitude x ≤ infinityMagnitude := by omega
    simp [hinfinite, hgt]

theorem isTextChar_signText (negative : Bool) : ∀ c ∈ signText negative, isTextChar c = true := by
  cases negative <;> simp [signText, isTextChar]

theorem isTextChar_of_isDigit {c : Char} (h : c.isDigit = true) : isTextChar c = true := by
  unfold isTextChar
  rw [h, Bool.true_or]

theorem toNat_lt_of_isTextChar {c : Char} (h : isTextChar c = true) : c.toNat < 128 := by
  rcases Bool.or_eq_true_iff.mp h with hdigit | hother
  · exact Nat.lt_of_le_of_lt (Char.isDigit_iff_toNat.mp hdigit).2 (by decide)
  · have hothers : ['-', '.', 'i', 'n', 'f', 'N', 'a'].all (·.toNat < 128) = true := by decide
    exact of_decide_eq_true (List.all_eq_true.mp hothers c (List.contains_iff_mem.mp hother))

theorem isTextChar_writePlaces (places n : Nat) :
    ∀ c ∈ writePlaces places n, isTextChar c = true := by
  intro c hc
  unfold writePlaces at hc
  rcases List.mem_append.mp hc with hbefore | hafter
  · exact isTextChar_of_isDigit (isDigit_toDigits _ c hbefore)
  · rcases List.mem_cons.mp hafter with rfl | hafter
    · decide
    · exact isTextChar_of_isDigit (isDigit_paddedDigits _ _ c hafter)

/-- The text of a number is a word of such characters. -/
theorem isTextChar_written (n : Number) : ∀ c ∈ n.written, isTextChar c = true := by
  intro c hc
  cases n with
  | integer n =>
    rw [written_integer] at hc
    rcases List.mem_append.mp hc with hsign | hdigit
    · exact isTextChar_signText _ c hsign
    · exact isTextChar_of_isDigit (isDigit_toDigits _ c hdigit)
  | double x =>
    by_cases hfinite : magnitude x < infinityMagnitude
    · rw [written, writeFixed_of_lt hfinite] at hc
      rcases List.mem_append.mp hc with hsign | hplaces
      · exact isTextChar_signText _ c hsign
      · exact isTextChar_writePlaces _ _ c hplaces
    · have hall : ∀ text ∈ [['i', 'n', 'f'], ['-', 'i', 'n', 'f'], ['N', 'a', 'N']],
          text.all isTextChar = true := by decide
      exact List.all_eq_true.mp (hall _ (writeFixed_of_ge 6 hfinite)) c hc

theorem written_ne_nil (n : Number) : n.written ≠ [] := by
  cases n with
  | integer n =>
    rw [written_integer]
    exact List.append_ne_nil_of_right_ne_nil _ Nat.toDigits_ne_nil
  | double x =>
    by_cases hfinite : magnitude x < infinityMagnitude
    · rw [written, writeFixed_of_lt hfinite]
      apply List.append_ne_nil_of_right_ne_nil
      simp [writePlaces]
    · have hall : ∀ text ∈ [['i', 'n', 'f'], ['-', 'i', 'n', 'f'], ['N', 'a', 'N']],
          text ≠ [] := by decide
      exact hall _ (writeFixed_of_ge 6 hfinite)

end Number

namespace Datum

/-- A word is a number, or a symbol of that name. -/
theorem ofWord_cases (word : String) :
    (∃ n, ofWord word = number n) ∨ ofWord word = symbol word := by
  unfold ofWord ofWordBy
  split
  · exact .inl ⟨_, rfl⟩
  · dsimp only
    split
    · exact .inl ⟨_, rfl⟩
    · exact .inr rfl

/-- An integer is read from its text as it was. -/
theorem ofWord_written_integer (n : Int64) :
    ofWord (String.ofList (Number.integer n).written) = number (.integer n) := by
  have hvalue : (if decide (n.toInt < 0) = true then -(n.toInt.natAbs : Int) else n.toInt.natAbs) =
      n.toInt := by
    by_cases hnegative : n.toInt < 0
    · rw [if_pos (decide_eq_true hnegative)]
      omega
    · rw [if_neg (by rwa [decide_eq_true_iff])]
      omega
  have hread : int64? (Number.integer n).written = some n := by
    unfold int64?
    rw [Number.written_integer, whole?_toDigits, hvalue]
    dsimp only
    rw [if_pos ⟨n.le_toInt, n.toInt_lt⟩, Int64.ofInt_toInt]
  unfold ofWord ofWordBy
  rw [String.toList_ofList, hread]

/-- What is read from the text of a double has that text. -/
theorem written_ofWord_double (x : Float) :
    (ofWord (String.ofList (Number.double x).written)).written = (Number.double x).written := by
  by_cases hfinite : magnitude x < infinityMagnitude
  · obtain ⟨y, hread, hsame⟩ := @double?_writeFixed x 6 (by decide) (by decide) hfinite
    have hwhole : int64? (Number.double x).written = none := by
      rw [Number.written, writeFixed_of_lt hfinite]
      exact int64?_writePlaces _ _
    have hdecimal : afterDecimal? (Number.double x).written = some [] := by
      rw [Number.written, writeFixed_of_lt hfinite]
      exact afterDecimal?_writePlaces _ _
    have hword : ofWord (String.ofList (Number.double x).written) = number (.double y) := by
      unfold ofWord ofWordBy
      rw [String.toList_ofList, hwhole]
      dsimp only
      rw [hdecimal, Number.written, hread]
      rfl
    rw [hword]
    exact hsame
  · have hall : ∀ text ∈ [['i', 'n', 'f'], ['-', 'i', 'n', 'f'], ['N', 'a', 'N']],
        ofWord (String.ofList text) = symbol (String.ofList text) := by
      intro text htext
      simp only [List.mem_cons, List.not_mem_nil, or_false] at htext
      rcases htext with rfl | rfl | rfl <;> rfl
    have hword : ofWord (String.ofList (Number.double x).written) = symbol _ :=
      hall _ (Number.writeFixed_of_ge 6 hfinite)
    rw [hword, written, String.toList_ofList]

end Datum

end DynLisp
