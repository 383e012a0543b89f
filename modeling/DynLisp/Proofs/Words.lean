/-
  Proofs/Words.lean --- the three classes of bare words.

  WHAT THIS FILE IS FOR.  A word is an integer, a double or a symbol.  Three things that
  read numbers by different grammars are tried on it: every whole number is a numeral as
  well, so that the order of the attempts matters there, and what reads doubles also takes
  the names of infinities and of what is no number, which are symbols only because of the
  guard (`Datum.ofWordBy_classified`).

  THE GUARD.  All that it relies on is that numerals are taken off the front of a text, and
  it does not matter by what (`Datum.ofWord_eq_ofWordBy`).
-/
import DynLisp.Proofs.Grammar

set_option autoImplicit false

namespace DynLisp.Datum

open Decimal

theorem exists_toInt_eq_iff {z : Int} :
    (∃ n : Int64, n.toInt = z) ↔ -2 ^ 63 ≤ z ∧ z ≤ 2 ^ 63 - 1 := by
  constructor
  · rintro ⟨n, rfl⟩
    exact ⟨n.le_toInt, Int.le_sub_one_of_lt n.toInt_lt⟩
  · rintro ⟨hle, hlt⟩
    exact ⟨Int64.ofInt z, Int64.toInt_ofInt_of_le hle (Int.lt_of_le_sub_one hlt)⟩

/-! ## The three classes -/

section Classes

variable {after? : List Char → Option (List Char)} {word : String}

theorem ofWordBy_of_whole {n : Int64} (hwhole : Whole word.toList n.toInt) :
    ofWordBy after? word = number (.integer n) := by
  unfold ofWordBy
  rw [int64?_eq_some_iff.mpr hwhole]

section Guarded

variable (hafter : TakesDecimals after?)
include hafter

theorem ofWordBy_of_numeral (hno : ∀ n : Int64, ¬ Whole word.toList n.toInt) {negative : Bool}
    {size : Scientific} (h : Numeral word.toList negative size) :
    ofWordBy after? word = number (.double (ofMagnitude negative size.toMagnitude)) := by
  have hnone : int64? word.toList = none :=
    Option.eq_none_iff_forall_ne_some.mpr fun n hn => hno n (int64?_eq_some_iff.mp hn)
  unfold ofWordBy
  rw [hnone, hafter.whole h, h.double?_eq]
  rfl

/-- The guard refuses whatever is no numeral, also if it could be read as a double. -/
theorem ofWordBy_of_not_numeral (hno : ¬ ∃ negative size, Numeral word.toList negative size) :
    ofWordBy after? word = symbol word := by
  have hnone : int64? word.toList = none :=
    Option.eq_none_iff_forall_ne_some.mpr fun n hn => hno (int64?_eq_some_iff.mp hn).numeral
  have hguard : decide (after? word.toList = some []) = false :=
    decide_eq_false fun hnil => hno (hafter.eq_nil_iff.mp hnil)
  unfold ofWordBy
  rw [hnone]
  dsimp only
  rw [hguard]
  cases double? word.toList <;> rfl

/-- A word is a whole number of 64 bits, or another numeral, or none. -/
theorem ofWordBy_cases (word : String) :
    (∃ n : Int64, Whole word.toList n.toInt ∧ ofWordBy after? word = number (.integer n)) ∨
      ((∀ n : Int64, ¬ Whole word.toList n.toInt) ∧ ∃ negative size,
        Numeral word.toList negative size ∧
          ofWordBy after? word = number (.double (ofMagnitude negative size.toMagnitude))) ∨
      (¬ ∃ negative size, Numeral word.toList negative size) ∧
        ofWordBy after? word = symbol word := by
  by_cases hnumeral : ∃ negative size, Numeral word.toList negative size
  · by_cases hwhole : ∃ n : Int64, Whole word.toList n.toInt
    · obtain ⟨n, hn⟩ := hwhole
      exact .inl ⟨n, hn, ofWordBy_of_whole hn⟩
    · obtain ⟨negative, size, h⟩ := hnumeral
      have hno := not_exists.mp hwhole
      exact .inr (.inl ⟨hno, negative, size, h, ofWordBy_of_numeral hafter hno h⟩)
  · exact .inr (.inr ⟨hnumeral, ofWordBy_of_not_numeral hafter hnumeral⟩)

theorem ofWordBy_eq_integer_iff {n : Int64} :
    ofWordBy after? word = number (.integer n) ↔ Whole word.toList n.toInt := by
  refine ⟨fun h => ?_, ofWordBy_of_whole⟩
  rcases ofWordBy_cases hafter word with ⟨m, hm, heq⟩ | ⟨-, _, _, -, heq⟩ | ⟨-, heq⟩
  all_goals rw [heq] at h
  · obtain rfl : m = n := by simpa using h
    exact hm
  · simp at h
  · simp at h

theorem ofWordBy_eq_double_iff {x : Float} :
    ofWordBy after? word = number (.double x) ↔
      (∀ n : Int64, ¬ Whole word.toList n.toInt) ∧
        ∃ negative size, Numeral word.toList negative size ∧
          x = ofMagnitude negative size.toMagnitude := by
  constructor
  · intro h
    rcases ofWordBy_cases hafter word with ⟨_, -, heq⟩ | ⟨hno, _, _, hnumeral, heq⟩ | ⟨-, heq⟩
    all_goals rw [heq] at h
    · simp at h
    · obtain rfl : _ = x := by simpa using h
      exact ⟨hno, _, _, hnumeral, rfl⟩
    · simp at h
  · rintro ⟨hno, negative, size, hnumeral, rfl⟩
    exact ofWordBy_of_numeral hafter hno hnumeral

/-- A word is a symbol exactly if it is no decimal, and then it is the symbol of that name. -/
theorem ofWordBy_eq_symbol_iff {name : String} :
    ofWordBy after? word = symbol name ↔
      (¬ ∃ negative size, Numeral word.toList negative size) ∧ name = word := by
  constructor
  · intro h
    rcases ofWordBy_cases hafter word with ⟨_, -, heq⟩ | ⟨-, _, _, -, heq⟩ | ⟨hno, heq⟩
    all_goals rw [heq] at h
    · simp at h
    · simp at h
    · exact ⟨hno, (symbol.inj h).symm⟩
  · rintro ⟨hno, rfl⟩
    exact ofWordBy_of_not_numeral hafter hno

/-- It does not matter what takes the decimal off. -/
theorem ofWord_eq_ofWordBy (word : String) : ofWord word = ofWordBy after? word := by
  have hown := takesDecimals_afterDecimal?
  unfold ofWord
  rcases ofWordBy_cases hafter word with
    ⟨n, hn, heq⟩ | ⟨hno, _, _, hnumeral, heq⟩ | ⟨hno, heq⟩
  · rw [heq, ofWordBy_of_whole hn]
  · rw [heq, ofWordBy_of_numeral hown hno hnumeral]
  · rw [heq, ofWordBy_of_not_numeral hown hno]

end Guarded

end Classes

/-- Whatever it is that takes numerals off the front of a text, a word is an integer exactly if it
is a whole number that fits in 64 bits, and then the one that it denotes.  If it is not, it is a
double exactly if it is a decimal, and then the nearest one.  If it is neither, it is the symbol of
that name.  So a whole number that does not fit is a double, a name by which a double could be
called is a symbol, and so is every word without a digit.  What is written for an integer is that
integer. -/
theorem ofWordBy_classified {after? : List Char → Option (List Char)}
    (hafter : TakesDecimals after?) (word : String) :
    let text := word.toList
    let atom := ofWordBy after? word
    let fits (z : Int) := -2 ^ 63 ≤ z ∧ z ≤ 2 ^ 63 - 1
    ofWord word = atom ∧
    (∀ z, (∃ n : Int64, atom = number (.integer n) ∧ n.toInt = z) ↔ Whole text z ∧ fits z) ∧
    (∀ x, atom = number (.double x) ↔
      (¬ ∃ z, Whole text z ∧ fits z) ∧
        ∃ negative size, Numeral text negative size ∧ x = ofMagnitude negative size.toMagnitude) ∧
    (∀ name, atom = symbol name ↔
      (¬ ∃ negative size, Numeral text negative size) ∧ name = word) ∧
    (∀ z, Whole text z → ¬ fits z → ∃ x, atom = number (.double x)) ∧
    (∀ negative magnitude, Named text negative magnitude →
      double? text = some (ofMagnitude negative magnitude) ∧ atom = symbol word) ∧
    ((∀ c ∈ text, c.isDigit = false) → atom = symbol word) ∧
    ∀ n : Int64, ofWordBy after? (String.ofList (Number.integer n).written) =
      number (.integer n) := by
  intro text atom fits
  have hfits : (∃ z, Whole text z ∧ fits z) ↔ ∃ n : Int64, Whole text n.toInt := by
    constructor
    · rintro ⟨z, hz, hrange⟩
      obtain ⟨n, rfl⟩ := exists_toInt_eq_iff.mpr hrange
      exact ⟨n, hz⟩
    · rintro ⟨n, hn⟩
      exact ⟨n.toInt, hn, exists_toInt_eq_iff.mp ⟨n, rfl⟩⟩
  have hdouble : ∀ x, atom = number (.double x) ↔
      (¬ ∃ z, Whole text z ∧ fits z) ∧ ∃ negative size, Numeral text negative size ∧
        x = ofMagnitude negative size.toMagnitude := by
    intro x
    rw [hfits, not_exists]
    exact ofWordBy_eq_double_iff hafter
  refine ⟨ofWord_eq_ofWordBy hafter word, fun z => ?integer, hdouble,
    fun _ => ofWordBy_eq_symbol_iff hafter, fun z hz hlarge => ?large, fun _ _ hnamed =>
    ⟨hnamed.double?_eq, ofWordBy_of_not_numeral hafter hnamed.not_numeral⟩, fun hnone => ?digitless,
    fun n => ?written⟩
  case integer =>
    constructor
    · rintro ⟨n, hn, rfl⟩
      exact ⟨(ofWordBy_eq_integer_iff hafter).mp hn, exists_toInt_eq_iff.mp ⟨n, rfl⟩⟩
    · rintro ⟨hz, hrange⟩
      obtain ⟨n, rfl⟩ := exists_toInt_eq_iff.mpr hrange
      exact ⟨n, ofWordBy_of_whole hz, rfl⟩
  case large =>
    obtain ⟨negative, size, hnumeral⟩ := hz.numeral
    refine ⟨_, (hdouble _).mpr ⟨?_, negative, size, hnumeral, rfl⟩⟩
    -- a text denotes one whole number only
    rintro ⟨z', hz', hrange⟩
    obtain rfl : z' = z := Option.some.inj (hz'.whole?_eq.symm.trans hz.whole?_eq)
    exact hlarge hrange
  case digitless =>
    refine ofWordBy_of_not_numeral hafter ?_
    rintro ⟨negative, size, hnumeral⟩
    obtain ⟨c, hc, hdigit⟩ := hnumeral.exists_isDigit
    rw [hnone c hc] at hdigit
    exact Bool.false_ne_true hdigit
  case written => rw [← ofWord_eq_ofWordBy hafter, ofWord_written_integer]

/-- The least integer with zeros in front, the whole number after the largest, a name by which a
double could be called, and an exponent without digits. -/
theorem ofWordBy_classified_limits :
    let atom := ofWordBy afterDecimal?
    TakesDecimals afterDecimal? ∧
      Whole "-009223372036854775808".toList (-2 ^ 63) ∧
      atom "-009223372036854775808" = number (.integer Int64.minValue) ∧
      Whole "9223372036854775808".toList (2 ^ 63) ∧
      (∃ x, atom "9223372036854775808" = number (.double x)) ∧
      double? "-Infinity".toList = some (ofMagnitude true infinityMagnitude) ∧
      atom "-Infinity" = symbol "-Infinity" ∧
      afterDecimal? "1e".toList = none ∧ atom "1e" = symbol "1e" := by
  intro atom
  have hafter := takesDecimals_afterDecimal?
  have hleast : Whole "-009223372036854775808".toList (-2 ^ 63) :=
    @Whole.digits _ "009223372036854775808".toList _ .minus (by decide) (by simp)
  have hlarge : Whole "9223372036854775808".toList (2 ^ 63) :=
    @Whole.digits _ "9223372036854775808".toList _ .nothing (by decide) (by simp)
  have hnamed : Named "-Infinity".toList true infinityMagnitude :=
    @Named.parts _ "Infinity".toList _ _ .minus (.infinity (by decide))
  have hspoilt : afterDecimal? "1e".toList = none := by decide
  obtain ⟨-, hinteger, -⟩ := ofWordBy_classified hafter "-009223372036854775808"
  obtain ⟨n, hword, hn⟩ := (hinteger (-2 ^ 63)).mpr ⟨hleast, by decide, by decide⟩
  obtain rfl : n = Int64.minValue := Int64.toInt_inj.mp hn
  obtain ⟨-, -, -, -, hdouble, -⟩ := ofWordBy_classified hafter "9223372036854775808"
  obtain ⟨-, -, -, -, -, hsymbol, -⟩ := ofWordBy_classified hafter "-Infinity"
  obtain ⟨hcalled, hsymbol⟩ := hsymbol _ _ hnamed
  obtain ⟨-, -, -, hclass, -⟩ := ofWordBy_classified hafter "1e"
  have hno : ¬ ∃ negative size, Numeral "1e".toList negative size := by
    rw [← hafter.eq_nil_iff, hspoilt]
    simp
  exact ⟨hafter, hleast, hword, hlarge, hdouble _ hlarge (by decide), hcalled, hsymbol, hspoilt,
    (hclass _).mpr ⟨hno, rfl⟩⟩

end DynLisp.Datum
