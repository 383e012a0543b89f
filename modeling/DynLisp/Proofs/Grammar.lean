/-
  Proofs/Grammar.lean --- the texts that are numbers, told by grammars.

  WHAT THIS FILE IS FOR.  The functions that recognise numbers take a text apart from its
  front.  Here are the texts that they are to recognise, as relations that mention none of
  them: a `Whole` number is a sign or none and one or more digits, a `Numeral` has a
  `Significand` and an `Exponent`, and a double can be `Named`.  The functions find exactly
  these and what they denote (`whole?_eq_some_iff`, `decimal?_eq_some_iff`,
  `double?_eq_some_iff`).

  THE FRONT OF A TEXT.  A numeral can also be taken off a text that goes on after it.  What
  is asked of whatever does so is that it takes off a numeral, and all of the text if that
  is one (`TakesDecimals`).
-/
import DynLisp.Proofs.Numerals

set_option autoImplicit false

namespace DynLisp.Decimal

/-! ## The grammars -/

/-- The text is a sign or nothing, and the sign is a minus or is not. -/
inductive Sign : List Char → (negative : Bool) → Prop where
  | nothing : Sign [] false
  | plus : Sign ['+'] false
  | minus : Sign ['-'] true

/-- The text is a whole number: a sign or none, and one or more digits. -/
inductive Whole : List Char → Int → Prop where
  | digits {sign digits : List Char} {negative : Bool} (hsign : Sign sign negative)
      (hne : digits ≠ []) (hdigits : ∀ c ∈ digits, c.isDigit = true) :
    Whole (sign ++ digits)
      (if negative then -(Nat.ofDigitChars 10 digits 0 : Int) else Nat.ofDigitChars 10 digits 0)

/-- The text is made of some digits before a point and some after it.  The point may be missing if
there are none after it, and one of the two runs may be empty. -/
inductive Significand : List Char → (before after : List Char) → Prop where
  | noPoint {before : List Char} (hne : before ≠ [])
      (hbefore : ∀ c ∈ before, c.isDigit = true) : Significand before before []
  | point {before after : List Char} (hne : before ≠ [])
      (hbefore : ∀ c ∈ before, c.isDigit = true) (hafter : ∀ c ∈ after, c.isDigit = true) :
    Significand (before ++ '.' :: after) before after
  | pointFirst {after : List Char} (hne : after ≠ [])
      (hafter : ∀ c ∈ after, c.isDigit = true) : Significand ('.' :: after) [] after

/-- The text is nothing, or a mark and a whole number. -/
inductive Exponent : List Char → Int → Prop where
  | nothing : Exponent [] 0
  | marked {mark : Char} {text : List Char} {n : Int} (hmark : mark = 'e' ∨ mark = 'E')
      (h : Whole text n) : Exponent (mark :: text) n

/-- The text is a decimal: a sign or none, a significand, and an exponent or none.  Each digit after
the point makes the exponent one less. -/
inductive Numeral : List Char → (negative : Bool) → Scientific → Prop where
  | parts {sign significand exponent before after : List Char} {negative : Bool} {n : Int}
      (hsign : Sign sign negative) (hsignificand : Significand significand before after)
      (hexponent : Exponent exponent n) :
    Numeral (sign ++ (significand ++ exponent)) negative
      ⟨Nat.ofDigitChars 10 (before ++ after) 0, n - after.length⟩

/-- The word is what a magnitude is called, in letters of either case. -/
inductive Name : List Char → (magnitude : Nat) → Prop where
  | inf {word : List Char} (h : word.map Char.toLower = "inf".toList) : Name word infinityMagnitude
  | infinity {word : List Char} (h : word.map Char.toLower = "infinity".toList) :
    Name word infinityMagnitude
  | nan {word : List Char} (h : word.map Char.toLower = "nan".toList) :
    Name word notANumberMagnitude

/-- The text is a sign or none, and what a magnitude is called. -/
inductive Named : List Char → (negative : Bool) → (magnitude : Nat) → Prop where
  | parts {sign word : List Char} {negative : Bool} {magnitude : Nat} (hsign : Sign sign negative)
      (hname : Name word magnitude) : Named (sign ++ word) negative magnitude

/-- What is taken off the front of a text is a numeral, and it is all of the text if that is one. -/
structure TakesDecimals (after? : List Char → Option (List Char)) : Prop where
  sound : ∀ {text rest}, after? text = some rest →
    ∃ decimal negative size, Numeral decimal negative size ∧ text = decimal ++ rest
  whole : ∀ {text negative size}, Numeral text negative size → after? text = some []

/-! ## Signs -/

/-- What is taken off a text as its sign is one. -/
theorem sign_of_splitSign {text rest : List Char} {negative : Bool}
    (h : splitSign text = (negative, rest)) : ∃ sign, Sign sign negative ∧ text = sign ++ rest := by
  unfold splitSign at h
  split at h
  all_goals obtain ⟨rfl, rfl⟩ := Prod.mk.inj h
  · exact ⟨_, .minus, rfl⟩
  · exact ⟨_, .plus, rfl⟩
  · exact ⟨_, .nothing, rfl⟩

/-- A sign is taken off a text if what comes after it is none. -/
theorem Sign.splitSign_append {sign : List Char} {negative : Bool} (h : Sign sign negative)
    {rest : List Char} (hrest : ∀ c, rest.head? = some c → c ≠ '-' ∧ c ≠ '+') :
    splitSign (sign ++ rest) = (negative, rest) := by
  cases h with
  | plus | minus => rfl
  | nothing =>
    cases rest with
    | nil => rfl
    | cons c more =>
      obtain ⟨hminus, hplus⟩ := hrest c rfl
      unfold splitSign
      split
      · rename_i heq
        exact absurd (List.cons.inj heq).1 hminus
      · rename_i heq
        exact absurd (List.cons.inj heq).1 hplus
      · rfl

theorem ne_sign_of_isDigit {c : Char} (h : c.isDigit = true) : c ≠ '-' ∧ c ≠ '+' := by
  constructor <;> (rintro rfl; exact absurd h (by decide))

theorem Sign.splitSign_digits {sign digits : List Char} {negative : Bool} (h : Sign sign negative)
    (hdigits : ∀ c ∈ digits, c.isDigit = true) : splitSign (sign ++ digits) = (negative, digits) :=
  h.splitSign_append fun c hc => ne_sign_of_isDigit (hdigits c (List.mem_of_mem_head? hc))

/-! ## Whole numbers -/

theorem natural?_eq_some_iff {text : List Char} {n : Nat} :
    natural? text = some n ↔
      text ≠ [] ∧ (∀ c ∈ text, c.isDigit = true) ∧ Nat.ofDigitChars 10 text 0 = n := by
  simp [natural?, and_assoc]

theorem Whole.whole?_eq {text : List Char} {n : Int} (h : Whole text n) :
    whole? text = some n := by
  cases h with
  | @digits sign digits negative hsign hne hdigits =>
    unfold whole?
    rw [hsign.splitSign_digits hdigits]
    dsimp only
    rw [natural?_eq_some_iff.mpr ⟨hne, hdigits, rfl⟩]
    rfl

/-- A text is read as a whole number exactly if it is one. -/
theorem whole?_eq_some_iff {text : List Char} {n : Int} : whole? text = some n ↔ Whole text n := by
  refine ⟨fun h => ?_, Whole.whole?_eq⟩
  rcases hsplit : splitSign text with ⟨negative, digits⟩
  obtain ⟨sign, hsign, rfl⟩ := sign_of_splitSign hsplit
  unfold whole? at h
  rw [hsplit] at h
  obtain ⟨z, hz, rfl⟩ := Option.map_eq_some_iff.mp h
  obtain ⟨m, hm, hz⟩ := Option.bind_eq_some_iff.mp hz
  obtain rfl : (m : Int) = z := Option.some.inj hz
  obtain ⟨hne, hdigits, rfl⟩ := natural?_eq_some_iff.mp hm
  exact .digits hsign hne hdigits

/-- A text is read as an integer exactly if it is a whole number that fits in 64 bits. -/
theorem int64?_eq_some_iff {text : List Char} {n : Int64} :
    int64? text = some n ↔ Whole text n.toInt := by
  rw [← whole?_eq_some_iff]
  unfold int64?
  constructor
  · intro h
    split at h
    · rename_i z hz
      obtain ⟨hrange, hn⟩ := Option.ite_none_right_eq_some.mp h
      rw [← Option.some.inj hn, Int64.toInt_ofInt_of_le hrange.1 hrange.2, hz]
    · simp at h
  · intro h
    rw [h]
    dsimp only
    rw [if_pos ⟨n.le_toInt, n.toInt_lt⟩, Int64.ofInt_toInt]

/-! ## Decimals -/

/-- A text is read as an exponent exactly if it is one. -/
theorem exponent?_eq_some_iff {text : List Char} {n : Int} :
    exponent? text = some n ↔ Exponent text n := by
  cases text with
  | nil =>
    constructor
    · intro h
      rw [← Option.some.inj h]
      exact .nothing
    · rintro ⟨⟩
      rfl
  | cons mark rest =>
    rw [exponent?, Option.ite_none_right_eq_some, whole?_eq_some_iff]
    constructor
    · rintro ⟨hmark, h⟩
      exact .marked hmark h
    · rintro ⟨⟩
      exact ⟨‹_›, ‹_›⟩

theorem digits_of_splitDigits {text digits rest : List Char}
    (h : splitDigits text = (digits, rest)) :
    text = digits ++ rest ∧ ∀ c ∈ digits, c.isDigit = true := by
  obtain ⟨rfl, rfl⟩ := Prod.mk.inj h
  refine ⟨List.takeWhile_append_dropWhile.symm, fun c hc => ?_⟩
  exact List.all_eq_true.mp List.all_takeWhile c hc

/-- What is taken off a text as its significand is one. -/
theorem significand_of_significand? {text before after rest : List Char}
    (h : significand? text = some (before, after, rest)) :
    ∃ significand, Significand significand before after ∧ text = significand ++ rest := by
  rcases hsplit : splitDigits text with ⟨digits, left⟩
  obtain ⟨rfl, hdigits⟩ := digits_of_splitDigits hsplit
  unfold significand? at h
  rw [hsplit] at h
  dsimp only at h
  split at h
  · rename_i afterPoint
    rcases hsplit' : splitDigits afterPoint with ⟨more, left⟩
    obtain ⟨rfl, hmore⟩ := digits_of_splitDigits hsplit'
    rw [hsplit'] at h
    obtain ⟨hne, heq⟩ := Option.ite_none_left_eq_some.mp h
    obtain ⟨rfl, rfl, rfl⟩ : digits = before ∧ more = after ∧ left = rest := by simpa using heq
    by_cases hnone : digits = []
    · subst hnone
      exact ⟨'.' :: more, .pointFirst (by simpa using hne) hmore, rfl⟩
    · refine ⟨digits ++ '.' :: more, .point hnone hdigits hmore, ?_⟩
      rw [List.append_assoc, List.cons_append]
  · obtain ⟨hne, heq⟩ := Option.ite_none_left_eq_some.mp h
    obtain ⟨rfl, rfl, rfl⟩ : digits = before ∧ [] = after ∧ left = rest := by simpa using heq
    exact ⟨digits, .noPoint hne hdigits, rfl⟩

/-- A significand is taken off a text if what comes after it does not go on with it. -/
theorem Significand.significand?_append {significand before after rest : List Char}
    (h : Significand significand before after)
    (hrest : ∀ c, rest.head? = some c → c.isDigit = false ∧ c ≠ '.') :
    significand? (significand ++ rest) = some (before, after, rest) := by
  have hdigit : ∀ c, rest.head? = some c → c.isDigit = false := fun c hc => (hrest c hc).1
  unfold significand?
  cases h with
  | noPoint hne hbefore =>
    rw [splitDigits_append hbefore rest hdigit]
    dsimp only
    split
    · rename_i afterPoint
      exact absurd rfl (hrest '.' rfl).2
    · rw [if_neg hne]
  | point hne hbefore hafter =>
    rw [List.append_assoc, List.cons_append, splitDigits_append hbefore _ (by simp)]
    have hmore := splitDigits_append hafter rest hdigit
    simp only [hmore, hne, false_and, if_false]
  | pointFirst hne hafter =>
    have hpoint := @splitDigits_append [] (by simp) ('.' :: (after ++ rest)) (by simp)
    rw [List.nil_append] at hpoint
    rw [List.cons_append, hpoint]
    have hmore := splitDigits_append hafter rest hdigit
    simp only [hmore, hne, and_false, if_false]

theorem Exponent.head {text : List Char} {n : Int} (h : Exponent text n) :
    ∀ c, text.head? = some c → c.isDigit = false ∧ c ≠ '.' := by
  intro c hc
  cases h with
  | nothing => simp at hc
  | marked hmark =>
    rw [← Option.some.inj hc]
    rcases hmark with rfl | rfl <;> decide

theorem Significand.head {text before after : List Char} (h : Significand text before after)
    (rest : List Char) : ∀ c, (text ++ rest).head? = some c → c ≠ '-' ∧ c ≠ '+' := by
  have hdigits : ∀ {digits : List Char} (more : List Char), digits ≠ [] →
      (∀ c ∈ digits, c.isDigit = true) →
      ∀ c, (digits ++ more).head? = some c → c ≠ '-' ∧ c ≠ '+' := by
    intro digits more hne hdigits c hc
    rw [List.head?_append_of_ne_nil _ hne] at hc
    exact ne_sign_of_isDigit (hdigits c (List.mem_of_mem_head? hc))
  cases h with
  | noPoint hne hbefore => exact hdigits rest hne hbefore
  | point hne hbefore =>
    rw [List.append_assoc]
    exact hdigits _ hne hbefore
  | pointFirst =>
    intro c hc
    rw [← Option.some.inj hc]
    decide

theorem Numeral.decimal?_eq {text : List Char} {negative : Bool} {size : Scientific}
    (h : Numeral text negative size) : decimal? text = some (negative, size) := by
  cases h with
  | parts hsign hsignificand hexponent =>
    unfold decimal?
    rw [hsign.splitSign_append (hsignificand.head _)]
    dsimp only
    rw [hsignificand.significand?_append hexponent.head]
    dsimp only
    rw [exponent?_eq_some_iff.mpr hexponent]

/-- A text is read as a decimal exactly if it is one. -/
theorem decimal?_eq_some_iff {text : List Char} {negative : Bool} {size : Scientific} :
    decimal? text = some (negative, size) ↔ Numeral text negative size := by
  refine ⟨fun h => ?_, Numeral.decimal?_eq⟩
  rcases hsplit : splitSign text with ⟨minus, unsigned⟩
  obtain ⟨sign, hsign, rfl⟩ := sign_of_splitSign hsplit
  unfold decimal? at h
  rw [hsplit] at h
  dsimp only at h
  split at h
  · simp at h
  · rename_i before after rest hsome
    obtain ⟨significand, hsignificand, rfl⟩ := significand_of_significand? hsome
    split at h
    · simp at h
    · rename_i n hn
      obtain ⟨rfl, rfl⟩ := Prod.mk.inj (Option.some.inj h)
      exact .parts hsign hsignificand (exponent?_eq_some_iff.mp hn)

/-- Every whole number is a decimal. -/
theorem Whole.numeral {text : List Char} {n : Int} (h : Whole text n) :
    ∃ negative size, Numeral text negative size := by
  cases h with
  | @digits sign digits negative hsign hne hdigits =>
    have hnumeral := Numeral.parts hsign (.noPoint hne hdigits) .nothing
    rw [List.append_nil] at hnumeral
    exact ⟨_, _, hnumeral⟩

/-- There is a digit in every significand. -/
theorem Significand.exists_isDigit {text before after : List Char}
    (h : Significand text before after) : ∃ c ∈ text, c.isDigit = true := by
  cases h with
  | noPoint hne hbefore =>
    obtain ⟨c, hc⟩ := List.exists_mem_of_ne_nil _ hne
    exact ⟨c, hc, hbefore c hc⟩
  | point hne hbefore =>
    obtain ⟨c, hc⟩ := List.exists_mem_of_ne_nil _ hne
    exact ⟨c, List.mem_append_left _ hc, hbefore c hc⟩
  | pointFirst hne hafter =>
    obtain ⟨c, hc⟩ := List.exists_mem_of_ne_nil _ hne
    exact ⟨c, List.mem_cons_of_mem _ hc, hafter c hc⟩

theorem Numeral.exists_isDigit {text : List Char} {negative : Bool} {size : Scientific}
    (h : Numeral text negative size) : ∃ c ∈ text, c.isDigit = true := by
  cases h with
  | parts _ hsignificand _ =>
    obtain ⟨c, hc, hdigit⟩ := hsignificand.exists_isDigit
    exact ⟨c, List.mem_append_right _ (List.mem_append_left _ hc), hdigit⟩

/-! ## The front of a text -/

/-- What is taken off a text as its exponent is one. -/
theorem exponent_of_afterExponent? {text rest : List Char} (h : afterExponent? text = some rest) :
    ∃ exponent n, Exponent exponent n ∧ text = exponent ++ rest := by
  cases text with
  | nil => exact ⟨[], 0, .nothing, Option.some.inj h⟩
  | cons mark text =>
    rw [afterExponent?] at h
    by_cases hmark : mark = 'e' ∨ mark = 'E'
    · rcases hsplit : splitSign text with ⟨negative, unsigned⟩
      obtain ⟨sign, hsign, rfl⟩ := sign_of_splitSign hsplit
      rcases hsplit' : splitDigits unsigned with ⟨digits, left⟩
      obtain ⟨rfl, hdigits⟩ := digits_of_splitDigits hsplit'
      rw [if_pos hmark, hsplit] at h
      dsimp only at h
      rw [hsplit'] at h
      obtain ⟨hne, heq⟩ := Option.ite_none_left_eq_some.mp h
      obtain rfl := Option.some.inj heq
      refine ⟨mark :: (sign ++ digits), _, .marked hmark (.digits hsign hne hdigits), ?_⟩
      rw [List.cons_append, List.append_assoc]
    · rw [if_neg hmark] at h
      exact ⟨[], 0, .nothing, Option.some.inj h⟩

theorem Exponent.afterExponent?_eq {text : List Char} {n : Int} (h : Exponent text n) :
    afterExponent? text = some [] := by
  cases h with
  | nothing => rfl
  | marked hmark hwhole =>
    cases hwhole with
    | @digits sign digits negative hsign hne hdigits =>
      have hsplit := splitDigits_append hdigits [] (by simp)
      rw [List.append_nil] at hsplit
      simp only [afterExponent?, hmark, if_true, hsign.splitSign_digits hdigits, hsplit, hne,
        if_false]

theorem takesDecimals_afterDecimal? : TakesDecimals afterDecimal? where
  sound {text rest} h := by
    rcases hsplit : splitSign text with ⟨negative, unsigned⟩
    obtain ⟨sign, hsign, rfl⟩ := sign_of_splitSign hsplit
    unfold afterDecimal? at h
    rw [hsplit] at h
    split at h
    · rename_i before after left hsome
      obtain ⟨significand, hsignificand, rfl⟩ := significand_of_significand? hsome
      obtain ⟨exponent, n, hexponent, rfl⟩ := exponent_of_afterExponent? h
      refine ⟨_, _, _, .parts hsign hsignificand hexponent, ?_⟩
      rw [List.append_assoc, List.append_assoc]
    · simp at h
  whole {text _ _} h := by
    cases h with
    | parts hsign hsignificand hexponent =>
      unfold afterDecimal?
      rw [hsign.splitSign_append (hsignificand.head _)]
      dsimp only
      rw [hsignificand.significand?_append hexponent.head]
      exact hexponent.afterExponent?_eq

/-- A text of which nothing is left is a numeral. -/
theorem TakesDecimals.eq_nil_iff {after? : List Char → Option (List Char)}
    (h : TakesDecimals after?) {text : List Char} :
    after? text = some [] ↔ ∃ negative size, Numeral text negative size := by
  constructor
  · intro hnil
    obtain ⟨decimal, negative, size, hnumeral, rfl⟩ := h.sound hnil
    rw [List.append_nil]
    exact ⟨negative, size, hnumeral⟩
  · rintro ⟨negative, size, hnumeral⟩
    exact h.whole hnumeral

/-! ## Doubles -/

theorem named?_eq_some_iff {word : List Char} {magnitude : Nat} :
    named? word = some magnitude ↔ Name word magnitude := by
  unfold named?
  dsimp only
  constructor
  · intro h
    split at h
    · rename_i hinfinity
      rw [← Option.some.inj h]
      exact hinfinity.elim .inf .infinity
    · obtain ⟨hnan, heq⟩ := Option.ite_none_right_eq_some.mp h
      rw [← Option.some.inj heq]
      exact .nan hnan
  · rintro (h | h | h) <;> simp [h]

/-- There are only letters in a name. -/
theorem Name.isAlpha {word : List Char} {magnitude : Nat} (h : Name word magnitude) :
    ∀ c ∈ word, c.isAlpha = true := by
  have hletters : ∀ name ∈ ["inf", "infinity", "nan"], name.toList.all Char.isAlpha = true := by
    decide
  intro c hc
  have hlower : c.toLower ∈ word.map Char.toLower := List.mem_map_of_mem hc
  rw [← Char.isAlpha_toLower_eq_isAlpha]
  cases h with
  | inf h | infinity h | nan h =>
    rw [h] at hlower
    exact List.all_eq_true.mp (hletters _ (by simp)) _ hlower

theorem isAlpha_of_isDigit {c : Char} (h : c.isDigit = true) : c.isAlpha = false := by
  grind [Char.isAlpha, Char.isUpper, Char.isLower, Char.isDigit]

theorem Sign.isDigit_eq_false {sign : List Char} {negative : Bool} (h : Sign sign negative) :
    ∀ c ∈ sign, c.isDigit = false := by
  cases h <;> simp

theorem Name.splitSign_append {sign word : List Char} {negative : Bool} {magnitude : Nat}
    (h : Name word magnitude) (hsign : Sign sign negative) :
    splitSign (sign ++ word) = (negative, word) := by
  refine hsign.splitSign_append fun c hc => ?_
  have halpha := h.isAlpha c (List.mem_of_mem_head? hc)
  constructor <;> (rintro rfl; exact absurd halpha (by decide))

/-- No name is a numeral. -/
theorem Named.not_numeral {text : List Char} {negative : Bool} {magnitude : Nat}
    (h : Named text negative magnitude) : ¬ ∃ negative size, Numeral text negative size := by
  rintro ⟨_, _, hnumeral⟩
  obtain ⟨c, hc, hdigit⟩ := hnumeral.exists_isDigit
  cases h with
  | parts hsign hname =>
    rcases List.mem_append.mp hc with hc | hc
    · rw [hsign.isDigit_eq_false c hc] at hdigit
      exact Bool.false_ne_true hdigit
    · have halpha := hname.isAlpha c hc
      rw [isAlpha_of_isDigit hdigit] at halpha
      exact Bool.false_ne_true halpha

theorem Numeral.double?_eq {text : List Char} {negative : Bool} {size : Scientific}
    (h : Numeral text negative size) :
    double? text = some (ofMagnitude negative size.toMagnitude) := by
  unfold double?
  rw [h.decimal?_eq]

theorem Named.double?_eq {text : List Char} {negative : Bool} {magnitude : Nat}
    (h : Named text negative magnitude) : double? text = some (ofMagnitude negative magnitude) := by
  have hnone : decimal? text = none := by
    rw [Option.eq_none_iff_forall_ne_some]
    rintro ⟨minus, size⟩ hsome
    exact h.not_numeral ⟨minus, size, decimal?_eq_some_iff.mp hsome⟩
  unfold double?
  rw [hnone]
  cases h with
  | parts hsign hname =>
    dsimp only
    rw [hname.splitSign_append hsign]
    dsimp only
    rw [named?_eq_some_iff.mpr hname]
    rfl

/-- A text is read as a double exactly if it is a decimal, and the double is the nearest one, or if
it is what the double is called. -/
theorem double?_eq_some_iff {text : List Char} {x : Float} :
    double? text = some x ↔
      (∃ negative size, Numeral text negative size ∧ x = ofMagnitude negative size.toMagnitude) ∨
        ∃ negative magnitude, Named text negative magnitude ∧
          x = ofMagnitude negative magnitude := by
  constructor
  · intro h
    unfold double? at h
    split at h
    · rename_i negative size hsome
      exact .inl ⟨negative, size, decimal?_eq_some_iff.mp hsome, (Option.some.inj h).symm⟩
    · rcases hsplit : splitSign text with ⟨negative, word⟩
      obtain ⟨sign, hsign, rfl⟩ := sign_of_splitSign hsplit
      rw [hsplit] at h
      obtain ⟨magnitude, hname, rfl⟩ := Option.map_eq_some_iff.mp h
      exact .inr ⟨negative, magnitude, .parts hsign (named?_eq_some_iff.mp hname), rfl⟩
  · rintro (⟨negative, size, hnumeral, rfl⟩ | ⟨negative, magnitude, hnamed, rfl⟩)
    · exact hnumeral.double?_eq
    · exact hnamed.double?_eq

end DynLisp.Decimal
