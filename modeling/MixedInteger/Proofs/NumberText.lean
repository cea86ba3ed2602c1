import MixedInteger.Json
import MixedInteger.Scalar.Binary64

/-!
# Texts of numbers

Words and finite numbers are written in the grammar of JSON numbers, and a number that is followed
by something that cannot continue it is read digit for digit. Whether the digits give the number
back is clear for words; for binary64 numbers it depends on how the digits are rounded.

* `Spelling`: the parts of a number as characters, `Spelling.Legal` those of the grammar;
* `number?_signed`: a legal spelling is read part by part;
* `decimal_spelled`: every shortest decimal has a legal spelling;
* `toWord?_word`: the digits of a word give the word.
-/

namespace MixedInteger.Json

/-! ## Digits -/

def digitValue (c : Char) : Nat := c.toNat - '0'.toNat

theorem digit?_of_isDigit {c : Char} (h : c.isDigit = true) : digit? c = some (digitValue c) := by
  simp [digit?, h, digitValue]

theorem digits_append {ds rest : List Char} (hds : ∀ c ∈ ds, c.isDigit = true)
    (hrest : ∀ c ∈ rest.head?, c.isDigit = false) :
    digits (ds ++ rest) = (ds.map digitValue, rest) := by
  induction ds with
  | nil =>
    cases rest with
    | nil => rfl
    | cons c cs => simp [digits, digit?, hrest c rfl]
  | cons c cs ih =>
    have hcs := ih fun x hx => hds x (List.mem_cons_of_mem c hx)
    simp [digits, digit?_of_isDigit (hds c List.mem_cons_self), hcs]

theorem digits₁?_append {ds rest : List Char} (hne : ds ≠ [])
    (hds : ∀ c ∈ ds, c.isDigit = true) (hrest : ∀ c ∈ rest.head?, c.isDigit = false) :
    digits₁? (ds ++ rest) = some (ds.map digitValue, rest) := by
  obtain ⟨c, cs, rfl⟩ := List.exists_cons_of_ne_nil hne
  rw [digits₁?, digits_append hds hrest]
  rfl

/-- Nothing that could continue a number. -/
def EndsNumber (rest : List Char) : Prop :=
  ∀ c ∈ rest.head?, c.isDigit = false ∧ c ≠ '.' ∧ c ≠ 'e' ∧ c ≠ 'E'

/-! ## Spellings -/

/-- The characters of a number without sign. -/
structure Spelling where
  whole : List Char
  /-- Empty if there is no point. -/
  fraction : List Char
  /-- Sign and digits of the exponent: `(true, ds)` for a negative one. -/
  exponent : Option (Bool × List Char)

namespace Spelling

/-- The spelling follows the grammar: digits everywhere, at least one where there must be digits,
and no zero before another digit. -/
structure Legal (s : Spelling) : Prop where
  whole_ne_nil : s.whole ≠ []
  whole_digits : ∀ c ∈ s.whole, c.isDigit = true
  leading : s.whole.head? = some '0' → s.whole = ['0']
  fraction_digits : ∀ c ∈ s.fraction, c.isDigit = true
  exponent_digits : ∀ e ∈ s.exponent, e.2 ≠ [] ∧ ∀ c ∈ e.2, c.isDigit = true

def fractionChars : List Char → List Char
  | [] => []
  | c :: cs => '.' :: c :: cs

def exponentChars : Option (Bool × List Char) → List Char
  | none => []
  | some (down, ds) => 'e' :: (if down then '-' else '+') :: ds

def chars (s : Spelling) : List Char :=
  s.whole ++ (fractionChars s.fraction ++ exponentChars s.exponent)

def number (negative : Bool) (s : Spelling) : Number :=
  ⟨negative, s.whole.map digitValue, s.fraction.map digitValue,
    s.exponent.map fun e => (e.1, e.2.map digitValue)⟩

end Spelling

open Spelling

theorem head_exponentChars (e : Option (Bool × List Char)) {rest : List Char}
    (hrest : EndsNumber rest) :
    ∀ c ∈ (exponentChars e ++ rest).head?, c.isDigit = false ∧ c ≠ '.' := by
  cases e with
  | none => exact fun c hc => ⟨(hrest c hc).1, (hrest c hc).2.1⟩
  | some e =>
    intro c hc
    obtain rfl : 'e' = c := by simpa [exponentChars] using hc
    decide

theorem head_fractionChars (ds : List Char) (e : Option (Bool × List Char)) {rest : List Char}
    (hrest : EndsNumber rest) :
    ∀ c ∈ (fractionChars ds ++ (exponentChars e ++ rest)).head?, c.isDigit = false := by
  cases ds with
  | nil => exact fun c hc => (head_exponentChars e hrest c hc).1
  | cons d ds =>
    intro c hc
    obtain rfl : '.' = c := by simpa [fractionChars] using hc
    decide

theorem exponent?_append {e : Option (Bool × List Char)} {rest : List Char}
    (he : ∀ x ∈ e, x.2 ≠ [] ∧ ∀ c ∈ x.2, c.isDigit = true) (hrest : EndsNumber rest) :
    exponent? (exponentChars e ++ rest) =
      some (e.map fun x => (x.1, x.2.map digitValue), rest) := by
  cases e with
  | none =>
    cases rest with
    | nil => rfl
    | cons c cs =>
      obtain ⟨-, -, he, hE⟩ := hrest c rfl
      simp [exponentChars, exponent?, he, hE]
  | some x =>
    obtain ⟨down, ds⟩ := x
    obtain ⟨hne, hds⟩ := he _ rfl
    have hdigits := digits₁?_append hne hds fun c hc => (hrest c hc).1
    cases down <;> simp [exponentChars, exponent?, exponentSign, hdigits]

theorem fraction?_append {ds rest : List Char} (hds : ∀ c ∈ ds, c.isDigit = true)
    (hrest : ∀ c ∈ rest.head?, c.isDigit = false ∧ c ≠ '.') :
    fraction? (fractionChars ds ++ rest) = some (ds.map digitValue, rest) := by
  cases ds with
  | nil =>
    cases rest with
    | nil => rfl
    | cons c cs =>
      have hc := (hrest c rfl).2
      simp [fractionChars, fraction?, hc]
  | cons d ds =>
    simpa [fractionChars, fraction?] using
      digits₁?_append (List.cons_ne_nil d ds) hds fun c hc => (hrest c hc).1

theorem whole?_append {ds rest : List Char} (hne : ds ≠ []) (hds : ∀ c ∈ ds, c.isDigit = true)
    (hleading : ds.head? = some '0' → ds = ['0'])
    (hrest : ∀ c ∈ rest.head?, c.isDigit = false) :
    whole? (ds ++ rest) = some (ds.map digitValue, rest) := by
  by_cases hzero : ds.head? = some '0'
  · rw [hleading hzero]
    rfl
  · obtain ⟨c, cs, rfl⟩ := List.exists_cons_of_ne_nil hne
    have hc : c ≠ '0' := by simpa using hzero
    rw [← digits₁?_append hne hds hrest]
    simp [whole?, hc]

theorem unsigned?_chars {s : Spelling} (h : s.Legal) (negative : Bool) {rest : List Char}
    (hrest : EndsNumber rest) :
    unsigned? negative (s.chars ++ rest) = some (s.number negative, rest) := by
  have hwhole := whole?_append h.whole_ne_nil h.whole_digits h.leading
    (head_fractionChars s.fraction s.exponent hrest)
  have hfraction := fraction?_append h.fraction_digits (head_exponentChars s.exponent hrest)
  have hexponent := exponent?_append h.exponent_digits hrest
  simp [unsigned?, chars, hwhole, hfraction, hexponent, Spelling.number]

/-- A spelling behind its sign. -/
def Spelling.signed (negative : Bool) (s : Spelling) : List Char :=
  if negative then '-' :: s.chars else s.chars

theorem Spelling.Legal.head {s : Spelling} (h : s.Legal) :
    ∃ c cs, s.chars = c :: cs ∧ c.isDigit = true := by
  obtain ⟨c, cs, hcs⟩ := List.exists_cons_of_ne_nil h.whole_ne_nil
  refine ⟨c, cs ++ (fractionChars s.fraction ++ exponentChars s.exponent), ?_, ?_⟩
  · simp [chars, hcs]
  · exact h.whole_digits c (by simp [hcs])

/-- A legal spelling is read part by part, up to where the number ends. -/
theorem number?_signed {s : Spelling} (h : s.Legal) (negative : Bool) {rest : List Char}
    (hrest : EndsNumber rest) :
    number? (s.signed negative ++ rest) = some (s.number negative, rest) := by
  cases negative with
  | true => exact unsigned?_chars h true hrest
  | false =>
    have hread := unsigned?_chars h false hrest
    obtain ⟨c, cs, hcs, hc⟩ := h.head
    have hminus : c ≠ '-' := by
      rintro rfl
      exact absurd hc (by decide)
    simp only [Spelling.signed, hcs, Bool.false_eq_true, if_false] at hread ⊢
    simpa [number?, hminus] using hread

/-! ## Words -/

/-- The spelling of a natural number. -/
def Spelling.word (n : Nat) : Spelling := ⟨Nat.toDigits 10 n, [], none⟩

theorem isDigit_toDigits {n : Nat} : ∀ c ∈ Nat.toDigits 10 n, c.isDigit = true :=
  fun _ => Nat.isDigit_of_mem_toDigits (by decide) (by decide)

theorem isDigit_zeros {n : Nat} : ∀ c ∈ List.replicate n '0', c.isDigit = true :=
  fun _ hc => List.eq_of_mem_replicate hc ▸ rfl

theorem exists_toDigits (n : Nat) : ∃ c cs, Nat.toDigits 10 n = c :: cs :=
  List.exists_cons_of_ne_nil Nat.toDigits_ne_nil

theorem head?_toDigits {n : Nat} (h : 0 < n) : (Nat.toDigits 10 n).head? ≠ some '0' := by
  induction n using Nat.strongRecOn with
  | ind n ih =>
    rw [Nat.toDigits_eq_if (by decide)]
    split
    · have hdigit : ∀ d < 10, 0 < d → Nat.digitChar d ≠ '0' := by decide
      simpa using hdigit n ‹_› h
    · have hshorter := ih (n / 10) (by omega) (by omega)
      obtain ⟨c, cs, hcs⟩ := exists_toDigits (n / 10)
      simpa [hcs] using hshorter

theorem Spelling.legal_word (n : Nat) : (Spelling.word n).Legal where
  whole_ne_nil := Nat.toDigits_ne_nil
  whole_digits := isDigit_toDigits
  leading h := by
    obtain rfl : n = 0 := Nat.eq_zero_of_not_pos fun hn => head?_toDigits hn h
    exact Nat.toDigits_zero 10
  fraction_digits := by simp [Spelling.word]
  exponent_digits := by simp [Spelling.word]

theorem toList_toString (n : Nat) : (toString n).toList = (Spelling.word n).signed false := by
  simp [Spelling.signed, Spelling.word, chars, fractionChars, exponentChars]

theorem digitsValue_toDigits (n : Nat) :
    Number.digitsValue ((Nat.toDigits 10 n).map digitValue) = n := by
  have h := Nat.ofDigitChars_ten_toDigits (n := n)
  rw [Nat.ofDigitChars_eq_foldl] at h
  simpa [Number.digitsValue, List.foldl_map, digitValue, Nat.mul_comm] using h

/-- The digits of a word give the word. -/
theorem toWord?_word {n : Nat} (h : n < Number.wordLimit) :
    ((Spelling.word n).number false).toWord? = some n := by
  simp [Number.toWord?, Spelling.number, Spelling.word, digitsValue_toDigits, h]

end MixedInteger.Json

/-! ## Shortest decimals -/

namespace MixedInteger.Decimal

open Json Json.Spelling

theorem Numeral.strip_ne_zero (fuel : Nat) {d : Numeral} (h : d.digits ≠ 0) :
    (d.strip fuel).digits ≠ 0 := by
  induction fuel generalizing d with
  | zero => exact h
  | succ fuel ih =>
    rw [Numeral.strip]
    split
    · exact ih (by simp only; omega)
    · exact h

namespace Magnitude

theorem quarterFactor_pos (v : Magnitude) (grid : Int) : 0 < v.quarterFactor grid :=
  Nat.mul_pos (Nat.pow_pos (by decide)) (Nat.pow_pos (by decide))

/-- Zero rounds to no other magnitude. -/
theorem ne_zero_of_admits {v : Magnitude} {d : Numeral} (hv : v.mantissa ≠ 0)
    (h : v.admits d = true) : d.digits ≠ 0 := by
  intro hzero
  have hlower : 0 < v.lowerQuarters := by
    simp only [lowerQuarters]
    split <;> omega
  have hpos := Nat.mul_pos hlower (v.quarterFactor_pos d.exponent)
  simp only [admits, hzero, Nat.zero_mul] at h
  split at h
  all_goals
    simp only [decide_eq_true_eq] at h
    omega

theorem admits_of_onGrid {v : Magnitude} {tie : Tie} {grid : Int} {d : Numeral}
    (h : v.onGrid tie grid = some d) : v.admits d = true := by
  simp only [onGrid] at h
  grind

theorem shortest_ne_zero {v : Magnitude} (tie : Tie) (hv : v.mantissa ≠ 0) :
    (v.shortest tie).digits ≠ 0 := by
  simp only [shortest, hv, if_false]
  apply Numeral.strip_ne_zero
  -- Seventeen digits are enough, but nothing here depends on it.
  cases hfound : (List.range 17).findSome? fun n : Nat => v.onGrid tie (v.decimalScale - 1 - n) with
  | none =>
    have h : 0 < v.allDigits.digits :=
      Nat.mul_pos (Nat.mul_pos (Nat.pos_of_ne_zero hv) (Nat.pow_pos (by decide)))
        (Nat.pow_pos (by decide))
    simpa using Nat.ne_of_gt h
  | some d =>
    obtain ⟨n, -, hn⟩ := List.exists_of_findSome?_eq_some hfound
    exact ne_zero_of_admits hv (admits_of_onGrid hn)

theorem shortest_zero {v : Magnitude} (tie : Tie) (h : (v.shortest tie).digits = 0) :
    (v.shortest tie).exponent = 0 := by
  by_cases hv : v.mantissa = 0
  · simp [shortest, hv]
  · exact absurd h (shortest_ne_zero tie hv)

end Magnitude

/-- Zeros behind the digits, before the point. -/
theorem legal_padded {d : Numeral} (h : d.digits = 0 → d.exponent = 0) :
    (⟨Nat.toDigits 10 d.digits ++ List.replicate d.exponent.toNat '0', ['0'], none⟩ :
      Spelling).Legal where
  whole_ne_nil := by simp
  whole_digits := by
    intro c hc
    obtain hc | hc := List.mem_append.1 hc
    · exact isDigit_toDigits c hc
    · exact isDigit_zeros c hc
  leading hzero := by
    by_cases hd : d.digits = 0
    · simp [hd, h hd]
    · have hhead := head?_toDigits (Nat.pos_of_ne_zero hd)
      obtain ⟨c, cs, hcs⟩ := exists_toDigits d.digits
      simp only [hcs, List.cons_append, List.head?_cons] at hzero hhead
      exact absurd hzero hhead
  fraction_digits := isDigit_zeros (n := 1)
  exponent_digits := by simp

/-- The point among the digits of a number that is not zero. -/
theorem legal_split {n k : Nat} (hn : 0 < n) (hk : 0 < k) :
    (⟨(Nat.toDigits 10 n).take k, (Nat.toDigits 10 n).drop k, none⟩ : Spelling).Legal where
  whole_ne_nil := by
    have hlength := Nat.length_toDigits_pos (n := n) (b := 10)
    intro hnil
    have := congrArg List.length hnil
    simp only [List.length_take, List.length_nil] at this
    omega
  whole_digits c hc := isDigit_toDigits c (List.mem_of_mem_take hc)
  leading hzero := by
    have hhead := head?_toDigits hn
    rw [List.head?_take, if_neg (by omega)] at hzero
    exact absurd hzero hhead
  fraction_digits c hc := isDigit_toDigits c (List.mem_of_mem_drop hc)
  exponent_digits := by simp

/-- Zeros between the point and the digits. -/
theorem legal_below (zeros n : Nat) :
    (⟨['0'], List.replicate zeros '0' ++ Nat.toDigits 10 n, none⟩ : Spelling).Legal where
  whole_ne_nil := by simp
  whole_digits := isDigit_zeros (n := 1)
  leading _ := rfl
  fraction_digits := by
    intro c hc
    obtain hc | hc := List.mem_append.1 hc
    · exact isDigit_zeros c hc
    · exact isDigit_toDigits c hc
  exponent_digits := by simp

/-- One digit before the point, and an exponent. -/
theorem legal_scientific {c : Char} {cs : List Char} (h : ∀ x ∈ c :: cs, x.isDigit = true)
    (down : Bool) (n : Nat) :
    (⟨[c], cs, some (down, Nat.toDigits 10 n)⟩ : Spelling).Legal where
  whole_ne_nil := by simp
  whole_digits := by simpa using h c List.mem_cons_self
  leading := by simp
  fraction_digits x hx := h x (List.mem_cons_of_mem c hx)
  exponent_digits := by simpa using isDigit_toDigits

theorem fractionChars_of_ne_nil {ds : List Char} (h : ds ≠ []) : fractionChars ds = '.' :: ds := by
  obtain ⟨c, cs, rfl⟩ := List.exists_cons_of_ne_nil h
  rfl

/-- A number with every place written has a legal spelling, unless zeros stand before zero. -/
theorem Numeral.places_spelled {d : Numeral} (h : d.digits = 0 → d.exponent = 0) :
    ∃ s : Spelling, s.Legal ∧ d.places true = s.chars := by
  simp only [Numeral.places]
  split
  case isTrue hexponent =>
    exact ⟨_, legal_padded h, by simp [chars, fractionChars, exponentChars]⟩
  case isFalse hexponent =>
    -- Zero has the exponent zero, so there is a digit that may stand in front.
    have hpos : 0 < d.digits := Nat.pos_of_ne_zero fun hd => hexponent (by simp [h hd])
    split
    case isTrue hbehind =>
      refine ⟨_, legal_split hpos (Nat.sub_pos_of_lt hbehind), ?_⟩
      rw [chars, fractionChars_of_ne_nil]
      · simp [exponentChars]
      · intro hnil
        have := congrArg List.length hnil
        simp only [List.length_drop, List.length_nil] at this
        omega
    case isFalse =>
      refine ⟨_, legal_below ((-d.exponent).toNat - (Nat.toDigits 10 d.digits).length)
        d.digits, ?_⟩
      rw [chars, fractionChars_of_ne_nil (by simp)]
      simp [exponentChars]

theorem Numeral.scientific_spelled (leading : Int) (d : Numeral) :
    ∃ s : Spelling, s.Legal ∧ d.scientific leading = s.chars := by
  obtain ⟨c, cs, hcs⟩ := exists_toDigits d.digits
  have hdigits : ∀ x ∈ c :: cs, x.isDigit = true := hcs ▸ isDigit_toDigits
  refine ⟨_, legal_scientific hdigits (decide (leading < 0)) leading.natAbs, ?_⟩
  cases cs <;> simp [Numeral.scientific, hcs, chars, fractionChars, exponentChars]

theorem decimal_spelled {d : Numeral} (h : d.digits = 0 → d.exponent = 0) :
    ∃ s : Spelling, s.Legal ∧ inJson.decimal d = s.chars := by
  simp only [Layout.decimal]
  split
  · exact Numeral.places_spelled h
  · exact Numeral.scientific_spelled _ d

end MixedInteger.Decimal

namespace MixedInteger.Json

open Decimal Scalar

theorem isFinite_eq (x : Float) : x.isFinite = (!x.isNaN && !x.isInf) := by
  unfold Float.isFinite Float.isNaN Float.isInf
  unfold Float.Model.isFinite Float.Model.isNaN Float.Model.isInf
  cases x.toModel.unpack <;> rfl

/-- A finite number is written in the grammar. -/
theorem json_spelled {x : Float} (h : isFinite x = true) :
    ∃ (negative : Bool) (s : Spelling), s.Legal ∧ (json x).toList = s.signed negative := by
  obtain ⟨hnan, hinf⟩ : x.isNaN = false ∧ x.isInf = false := by
    simpa only [Bool.and_eq_true, Bool.not_eq_true'] using (isFinite_eq x).symm.trans h
  obtain ⟨s, hs, hchars⟩ :=
    decimal_spelled (Magnitude.shortest_zero (v := Magnitude.ofBits x.toBits) .toEven)
  refine ⟨x.toBits >>> 63 == 1, s, hs, ?_⟩
  simp only [json, Layout.render, hnan, hinf, Spelling.signed, ← hchars]
  simp [inJson]

/-- There is no number for a value that is not finite. -/
theorem json_of_infinite {x : Float} (h : isFinite x = false) : json x = "null" := by
  have hcases : (!x.isNaN && !x.isInf) = false := (isFinite_eq x).symm.trans h
  change inJson.render x = "null"
  rw [Layout.render]
  cases hnan : x.isNaN with
  | true => rfl
  | false =>
    have hinf : x.isInf = true := by
      rw [hnan] at hcases
      simpa only [Bool.not_false, Bool.true_and, Bool.not_eq_false'] using hcases
    simp only [Bool.false_eq_true, if_false, hinf, if_true]
    split <;> rfl

end MixedInteger.Json
