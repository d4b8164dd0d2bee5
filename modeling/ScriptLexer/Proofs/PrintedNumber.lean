import Mathlib.Algebra.Order.Field.Basic
import Mathlib.Data.Rat.Cast.Order
import Mathlib.Order.Monotone.Basic
import Mathlib.Tactic.Linarith
import Mathlib.Tactic.Positivity
import Mathlib.Tactic.Ring
import ScriptLexer.Proofs.LongestMatch
import ScriptLexer.Token.Basic

namespace ScriptLexer

namespace Binary64

theorem units_of_lt {m : Nat} (h : m < leadingBit) : units m = m := by
  have hexponent : m / leadingBit - 1 = 0 := by
    rw [Nat.div_eq_of_lt h]
  rw [units, significand, if_pos h, hexponent]
  exact Nat.mul_one m

theorem units_of_block (q : Nat) {r : Nat} (h : r < leadingBit) :
    units ((q + 1) * leadingBit + r) = (leadingBit + r) * 2 ^ q := by
  rw [leadingBit] at h
  have hexponent : ((q + 1) * leadingBit + r) / leadingBit - 1 = q := by
    rw [leadingBit]
    omega
  have hmod : ((q + 1) * leadingBit + r) % leadingBit = r := by
    rw [leadingBit]
    omega
  have hlarge : ¬(q + 1) * leadingBit + r < leadingBit := by
    rw [leadingBit]
    omega
  rw [units, significand, if_neg hlarge, hexponent, hmod]
  rfl

theorem units_lt_units_succ (m : Nat) : units m < units (m + 1) := by
  by_cases hm : m < leadingBit
  · by_cases hnext : m + 1 < leadingBit
    · rw [units_of_lt hm, units_of_lt hnext]
      omega
    · have hfirst : m + 1 = (0 + 1) * leadingBit + 0 := by omega
      rw [units_of_lt hm, hfirst, units_of_block 0 (by decide)]
      omega
  · -- above the smallest numbers the significand grows by one, or starts again on a coarser scale
    obtain ⟨q, r, rfl, hr⟩ : ∃ q r, m = (q + 1) * leadingBit + r ∧ r < leadingBit := by
      refine ⟨m / leadingBit - 1, m % leadingBit, ?_, Nat.mod_lt m (by decide)⟩
      rw [leadingBit] at hm ⊢
      omega
    have hpow : 0 < 2 ^ q := Nat.two_pow_pos q
    by_cases hnext : r + 1 < leadingBit
    · rw [Nat.add_assoc, units_of_block q hr, units_of_block q hnext]
      exact Nat.mul_lt_mul_of_pos_right (by omega) hpow
    · have hblock : (q + 1) * leadingBit + r + 1 = (q + 1 + 1) * leadingBit + 0 := by
        rw [Nat.add_mul (q + 1)]
        omega
      rw [hblock, units_of_block q hr, units_of_block (q + 1) (by decide), Nat.add_zero,
        Nat.pow_succ', ← Nat.mul_assoc]
      exact Nat.mul_lt_mul_of_pos_right (by omega) hpow

theorem units_strictMono : StrictMono units := strictMono_nat_of_lt_succ units_lt_units_succ

end Binary64

namespace Decimal

def toRat (d : Decimal) : ℚ := d.coefficient * 10 ^ d.exponent

theorem denominator_pos (d : Decimal) : 0 < d.denominator := Nat.pow_pos (by decide)

theorem toRat_mul_denominator (d : Decimal) : d.toRat * d.denominator = d.numerator := by
  have hpow : (10 : ℚ) ^ d.exponent * 10 ^ (-d.exponent).toNat = 10 ^ d.exponent.toNat := by
    rw [← zpow_natCast, ← zpow_natCast, ← zpow_add₀ (by norm_num)]
    congr 1
    omega
  simp only [toRat, denominator, numerator, Nat.pow_eq]
  push_cast
  rw [mul_assoc, hpow]

theorem toRat_trim (coefficient : Nat) (exponent : Int) :
    (trim coefficient exponent).toRat = (Decimal.mk coefficient exponent).toRat := by
  fun_induction trim coefficient exponent with
  | case1 c e h ih =>
    have hc : c = c / 10 * 10 := by omega
    have hcast : (c : ℚ) = (c / 10 : Nat) * 10 := by exact_mod_cast hc
    rw [ih, toRat, toRat, hcast, zpow_add₀ (by norm_num), zpow_one]
    ring
  | case2 c e h => rfl

theorem toRat_powers (c n : Nat) :
    (Decimal.mk (c * Nat.pow 5 n) (-n)).toRat * (Nat.pow 2 n : Nat) = c := by
  have hten : (5 : ℚ) ^ n * 2 ^ n = 10 ^ n := by
    rw [← mul_pow]
    norm_num
  simp only [toRat, Nat.pow_eq, zpow_neg, zpow_natCast]
  push_cast
  calc (c * 5 ^ n : ℚ) * (10 ^ n)⁻¹ * 2 ^ n = c * (5 ^ n * 2 ^ n) * (10 ^ n)⁻¹ := by ring
    _ = c := by rw [hten, mul_assoc, mul_inv_cancel₀ (by positivity), mul_one]

end Decimal

namespace Shortest

theorem natCast_le_iff_of_mul_eq {x : ℚ} {den num : Nat} (hden : 0 < den) (hx : x * den = num)
    (a : Nat) : (a : ℚ) ≤ x ↔ a * den ≤ num := by
  have hden : (0 : ℚ) < den := by exact_mod_cast hden
  rw [← mul_le_mul_iff_of_pos_right hden, hx]
  exact_mod_cast Iff.rfl

theorem le_natCast_iff_of_mul_eq {x : ℚ} {den num : Nat} (hden : 0 < den) (hx : x * den = num)
    (a : Nat) : x ≤ a ↔ num ≤ a * den := by
  have hden : (0 : ℚ) < den := by exact_mod_cast hden
  rw [← mul_le_mul_iff_of_pos_right hden, hx]
  exact_mod_cast Iff.rfl

/-- Twice a value in units lies between the doubled midpoints to the two neighbours of a
magnitude; the midpoints themselves belong to even magnitudes only. -/
structure Encloses (magnitude : Nat) (twice : ℚ) : Prop where
  low_le : (Binary64.units (magnitude - 1) + Binary64.units magnitude : Nat) ≤ twice
  le_high : twice ≤ (Binary64.units magnitude + Binary64.units (magnitude + 1) : Nat)
  lt_of_odd : magnitude % 2 = 1 →
    (Binary64.units (magnitude - 1) + Binary64.units magnitude : Nat) < twice ∧
      twice < (Binary64.units magnitude + Binary64.units (magnitude + 1) : Nat)

theorem readsBack_iff {magnitude : Nat} {d : Decimal} :
    readsBack magnitude d ↔ Encloses magnitude (2 * (d.toRat * Binary64.unitsPerOne)) := by
  have htwice : 2 * (d.toRat * Binary64.unitsPerOne) * d.denominator =
      (2 * (d.numerator * Binary64.unitsPerOne) : Nat) := by
    push_cast
    rw [← d.toRat_mul_denominator]
    ring
  have hlow (a : Nat) := natCast_le_iff_of_mul_eq d.denominator_pos htwice a
  have hhigh (a : Nat) := le_natCast_iff_of_mul_eq d.denominator_pos htwice a
  simp only [readsBack]
  split
  · rename_i heven
    rw [Bool.and_eq_true, decide_eq_true_eq, decide_eq_true_eq, ← hlow, ← hhigh]
    constructor
    · rintro ⟨hl, hh⟩
      exact ⟨hl, hh, by omega⟩
    · intro h
      exact ⟨h.low_le, h.le_high⟩
  · rename_i hodd
    rw [Bool.and_eq_true, decide_eq_true_eq, decide_eq_true_eq, ← not_le, ← not_le, ← hhigh, ← hlow,
      not_le, not_le]
    constructor
    · rintro ⟨hl, hh⟩
      exact ⟨hl.le, hh.le, fun _ => ⟨hl, hh⟩⟩
    · intro h
      exact h.lt_of_odd (by omega)

theorem Encloses.le_of_le {m m' : Nat} {a b : ℚ} (h : Encloses m a) (h' : Encloses m' b)
    (hab : a ≤ b) : m ≤ m' := by
  apply Nat.le_of_not_lt
  intro hlt
  by_cases hnext : m = m' + 1
  · -- the midpoint between neighbours belongs to one of them
    subst hnext
    have hlow := h.low_le
    have hhigh := h'.le_high
    rw [Nat.add_sub_cancel] at hlow
    rcases Nat.mod_two_eq_zero_or_one m' with hm | hm
    · have hodd := (h.lt_of_odd (by omega)).1
      rw [Nat.add_sub_cancel] at hodd
      linarith
    · have hodd := (h'.lt_of_odd hm).2
      linarith
  · have hleft := Binary64.units_strictMono hlt
    have hright := Binary64.units_strictMono.monotone (show m' + 1 ≤ m - 1 by omega)
    have hgap : Binary64.units m' + Binary64.units (m' + 1) <
        Binary64.units (m - 1) + Binary64.units m := by omega
    have hgap : ((Binary64.units m' + Binary64.units (m' + 1) : Nat) : ℚ) <
        (Binary64.units (m - 1) + Binary64.units m : Nat) := by exact_mod_cast hgap
    linarith [h'.le_high, h.low_le]

theorem Encloses.unique {m m' : Nat} {twice : ℚ} (h : Encloses m twice) (h' : Encloses m' twice) :
    m = m' := by
  apply Nat.le_antisymm
  · exact h.le_of_le h' le_rfl
  · exact h'.le_of_le h le_rfl

theorem encloses_units (m : Nat) : Encloses m (2 * Binary64.units m) := by
  have hlow := Binary64.units_strictMono.monotone (Nat.sub_le m 1)
  have hhigh := Binary64.units_lt_units_succ m
  refine ⟨?_, ?_, ?_⟩
  · exact_mod_cast (by omega : Binary64.units (m - 1) + Binary64.units m ≤ 2 * Binary64.units m)
  · exact_mod_cast (by omega : 2 * Binary64.units m ≤ Binary64.units m + Binary64.units (m + 1))
  · intro hm
    have hlt := Binary64.units_strictMono (show m - 1 < m by omega)
    constructor
    · exact_mod_cast (by omega : Binary64.units (m - 1) + Binary64.units m < 2 * Binary64.units m)
    · exact_mod_cast (by omega : 2 * Binary64.units m < Binary64.units m + Binary64.units (m + 1))

theorem allDigits_readsBack (m : Nat) : readsBack m (allDigits m) := by
  have hvalue : (allDigits m).toRat * Binary64.unitsPerOne = Binary64.units m := by
    unfold allDigits Binary64.unitsPerOne
    -- the powers stay as they are: their exponent is made a variable
    generalize hn : (1074 : Nat) = n
    have hexponent : (1074 : Int) = n := by omega
    rw [hexponent]
    exact Decimal.toRat_powers (Binary64.units m) n
  rw [readsBack_iff, hvalue]
  exact encloses_units m

theorem onGrid?_readsBack {tie : Tie} {m : Nat} {place : Int} {d : Decimal}
    (h : onGrid? tie m place = some d) : readsBack m d := by
  unfold onGrid? at h
  dsimp only at h
  generalize Binary64.units m * Nat.pow 10 (-place).toNat /
    (Binary64.unitsPerOne * Nat.pow 10 place.toNat) = low at h
  split at h
  · cases h
  · rename_i hlow _
    exact Option.some.inj h ▸ hlow
  · rename_i _ hhigh
    exact Option.some.inj h ▸ hhigh
  · rename_i hlow hhigh
    split at h
    · exact Option.some.inj h ▸ hlow
    · exact Option.some.inj h ▸ hhigh

theorem decimal_encloses (tie : Tie) (m : Nat) :
    Encloses m (2 * ((decimal tie m).toRat * Binary64.unitsPerOne)) := by
  rw [decimal]
  split
  · rename_i hm
    have hunits : Binary64.units 0 = 0 := Binary64.units_of_lt (by decide)
    have hzero := encloses_units 0
    rw [hunits, Nat.cast_zero] at hzero
    rwa [hm, Decimal.toRat, Nat.cast_zero, zero_mul, zero_mul]
  · rw [Decimal.toRat_trim, ← readsBack_iff]
    cases hfound : (List.range 17).findSome? fun n : Nat => onGrid? tie m
        (leadingPlace (Binary64.units m) Binary64.unitsPerOne - n) with
    | none => exact allDigits_readsBack m
    | some d =>
      obtain ⟨n, -, hn⟩ := List.exists_of_findSome?_eq_some hfound
      exact onGrid?_readsBack hn

end Shortest

namespace Numeral

def Ends (rest : Text) : Prop :=
  ∀ c r, rest = c :: r → c.isDigit = false ∧ c ≠ '.' ∧ c ≠ 'e' ∧ c ≠ 'E'

theorem ends_nil : Ends [] := by
  rintro c r ⟨⟩

theorem Ends.digits {rest : Text} (h : Ends rest) :
    rest.takeWhile Char.isDigit = [] ∧ rest.dropWhile Char.isDigit = rest := by
  cases rest with
  | nil => exact ⟨rfl, rfl⟩
  | cons c r => simp [(h c r rfl).1]

theorem Ends.point {rest : Text} (h : Ends rest) :
    leadingFraction? rest = none ∧ afterFraction rest = rest := by
  cases rest with
  | nil => exact ⟨rfl, rfl⟩
  | cons c r => simp [leadingFraction?, afterFraction, (h c r rfl).2.1]

theorem Ends.exponent {rest : Text} (h : Ends rest) : NumeralExponent.scan? rest = none := by
  cases rest with
  | nil => rfl
  | cons c r => simp [NumeralExponent.scan?, (h c r rfl).2.2.1, (h c r rfl).2.2.2]

theorem scan?_text_append {n : Numeral} (hn : n.WellFormed) {rest : Text} (h : Ends rest) :
    scan? (n.text ++ rest) = some n := by
  obtain ⟨whole, fraction?, exponent?⟩ := n
  have htake {digits : Text} (hdigits : ∀ c ∈ digits, c.isDigit) :
      (digits ++ rest).takeWhile Char.isDigit = digits := by
    rw [List.takeWhile_append_of_pos hdigits, h.digits.1, List.append_nil]
  have hdrop {digits : Text} (hdigits : ∀ c ∈ digits, c.isDigit) :
      (digits ++ rest).dropWhile Char.isDigit = rest := by
    rw [List.dropWhile_append_of_pos hdigits, h.digits.2]
  cases exponent? with
  | some e =>
    rw [scan?_append_of_exponent hn rest, h.digits.1, List.append_nil]
  | none =>
    obtain ⟨hne, hwhole, hfraction, -⟩ := hn
    cases fraction? with
    | some digits =>
      have hs := scan?_digits hne hwhole (by decide : '.'.isDigit = false) (digits ++ rest)
      have hdigits : ∀ c ∈ digits, c.isDigit := hfraction digits rfl
      rw [leadingFraction?, afterFraction, htake hdigits, hdrop hdigits, h.exponent] at hs
      simpa [text, fractionText] using hs
    | none =>
      have hs := scan?_of_ne_nil (s := whole ++ rest) (by rwa [htake hwhole])
      rw [htake hwhole, hdrop hwhole, h.point.1, h.point.2, h.exponent] at hs
      simpa [text, fractionText] using hs

theorem scan?_text {n : Numeral} (hn : n.WellFormed) : scan? n.text = some n := by
  simpa using scan?_text_append hn ends_nil

end Numeral

namespace NumberLayout

theorem isDigit_of_mem_ofNat (n : Nat) : ∀ c ∈ Text.ofNat n, c.isDigit := fun _ hc =>
  Nat.isDigit_of_mem_toDigits (by decide) (by decide) hc

theorem isDigit_of_mem_zeros (n : Nat) : ∀ c ∈ zeros n, c.isDigit := by
  intro c hc
  rw [List.eq_of_mem_replicate hc]
  decide

def plainNumeral (tail? : Option Nat) (d : Decimal) : Numeral :=
  let digits := Text.ofNat d.coefficient
  let places := (-d.exponent).toNat
  if 0 ≤ d.exponent then ⟨digits ++ zeros d.exponent.toNat, tail?.map zeros, none⟩
  else if places < digits.length then
    ⟨digits.take (digits.length - places), some (digits.drop (digits.length - places)), none⟩
  else ⟨['0'], some (zeros (places - digits.length) ++ digits), none⟩

theorem text_plainNumeral (tail? : Option Nat) (d : Decimal) :
    (plainNumeral tail? d).text = plain (Numeral.fractionText (tail?.map zeros)) d := by
  simp only [plainNumeral, plain]
  split
  · simp [Numeral.text]
  · split
    · simp [Numeral.text, Numeral.fractionText]
    · simp [Numeral.text, Numeral.fractionText]

theorem plainNumeral_wellFormed (tail? : Option Nat) (d : Decimal) :
    (plainNumeral tail? d).WellFormed := by
  have hne : Text.ofNat d.coefficient ≠ [] := Nat.toDigits_ne_nil
  have hdigits := isDigit_of_mem_ofNat d.coefficient
  simp only [plainNumeral]
  split
  · refine ⟨by simp [hne], ?_, ?_, by simp⟩
    · exact List.forall_mem_append.mpr ⟨hdigits, isDigit_of_mem_zeros _⟩
    · intro digits hmem
      obtain ⟨k, -, rfl⟩ := Option.map_eq_some_iff.mp hmem
      exact isDigit_of_mem_zeros k
  · split
    · refine ⟨?_, fun a ha => hdigits a (List.mem_of_mem_take ha), ?_, by simp⟩
      · intro hnil
        have := congrArg List.length hnil
        rw [List.length_take, List.length_nil] at this
        omega
      · simpa using fun a ha => hdigits a (List.mem_of_mem_drop ha)
    · refine ⟨by simp, by simp, ?_, by simp⟩
      simpa using List.forall_mem_append.mpr ⟨isDigit_of_mem_zeros _, hdigits⟩

theorem toRat_plainNumeral (tail? : Option Nat) (d : Decimal) :
    (plainNumeral tail? d).decimal.toRat = d.toRat := by
  obtain ⟨c, e⟩ := d
  have hvalue : Nat.ofDigitChars 10 (Text.ofNat c) 0 = c := Nat.ofDigitChars_ten_toDigits
  simp only [plainNumeral]
  split
  · -- a whole number: zeros up to the point, and zeros after it
    obtain ⟨k, rfl⟩ := Int.eq_ofNat_of_zero_le ‹_›
    cases tail? with
    | none =>
      simp [Numeral.decimal, Decimal.toRat, zeros, Nat.ofDigitChars_append, hvalue,
        Nat.ofDigitChars_replicate_zero, mul_comm]
    | some p =>
      have hcancel : (c * 10 ^ (k + p) * (10 ^ p)⁻¹ : ℚ) = c * 10 ^ k := by
        rw [pow_add, ← mul_assoc, mul_inv_cancel_right₀ (by positivity)]
      simpa [Numeral.decimal, Decimal.toRat, zeros, Nat.ofDigitChars_append, hvalue,
        Nat.ofDigitChars_replicate_zero, mul_comm] using hcancel
  · obtain ⟨k, rfl⟩ : ∃ k : Nat, e = -k := ⟨(-e).toNat, by omega⟩
    rw [neg_neg, Int.toNat_natCast]
    split
    · -- the point stands between the digits
      have hlength : ((Text.ofNat c).drop ((Text.ofNat c).length - k)).length = k := by
        rw [List.length_drop]
        omega
      simp [Numeral.decimal, hvalue, hlength]
    · -- zeros stand between the point and the digits
      have hlength : (zeros (k - (Text.ofNat c).length) ++ Text.ofNat c).length = k := by
        rw [List.length_append, zeros, List.length_replicate]
        omega
      have hzeros : Nat.ofDigitChars 10
          ('0' :: (zeros (k - (Text.ofNat c).length) ++ Text.ofNat c)) 0 = c := by
        rw [Nat.ofDigitChars_cons, Nat.ofDigitChars_append, zeros, Nat.ofDigitChars_replicate_zero]
        simpa using hvalue
      simp [Numeral.decimal, hlength, hzeros]

end NumberLayout

namespace Binary64

theorem text_eq_plain {x : Binary64} (hfinite : x.isFinite) (hsign : x.negative = false) :
    x.text = NumberLayout.plain [] (Shortest.decimal .up x.magnitude) := by
  have hnumber : x.isNaN = false := by
    simp only [isFinite, isNaN, decide_eq_true_eq, decide_eq_false_iff_not] at hfinite ⊢
    omega
  rw [text, hnumber, hfinite]
  simp [NumberLayout.write, NumberLayout.isPlain, TokenValue.numberLayout, hsign]

theorem exists_numeral_text {x : Binary64} (hfinite : x.isFinite) (hsign : x.negative = false) :
    ∃ n : Numeral, n.WellFormed ∧ n.text = x.text ∧
      Shortest.Encloses x.magnitude (2 * (n.decimal.toRat * unitsPerOne)) := by
  refine ⟨NumberLayout.plainNumeral none (Shortest.decimal .up x.magnitude),
    NumberLayout.plainNumeral_wellFormed none _, ?_, ?_⟩
  · rw [NumberLayout.text_plainNumeral, text_eq_plain hfinite hsign]
    rfl
  · rw [NumberLayout.toRat_plainNumeral]
    exact Shortest.decimal_encloses .up x.magnitude

theorem text_injective {x y : Binary64} (hx : x.isFinite ∧ x.negative = false)
    (hy : y.isFinite ∧ y.negative = false) (h : x.text = y.text) : x = y := by
  obtain ⟨n, hn, hnx, henclosed⟩ := exists_numeral_text hx.1 hx.2
  obtain ⟨m, hm, hmy, henclosed'⟩ := exists_numeral_text hy.1 hy.2
  have hscan := Numeral.scan?_text hn
  rw [hnx, h, ← hmy, Numeral.scan?_text hm] at hscan
  obtain rfl := Option.some.inj hscan
  have hmagnitude := henclosed.unique henclosed'
  obtain ⟨negative, magnitude, _⟩ := x
  obtain ⟨negative', magnitude', _⟩ := y
  obtain rfl : magnitude = magnitude' := hmagnitude
  obtain rfl : negative = negative' := hx.2.trans hy.2.symm
  rfl

end Binary64

end ScriptLexer
