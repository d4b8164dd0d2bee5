import Mathlib.Algebra.Order.Ring.Abs
import Mathlib.Logic.ExistsUnique
import Mathlib.Tactic.FieldSimp
import ScriptLexer.Proofs.NearestDouble

namespace ScriptLexer

namespace Binary64

theorem abs_le_iff_mul_nonneg {a b twice : ℚ} :
    |2 * a - twice| ≤ |2 * b - twice| ↔ 0 ≤ (b - a) * (a + b - twice) := by
  have hfactor : (2 * b - twice) ^ 2 - (2 * a - twice) ^ 2 =
      4 * ((b - a) * (a + b - twice)) := by ring
  rw [← sq_le_sq, ← sub_nonneg, hfactor, mul_nonneg_iff_of_pos_left (by norm_num)]

theorem abs_le_iff_le_midpoint {a b twice : ℚ} (hab : a < b) :
    |2 * a - twice| ≤ |2 * b - twice| ↔ twice ≤ a + b := by
  rw [abs_le_iff_mul_nonneg, mul_nonneg_iff_of_pos_left (sub_pos.mpr hab), sub_nonneg]

theorem abs_ge_iff_ge_midpoint {a b twice : ℚ} (hab : a < b) :
    |2 * b - twice| ≤ |2 * a - twice| ↔ a + b ≤ twice := by
  have hswap : (a - b) * (b + a - twice) = (b - a) * (twice - (a + b)) := by ring
  rw [abs_le_iff_mul_nonneg, hswap, mul_nonneg_iff_of_pos_left (sub_pos.mpr hab), sub_nonneg]

def signedUnits (x : Binary64) : ℚ :=
  if x.negative then -(units x.magnitude : ℚ) else units x.magnitude

def toRat (x : Binary64) : ℚ := x.signedUnits / unitsPerOne

/-- No finite double is nearer to `v`, and where another is as near the significand is even. -/
structure IsNearest (x : Binary64) (v : ℚ) : Prop where
  isFinite : x.isFinite
  nonneg : x.negative = false
  abs_le : ∀ y : Binary64, y.isFinite → |x.toRat - v| ≤ |y.toRat - v|
  even_of_tie : ∀ y : Binary64, y.isFinite → y.toRat ≠ x.toRat →
    |y.toRat - v| = |x.toRat - v| → significand x.magnitude % 2 = 0

theorem significand_mod_two (m : Nat) : significand m % 2 = m % 2 := by
  unfold significand
  split
  · rfl
  · rw [leadingBit]
    omega

theorem signedUnits_ofMagnitude {m : Nat} (hm : m < infinite) :
    (ofMagnitude m hm).signedUnits = units m := rfl

theorem signedUnits_cases (y : Binary64) :
    (∃ k, y.signedUnits = units k) ∨ y.signedUnits < 0 := by
  unfold signedUnits
  cases y.negative with
  | false => exact .inl ⟨y.magnitude, rfl⟩
  | true =>
    rcases Nat.eq_zero_or_pos (units y.magnitude) with hzero | hpos
    · have hunits : units 0 = 0 := units_of_lt (by decide)
      refine .inl ⟨0, ?_⟩
      rw [if_pos rfl, hzero, hunits, Nat.cast_zero, neg_zero]
    · right
      rw [if_pos rfl, neg_neg_iff_pos]
      exact_mod_cast hpos

theorem unitsPerOne_pos : (0 : ℚ) < unitsPerOne := by
  apply Nat.cast_pos.mpr
  decide +kernel

theorem toRat_lt_toRat {m m' : Nat} {hm : m < infinite} {hm' : m' < infinite} (h : m < m') :
    (ofMagnitude m hm).toRat < (ofMagnitude m' hm').toRat := by
  apply div_lt_div_of_pos_right _ unitsPerOne_pos
  rw [signedUnits_ofMagnitude, signedUnits_ofMagnitude]
  exact_mod_cast units_strictMono h

theorem toRat_mono {m m' : Nat} {hm : m < infinite} {hm' : m' < infinite} (h : m ≤ m') :
    (ofMagnitude m hm).toRat ≤ (ofMagnitude m' hm').toRat := by
  rcases h.lt_or_eq with hlt | rfl
  · exact (toRat_lt_toRat hlt).le
  · exact le_rfl

theorem mul_abs_toRat_sub (x : Binary64) (v : ℚ) :
    2 * unitsPerOne * |x.toRat - v| = |2 * x.signedUnits - 2 * (v * unitsPerOne)| := by
  have hpos := unitsPerOne_pos
  rw [toRat]
  generalize (unitsPerOne : ℚ) = u at hpos ⊢
  have hscale : 0 < 2 * u := by linarith
  rw [← abs_of_pos hscale, ← abs_mul]
  congr 1
  field_simp

theorem abs_toRat_sub_le_iff {x y : Binary64} {v : ℚ} :
    |x.toRat - v| ≤ |y.toRat - v| ↔
      |2 * x.signedUnits - 2 * (v * unitsPerOne)| ≤ |2 * y.signedUnits - 2 * (v * unitsPerOne)| := by
  have hscale : (0 : ℚ) < 2 * unitsPerOne := by linarith [unitsPerOne_pos]
  rw [← mul_abs_toRat_sub, ← mul_abs_toRat_sub, mul_le_mul_iff_of_pos_left hscale]

theorem IsNearest.eq_ofMagnitude {x : Binary64} {v : ℚ} (h : x.IsNearest v) :
    ∃ m hm, x = ofMagnitude m hm := by
  obtain ⟨negative, m, hm⟩ := x
  obtain rfl : negative = false := h.nonneg
  exact ⟨m, of_decide_eq_true h.isFinite, rfl⟩

/-- Two nearest doubles would be equally near, so both even, and one between them nearer. -/
theorem IsNearest.not_lt {m m' : Nat} {hm : m < infinite} {hm' : m' < infinite} {v : ℚ}
    (h : (ofMagnitude m hm).IsNearest v) (h' : (ofMagnitude m' hm').IsNearest v) : ¬m < m' := by
  intro hlt
  have hne : (ofMagnitude m hm).toRat < (ofMagnitude m' hm').toRat := toRat_lt_toRat hlt
  have htie : |(ofMagnitude m hm).toRat - v| = |(ofMagnitude m' hm').toRat - v| :=
    le_antisymm (h.abs_le _ h'.isFinite) (h'.abs_le _ h.isFinite)
  have heven : m % 2 = 0 :=
    (significand_mod_two m).symm.trans (h.even_of_tie _ h'.isFinite hne.ne' htie.symm)
  have heven' : m' % 2 = 0 :=
    (significand_mod_two m').symm.trans (h'.even_of_tie _ h.isFinite hne.ne htie)
  have hnext : m + 1 < m' := by omega
  have hlow : (units m : ℚ) < units (m + 1) := by exact_mod_cast units_lt_units_succ m
  have hhigh : (units (m + 1) : ℚ) < units m' := by exact_mod_cast units_strictMono hnext
  have hbetween := abs_toRat_sub_le_iff.mp
    (h.abs_le (ofMagnitude (m + 1) (hnext.trans hm')) (decide_eq_true (hnext.trans hm')))
  have hfar := abs_toRat_sub_le_iff.mp htie.ge
  rw [signedUnits_ofMagnitude, signedUnits_ofMagnitude] at hbetween hfar
  have hupper := (abs_le_iff_le_midpoint hlow).mp hbetween
  have hlower := (abs_ge_iff_ge_midpoint (hlow.trans hhigh)).mp hfar
  linarith

theorem IsNearest.unique {x y : Binary64} {v : ℚ} (hx : x.IsNearest v) (hy : y.IsNearest v) :
    x = y := by
  obtain ⟨m, hm, rfl⟩ := hx.eq_ofMagnitude
  obtain ⟨m', hm', rfl⟩ := hy.eq_ofMagnitude
  rcases Nat.lt_trichotomy m m' with hlt | rfl | hlt
  · exact absurd hlt (hx.not_lt hy)
  · rfl
  · exact absurd hlt (hy.not_lt hx)

theorem units_add_units_infinite :
    ((units (infinite - 1) + units infinite : Nat) : ℚ) =
      2 * ((2 ^ 1024 - 2 ^ 970) * unitsPerOne) := by
  -- the powers stay as they are: their exponents are made variables
  obtain ⟨p, hp⟩ : ∃ p : Nat, p = 1024 := ⟨_, rfl⟩
  obtain ⟨q, hq⟩ : ∃ q : Nat, q = 970 := ⟨_, rfl⟩
  have hsum : units (infinite - 1) + units infinite + 2 * (2 ^ q * unitsPerOne) =
      2 * (2 ^ p * unitsPerOne) := by
    rw [hp, hq]
    decide +kernel
  have hcast : ((units (infinite - 1) + units infinite : Nat) : ℚ) + 2 * (2 ^ q * unitsPerOne) =
      2 * (2 ^ p * unitsPerOne) := by
    exact_mod_cast hsum
  rw [← hp, ← hq]
  linarith

end Binary64

namespace Shortest

open Binary64

theorem Encloses.nearest {m : Nat} {twice : ℚ} (h : Encloses m twice) (k : Nat) :
    |2 * (units m : ℚ) - twice| ≤ |2 * (units k : ℚ) - twice| ∧
      (k ≠ m → |2 * (units k : ℚ) - twice| = |2 * (units m : ℚ) - twice| → m % 2 = 0) := by
  rcases Nat.lt_trichotomy k m with hlt | rfl | hlt
  · have hunits : (units k : ℚ) < units m := by exact_mod_cast units_strictMono hlt
    have hle : (units k : ℚ) ≤ units (m - 1) := by
      exact_mod_cast units_strictMono.monotone (show k ≤ m - 1 by omega)
    have hlow := h.low_le
    push_cast at hlow
    refine ⟨(abs_ge_iff_ge_midpoint hunits).mpr (by linarith), ?_⟩
    intro _ htie
    by_contra hodd
    have hstrict := (h.lt_of_odd (by omega)).1
    push_cast at hstrict
    have htop := (abs_le_iff_le_midpoint hunits).mp htie.le
    linarith
  · exact ⟨le_rfl, fun hne => absurd rfl hne⟩
  · have hunits : (units m : ℚ) < units k := by exact_mod_cast units_strictMono hlt
    have hle : (units (m + 1) : ℚ) ≤ units k := by
      exact_mod_cast units_strictMono.monotone (show m + 1 ≤ k by omega)
    have hhigh := h.le_high
    push_cast at hhigh
    refine ⟨(abs_le_iff_le_midpoint hunits).mpr (by linarith), ?_⟩
    intro _ htie
    by_contra hodd
    have hstrict := (h.lt_of_odd (by omega)).2
    push_cast at hstrict
    have hbottom := (abs_ge_iff_ge_midpoint hunits).mp htie.le
    linarith

theorem Encloses.nearest_double {m : Nat} {twice : ℚ} (h : Encloses m twice) (y : Binary64) :
    |2 * (units m : ℚ) - twice| ≤ |2 * y.signedUnits - twice| ∧
      (y.signedUnits ≠ units m →
        |2 * y.signedUnits - twice| = |2 * (units m : ℚ) - twice| → m % 2 = 0) := by
  rcases y.signedUnits_cases with ⟨k, hk⟩ | hneg
  · rw [hk]
    obtain ⟨hle, htie⟩ := h.nearest k
    refine ⟨hle, ?_⟩
    intro hne
    apply htie
    rintro rfl
    exact hne rfl
  · -- zero is nearer than anything below it
    have hzero : (units 0 : ℚ) = 0 := by exact_mod_cast units_of_lt (m := 0) (by decide)
    have htwice : 0 ≤ twice := (Nat.cast_nonneg _).trans h.low_le
    have hle := (h.nearest 0).1
    rw [hzero] at hle
    refine ⟨hle.trans ((abs_ge_iff_ge_midpoint hneg).mpr (by linarith)), ?_⟩
    intro _ htie
    have hbelow := (abs_le_iff_le_midpoint hneg).mp (htie.le.trans hle)
    linarith

theorem Encloses.isNearest {m : Nat} {v : ℚ} (h : Encloses m (2 * (v * unitsPerOne)))
    (hm : m < infinite) : (ofMagnitude m hm).IsNearest v := by
  refine ⟨decide_eq_true hm, rfl, ?_, ?_⟩
  · intro y _
    rw [abs_toRat_sub_le_iff, signedUnits_ofMagnitude]
    exact (h.nearest_double y).1
  · intro y _ hne htie
    rw [significand_mod_two]
    apply (h.nearest_double y).2
    · intro hsame
      apply hne
      rw [toRat, toRat, hsame, signedUnits_ofMagnitude]
    · rw [← signedUnits_ofMagnitude hm, ← mul_abs_toRat_sub, ← mul_abs_toRat_sub, htie]

/-- The magnitude above the largest finite one is even, so the midpoint between them is out of
range. -/
theorem Encloses.lt_infinite_iff {m : Nat} {v : ℚ} (h : Encloses m (2 * (v * unitsPerOne))) :
    m < infinite ↔ v < 2 ^ 1024 - 2 ^ 970 := by
  have hiff : v < 2 ^ 1024 - 2 ^ 970 ↔
      2 * (v * unitsPerOne) < (units (infinite - 1) + units infinite : Nat) := by
    rw [units_add_units_infinite, mul_lt_mul_iff_of_pos_left two_pos,
      mul_lt_mul_iff_of_pos_right unitsPerOne_pos]
  rw [hiff]
  constructor
  · intro hm
    by_cases hlast : m = infinite - 1
    · subst hlast
      have hnext : infinite - 1 + 1 = infinite := rfl
      have hodd := (h.lt_of_odd (by decide)).2
      rwa [hnext] at hodd
    · have hfirst := units_strictMono (show m < infinite - 1 by omega)
      have hsecond := units_strictMono (show m + 1 < infinite by omega)
      apply h.le_high.trans_lt
      exact_mod_cast Nat.add_lt_add hfirst hsecond
  · intro hlt
    apply Nat.lt_of_not_le
    intro hm
    have hfirst := units_strictMono.monotone (show infinite - 1 ≤ m - 1 by omega)
    have hsecond := units_strictMono.monotone hm
    apply hlt.not_ge
    apply le_trans _ h.low_le
    exact_mod_cast Nat.add_le_add hfirst hsecond

end Shortest

theorem Decimal.nearest?_cases (d : Decimal) :
    (2 ^ 1024 - 2 ^ 970 ≤ d.toRat ∧ d.nearest? = none) ∨
    (d.toRat < 2 ^ 1024 - 2 ^ 970 ∧ ∃ m hm, d.nearest? = some (Binary64.ofMagnitude m hm) ∧
      Shortest.Encloses m (2 * (d.toRat * Binary64.unitsPerOne))) := by
  have henclosed := d.encloses_nearestMagnitude
  have hrange := henclosed.lt_infinite_iff
  rw [nearest?_eq_of_fraction]
  by_cases hm : Binary64.nearestMagnitude d.numerator d.denominator < Binary64.infinite
  · exact .inr ⟨hrange.mp hm, _, hm, dif_pos hm, henclosed⟩
  · refine .inl ⟨?_, dif_neg hm⟩
    rwa [hrange, not_lt] at hm

theorem Decimal.exists_ofMagnitude_of_nearest? {d : Decimal} {x : Binary64}
    (h : d.nearest? = some x) : ∃ m hm, x = Binary64.ofMagnitude m hm := by
  rcases d.nearest?_cases with ⟨-, hnone⟩ | ⟨-, m, hm, hsome, -⟩
  · rw [h] at hnone
    cases hnone
  · exact ⟨m, hm, Option.some.inj (h.symm.trans hsome)⟩

theorem Decimal.isFinite_of_nearest? {d : Decimal} {x : Binary64} (h : d.nearest? = some x) :
    x.isFinite := by
  obtain ⟨m, hm, rfl⟩ := exists_ofMagnitude_of_nearest? h
  exact decide_eq_true hm

theorem Decimal.negative_of_nearest? {d : Decimal} {x : Binary64} (h : d.nearest? = some x) :
    x.negative = false := by
  obtain ⟨m, hm, rfl⟩ := exists_ofMagnitude_of_nearest? h
  rfl

def NumeralExponent.scale (e : NumeralExponent) : ℚ :=
  let power : ℚ := 10 ^ Nat.ofDigitChars 10 e.digits 0
  if e.sign? = some '-' then power⁻¹ else power

theorem NumeralExponent.zpow_value (e : NumeralExponent) : (10 : ℚ) ^ e.value = e.scale := by
  simp only [value, scale]
  split
  · rw [zpow_neg, zpow_natCast]
  · rw [zpow_natCast]

namespace Numeral

def exact (n : Numeral) : ℚ :=
  let places := n.fraction?.getD []
  (Nat.ofDigitChars 10 n.whole 0 + Nat.ofDigitChars 10 places 0 / 10 ^ places.length) *
    (n.exponent?.map NumeralExponent.scale).getD 1

theorem zpow_shift (exponent? : Option NumeralExponent) :
    (10 : ℚ) ^ (exponent?.map NumeralExponent.value).getD 0 =
      (exponent?.map NumeralExponent.scale).getD 1 := by
  cases exponent? with
  | none => exact zpow_zero 10
  | some e => exact e.zpow_value

theorem toRat_decimal (n : Numeral) : n.decimal.toRat = n.exact := by
  obtain ⟨whole, fraction?, exponent?⟩ := n
  simp only [decimal, Decimal.toRat, exact, ← zpow_shift]
  generalize fraction?.getD [] = places
  generalize (exponent?.map NumeralExponent.value).getD 0 = shift
  rw [Nat.ofDigitChars_append, Nat.ofDigitChars_eq_ofDigitChars_zero, zpow_sub₀ (by norm_num),
    zpow_natCast]
  push_cast
  field_simp

def Denotes (t : Text) (v : ℚ) : Prop := ∃ n : Numeral, n.WellFormed ∧ n.text = t ∧ n.exact = v

theorem Denotes.unique {t : Text} {v w : ℚ} (hv : Denotes t v) (hw : Denotes t w) : v = w := by
  obtain ⟨n, hn, htext, rfl⟩ := hv
  obtain ⟨m, hm, rfl, rfl⟩ := hw
  have hscan := scan?_text hn
  rw [htext, scan?_text hm] at hscan
  rw [Option.some.inj hscan]

theorem denotes_digits {digits : Text} (hne : digits ≠ []) (h : digits.all Char.isDigit) :
    Denotes digits (Nat.ofDigitChars 10 digits 0 : Nat) := by
  refine ⟨⟨digits, none, none⟩, ⟨hne, List.all_eq_true.mp h, by simp, by simp⟩, ?_, ?_⟩
  · simp [text, fractionText]
  · simp [exact]

theorem denotes_scientific {digits : Text} {e : NumeralExponent} (hne : digits ≠ [])
    (h : digits.all Char.isDigit) (he : e.WellFormed) :
    Denotes (digits ++ e.text) ((Nat.ofDigitChars 10 digits 0 : Nat) * e.scale) := by
  refine ⟨⟨digits, none, some e⟩, ⟨hne, List.all_eq_true.mp h, by simp, ?_⟩, ?_, ?_⟩
  · rintro _ ⟨⟩
    exact he
  · simp [text, fractionText]
  · simp [exact]

theorem existsUnique_denotes {t : Text} (h : Category.number.Language t) : ∃! v, Denotes t v := by
  obtain ⟨n, hn, rfl⟩ := h
  have hexact : Denotes n.text n.exact := ⟨n, hn, rfl, rfl⟩
  exact ⟨n.exact, hexact, fun w hw => hw.unique hexact⟩

end Numeral

end ScriptLexer
