import ScriptLexer.Proofs.PrintedNumber

namespace ScriptLexer

theorem roundHalfEven_low (num : Nat) {den : Nat} (hden : 0 < den) :
    (2 * roundHalfEven num den - 1) * den ≤ 2 * num ∧
      (roundHalfEven num den % 2 = 1 → (2 * roundHalfEven num den - 1) * den < 2 * num) := by
  have hnum : num / den * den + num % den = num := Nat.div_add_mod' num den
  have hrest : num % den < den := Nat.mod_lt num hden
  have hpos (h : num / den % 2 = 1) : den ≤ num / den * den := by
    apply Nat.le_mul_of_pos_left
    apply Nat.pos_of_ne_zero
    intro hzero
    rw [hzero] at h
    omega
  unfold roundHalfEven
  dsimp only
  split
  · rw [Nat.sub_mul, Nat.mul_assoc]
    omega
  · rw [Nat.sub_mul, Nat.mul_assoc, Nat.add_mul, Nat.one_mul]
    omega

theorem roundHalfEven_high (num : Nat) {den : Nat} (hden : 0 < den) :
    2 * num ≤ (2 * roundHalfEven num den + 1) * den ∧
      (roundHalfEven num den % 2 = 1 → 2 * num < (2 * roundHalfEven num den + 1) * den) := by
  have hnum : num / den * den + num % den = num := Nat.div_add_mod' num den
  have hrest : num % den < den := Nat.mod_lt num hden
  unfold roundHalfEven
  dsimp only
  split
  · rw [Nat.add_mul, Nat.mul_assoc]
    omega
  · rw [Nat.add_mul, Nat.mul_assoc, Nat.add_mul]
    omega

theorem roundHalfEven_le {num den bound : Nat} (h : num < bound * den) :
    roundHalfEven num den ≤ bound := by
  have hquotient : num / den < bound := Nat.div_lt_of_lt_mul (by rwa [Nat.mul_comm])
  unfold roundHalfEven
  dsimp only
  split <;> omega

theorem le_roundHalfEven {num den bound : Nat} (hden : 0 < den) (h : bound * den ≤ num) :
    bound ≤ roundHalfEven num den := by
  have hquotient : bound ≤ num / den := (Nat.le_div_iff_mul_le hden).mpr h
  unfold roundHalfEven
  dsimp only
  split <;> omega

namespace Binary64

theorem units_of_scale {k s : Nat} (hs : s ≤ 2 * leadingBit) (hk : k = 0 ∨ leadingBit ≤ s) :
    units (k * leadingBit + s) = s * 2 ^ k := by
  by_cases hsmall : s < leadingBit
  · obtain rfl : k = 0 := by omega
    rw [Nat.zero_mul, Nat.zero_add, units_of_lt hsmall, Nat.pow_zero, Nat.mul_one]
  · by_cases htop : s = 2 * leadingBit
    · -- the significand has run over: it is the first one of the next scale
      have hnext : k * leadingBit + s = (k + 1 + 1) * leadingBit + 0 := by
        rw [htop, Nat.add_mul, Nat.add_mul]
        omega
      rw [hnext, units_of_block (k + 1) (by decide), htop, Nat.add_zero, Nat.pow_succ',
        ← Nat.mul_assoc, Nat.mul_comm leadingBit 2]
    · have hblock : k * leadingBit + s = (k + 1) * leadingBit + (s - leadingBit) := by
        rw [Nat.add_mul]
        omega
      rw [hblock, units_of_block k (by omega), Nat.add_sub_of_le (by omega)]

theorem le_units_succ_of_scale {k s : Nat} (hs : s ≤ 2 * leadingBit) (hk : k = 0 ∨ leadingBit ≤ s) :
    (s + 1) * 2 ^ k ≤ units (k * leadingBit + s + 1) := by
  by_cases htop : s = 2 * leadingBit
  · have hnext : k * leadingBit + s + 1 = (k + 1) * leadingBit + (leadingBit + 1) := by
      rw [htop, Nat.add_mul]
      omega
    rw [hnext, units_of_scale (by decide) (by omega), htop, Nat.pow_succ', ← Nat.mul_assoc]
    exact Nat.mul_le_mul_right _ (by decide)
  · rw [Nat.add_assoc, units_of_scale (by omega) (by omega)]

theorem units_pred_of_scale {k s : Nat} (hs : s ≤ 2 * leadingBit) (hk : k = 0 ∨ leadingBit < s) :
    units (k * leadingBit + s - 1) + units (k * leadingBit + s) = (2 * s - 1) * 2 ^ k := by
  rw [units_of_scale hs (by omega)]
  cases s with
  | zero =>
    obtain rfl : k = 0 := by omega
    simpa using units_of_lt (by decide)
  | succ t =>
    have hmid : 2 * (t + 1) - 1 = t + (t + 1) := by omega
    rw [← Nat.add_assoc, Nat.add_sub_cancel, units_of_scale (by omega) (by omega), hmid,
      ← Nat.add_mul]

theorem scale_bounds (n : Nat) {den k : Nat} (hden : 0 < den) (hk : k = (n / den).log2 - 52) :
    n < 2 * leadingBit * (den * 2 ^ k) ∧ (k ≠ 0 → leadingBit * (den * 2 ^ k) ≤ n) := by
  have hbits : leadingBit * (den * 2 ^ k) = 2 ^ (52 + k) * den := by
    rw [Nat.pow_add, leadingBit]
    ring
  rw [Nat.mul_assoc, hbits, ← Nat.mul_assoc]
  constructor
  · have hlog : n / den < 2 ^ ((n / den).log2 + 1) := Nat.lt_log2_self
    have hpow : 2 ^ ((n / den).log2 + 1) ≤ 2 * 2 ^ (52 + k) := by
      rw [← Nat.pow_succ']
      exact Nat.pow_le_pow_right (by decide) (by omega)
    exact (Nat.div_lt_iff_lt_mul hden).mp (hlog.trans_le hpow)
  · intro hpos
    have hne : n / den ≠ 0 := by
      intro hzero
      rw [hzero, Nat.log2_zero] at hk
      omega
    have hlog := Nat.log2_self_le hne
    have hexponent : (n / den).log2 = 52 + k := by omega
    rw [hexponent] at hlog
    exact (Nat.le_div_iff_mul_le hden).mp hlog

end Binary64

namespace Shortest

open Binary64

/-- The rounded significand `s` on a scale of `2 ^ k` units encloses what it was rounded from. The
first significand of a scale has a nearer neighbour below it, which needs a bound of its own. -/
theorem encloses_of_scale {k s : Nat} {twice : ℚ} (hs : s ≤ 2 * leadingBit)
    (hk : k = 0 ∨ leadingBit ≤ s) (hfirst : k = 0 ∨ (2 * leadingBit * 2 ^ k : Nat) ≤ twice)
    (hlow : ((2 * s - 1) * 2 ^ k : Nat) ≤ twice) (hhigh : twice ≤ ((2 * s + 1) * 2 ^ k : Nat))
    (hodd : s % 2 = 1 →
      ((2 * s - 1) * 2 ^ k : Nat) < twice ∧ twice < ((2 * s + 1) * 2 ^ k : Nat)) :
    Encloses (k * leadingBit + s) twice := by
  have hunits := units_of_scale hs hk
  have hleading : leadingBit % 2 = 0 := rfl
  have hparity : (k * leadingBit + s) % 2 = s % 2 := by
    rw [Nat.add_mod, Nat.mul_mod, hleading]
    omega
  have habove : (((2 * s + 1) * 2 ^ k : Nat) : ℚ) ≤
      (units (k * leadingBit + s) + units (k * leadingBit + s + 1) : Nat) := by
    have hnext := le_units_succ_of_scale hs hk
    have hsum : (2 * s + 1) * 2 ^ k = s * 2 ^ k + (s + 1) * 2 ^ k := by ring
    rw [hunits, hsum]
    exact_mod_cast Nat.add_le_add_left hnext _
  by_cases hinner : k = 0 ∨ leadingBit < s
  · rw [← units_pred_of_scale hs hinner] at hlow hodd
    refine ⟨hlow, hhigh.trans habove, ?_⟩
    intro hmod
    obtain ⟨hlt, hgt⟩ := hodd (hparity ▸ hmod)
    exact ⟨hlt, hgt.trans_le habove⟩
  · have hbound : units (k * leadingBit + s - 1) + units (k * leadingBit + s) ≤
        2 * leadingBit * 2 ^ k := by
      have hbelow := units_strictMono.monotone (Nat.sub_le (k * leadingBit + s) 1)
      have hscale : s * 2 ^ k ≤ leadingBit * 2 ^ k := Nat.mul_le_mul_right _ (by omega)
      rw [hunits] at hbelow ⊢
      rw [Nat.mul_assoc]
      omega
    have hfirst : ((2 * leadingBit * 2 ^ k : Nat) : ℚ) ≤ twice := by
      apply hfirst.resolve_left
      omega
    have hbound : ((units (k * leadingBit + s - 1) + units (k * leadingBit + s) : Nat) : ℚ) ≤
        (2 * leadingBit * 2 ^ k : Nat) := by exact_mod_cast hbound
    exact ⟨hbound.trans hfirst, hhigh.trans habove, by omega⟩

theorem encloses_nearestMagnitude (num : Nat) {den : Nat} (hden : 0 < den) :
    Encloses (nearestMagnitude num den) (2 * (num / den * unitsPerOne)) := by
  unfold nearestMagnitude
  generalize hnum : num * unitsPerOne = n
  obtain ⟨k, hk⟩ : ∃ k, k = (n / den).log2 - 52 := ⟨_, rfl⟩
  have hscale : 0 < den * 2 ^ k := Nat.mul_pos hden (Nat.two_pow_pos k)
  have hvalue : (2 * (num / den * unitsPerOne) : ℚ) * den = (2 * n : Nat) := by
    have hne : (den : ℚ) ≠ 0 := by exact_mod_cast hden.ne'
    rw [← hnum]
    push_cast
    rw [mul_assoc, mul_right_comm, div_mul_cancel₀ _ hne]
  have hle (a : Nat) := natCast_le_iff_of_mul_eq hden hvalue a
  have hge (a : Nat) := le_natCast_iff_of_mul_eq hden hvalue a
  obtain ⟨htop, hbottom⟩ := scale_bounds n hden hk
  have hcast (a : Nat) : a * 2 ^ k * den = a * (den * 2 ^ k) := by
    rw [Nat.mul_assoc, Nat.mul_comm den]
  simp only [← hk, Nat.pow_eq]
  obtain ⟨hlow, hlow'⟩ := roundHalfEven_low n hscale
  obtain ⟨hhigh, hhigh'⟩ := roundHalfEven_high n hscale
  apply encloses_of_scale
  · exact roundHalfEven_le htop
  · by_cases hpos : k = 0
    · exact .inl hpos
    · right
      apply le_roundHalfEven hscale
      exact hbottom hpos
  · by_cases hpos : k = 0
    · exact .inl hpos
    · right
      have hbottom := hbottom hpos
      rw [hle, hcast, Nat.mul_assoc]
      omega
  · rw [hle, hcast]
    exact hlow
  · rw [hge, hcast]
    exact hhigh
  · intro hmod
    rw [← not_le, ← not_le, hge, hle, hcast, hcast, not_le, not_le]
    exact ⟨hlow' hmod, hhigh' hmod⟩

theorem encloses_zero_of_lt {twice : ℚ} (hzero : 0 ≤ twice) (hone : twice < 1) :
    Encloses 0 twice := by
  have hnil : units 0 = 0 := units_of_lt (by decide)
  have hunit : units 1 = 1 := units_of_lt (by decide)
  refine ⟨?_, ?_, by omega⟩
  · simpa [hnil] using hzero
  · simpa [hnil, hunit] using hone.le

theorem Encloses.lt_of_finite {m : Nat} {twice : ℚ} (h : Encloses m twice) (hm : m < infinite) :
    twice < (2 * units infinite : Nat) := by
  have hlt := units_strictMono hm
  have hle := units_strictMono.monotone (Nat.succ_le_of_lt hm)
  have hsum : units m + units (m + 1) < 2 * units infinite := by
    rw [Nat.succ_eq_add_one] at hle
    omega
  exact h.le_high.trans_lt (by exact_mod_cast hsum)

end Shortest

namespace Decimal

theorem lt_pow_digitCount (c : Nat) : c < 10 ^ digitCount c :=
  (Nat.length_toDigits_le_iff (by decide) Nat.length_toDigits_pos).mp (Nat.le_refl _)

theorem pow_digitCount_le {c : Nat} (hc : c ≠ 0) : 10 ^ (digitCount c - 1) ≤ c := by
  by_cases hone : digitCount c = 1
  · rw [hone]
    exact Nat.pos_of_ne_zero hc
  · have hpos : 0 < digitCount c := Nat.length_toDigits_pos
    apply Nat.le_of_not_gt
    intro hlt
    have hle := (Nat.length_toDigits_le_iff (by decide) (by omega)).mpr hlt
    rw [← digitCount] at hle
    omega

theorem toRat_lt (d : Decimal) : d.toRat < 10 ^ (digitCount d.coefficient + d.exponent) := by
  have hc : (d.coefficient : ℚ) < 10 ^ digitCount d.coefficient := by
    exact_mod_cast lt_pow_digitCount d.coefficient
  rw [toRat, zpow_add₀ (by norm_num), zpow_natCast]
  exact mul_lt_mul_of_pos_right hc (zpow_pos (by norm_num) d.exponent)

theorem le_toRat {d : Decimal} (hc : d.coefficient ≠ 0) :
    10 ^ (digitCount d.coefficient + d.exponent - 1) ≤ d.toRat := by
  have hpos : 0 < digitCount d.coefficient := Nat.length_toDigits_pos
  have hplace : (digitCount d.coefficient + d.exponent - 1 : Int) =
      (digitCount d.coefficient - 1 : Nat) + d.exponent := by omega
  have hc : (10 : ℚ) ^ (digitCount d.coefficient - 1) ≤ d.coefficient := by
    exact_mod_cast pow_digitCount_le hc
  rw [toRat, hplace, zpow_add₀ (by norm_num), zpow_natCast]
  exact mul_le_mul_of_nonneg_right hc (zpow_nonneg (by norm_num) d.exponent)

theorem toRat_nonneg (d : Decimal) : 0 ≤ d.toRat :=
  mul_nonneg (Nat.cast_nonneg d.coefficient) (zpow_nonneg (by norm_num) d.exponent)

theorem toRat_eq_div (d : Decimal) : d.toRat = d.numerator / d.denominator := by
  have hden : (d.denominator : ℚ) ≠ 0 := by exact_mod_cast d.denominator_pos.ne'
  rw [eq_div_iff hden, toRat_mul_denominator]

theorem not_encloses_of_large {d : Decimal} (hc : d.coefficient ≠ 0)
    (hplace : 309 < digitCount d.coefficient + d.exponent) {m : Nat} (hm : m < Binary64.infinite) :
    ¬Shortest.Encloses m (2 * (d.toRat * Binary64.unitsPerOne)) := by
  intro h
  -- the powers stay as they are: their exponent is made a variable
  obtain ⟨p, hp⟩ : ∃ p : Nat, p = 309 := ⟨_, rfl⟩
  have hbound : Binary64.units Binary64.infinite < 10 ^ p * Binary64.unitsPerOne := by
    rw [hp]
    decide +kernel
  have hbound : (Binary64.units Binary64.infinite : ℚ) < 10 ^ p * Binary64.unitsPerOne := by
    exact_mod_cast hbound
  have hpow : (10 : ℚ) ^ p ≤ d.toRat := by
    rw [← zpow_natCast]
    exact (zpow_le_zpow_right₀ (by norm_num) (by omega)).trans (le_toRat hc)
  have hle : (10 : ℚ) ^ p * Binary64.unitsPerOne ≤ d.toRat * Binary64.unitsPerOne :=
    mul_le_mul_of_nonneg_right hpow (Nat.cast_nonneg _)
  have hlt := h.lt_of_finite hm
  push_cast at hlt
  linarith

theorem encloses_zero_of_small {d : Decimal}
    (hplace : digitCount d.coefficient + d.exponent < -323) :
    Shortest.Encloses 0 (2 * (d.toRat * Binary64.unitsPerOne)) := by
  obtain ⟨p, hp⟩ : ∃ p : Nat, p = 324 := ⟨_, rfl⟩
  have hbound : 2 * Binary64.unitsPerOne ≤ 10 ^ p := by
    rw [hp]
    decide +kernel
  have hbound : (2 * Binary64.unitsPerOne : ℚ) ≤ 10 ^ p := by exact_mod_cast hbound
  have hlt : d.toRat * 10 ^ p < 1 := by
    have hpow : d.toRat < 10 ^ (-p : Int) :=
      d.toRat_lt.trans_le (zpow_le_zpow_right₀ (by norm_num) (by omega))
    rw [zpow_neg, zpow_natCast, ← one_div] at hpow
    exact (lt_div_iff₀ (by positivity)).mp hpow
  have hle := mul_le_mul_of_nonneg_left hbound d.toRat_nonneg
  apply Shortest.encloses_zero_of_lt
  · exact mul_nonneg (by norm_num) (mul_nonneg d.toRat_nonneg (Nat.cast_nonneg _))
  · linarith

theorem encloses_nearestMagnitude (d : Decimal) :
    Shortest.Encloses (Binary64.nearestMagnitude d.numerator d.denominator)
      (2 * (d.toRat * Binary64.unitsPerOne)) := by
  rw [toRat_eq_div]
  exact Shortest.encloses_nearestMagnitude d.numerator d.denominator_pos

/-- Decimals that are settled by their leading digit's place are read as their exact fractions
would be: they are far from every other magnitude. -/
theorem nearest?_eq_of_fraction (d : Decimal) :
    d.nearest? = Binary64.nearest? d.numerator d.denominator := by
  have hnearest := d.encloses_nearestMagnitude
  have hzero (hfound : Shortest.Encloses 0 (2 * (d.toRat * Binary64.unitsPerOne))) :
      some .zero = Binary64.nearest? d.numerator d.denominator := by
    have hmagnitude := hnearest.unique hfound
    rw [Binary64.nearest?]
    simp only [hmagnitude]
    rfl
  unfold nearest?
  dsimp only
  split
  · rename_i hc
    apply hzero
    rw [toRat, hc, Nat.cast_zero, zero_mul, zero_mul, mul_zero]
    exact Shortest.encloses_zero_of_lt le_rfl one_pos
  · rename_i hc
    split
    · rename_i hplace
      symm
      apply dif_neg
      intro hm
      exact not_encloses_of_large hc hplace hm hnearest
    · split
      · rename_i hplace
        apply hzero
        exact encloses_zero_of_small hplace
      · rfl

theorem nearest?_of_encloses {d : Decimal} {m : Nat} (hm : m < Binary64.infinite)
    (h : Shortest.Encloses m (2 * (d.toRat * Binary64.unitsPerOne))) :
    d.nearest? = some (Binary64.ofMagnitude m hm) := by
  obtain rfl := h.unique d.encloses_nearestMagnitude
  rw [nearest?_eq_of_fraction]
  exact dif_pos hm

end Decimal

end ScriptLexer
