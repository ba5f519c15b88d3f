import SuitePlan.Proofs.Decimal.Rounding

/-! What is left of the bits that are shifted out of a mantissa. Two bits are enough to tell on which
side of the middle a number lies, so rounding such a mantissa gives the nearest double. -/

namespace SuitePlan

namespace Binary64

open Float.Model Float.Model.UnpackedFloat

/-- A mantissa and the two bits behind it stand for any number that they do not exclude: the first bit
tells whether it lies in the upper half of a unit, and the second one whether it lies within a half. -/
structure Locates (em : ExtendedMantissa) (q : ℚ) : Prop where
  low : em.mantissa ≤ q
  high : q < em.mantissa + 1
  round : em.roundBit = true ↔ (em.mantissa : ℚ) + 1 / 2 ≤ q
  sticky : em.stickyBit = true ↔ q ≠ em.mantissa ∧ q ≠ (em.mantissa : ℚ) + 1 / 2

theorem locates_exact (m : Nat) : Locates (.ofMantissaAndAccuracy m .exact) m := by
  refine ⟨le_rfl, lt_add_one _, iff_of_false Bool.false_ne_true ?_, iff_of_false Bool.false_ne_true ?_⟩
  · show ¬ (m : ℚ) + 1 / 2 ≤ m
    linarith
  · exact fun h => h.1 rfl

/-- A fraction of a unit is told by its numerator and its denominator. -/
theorem locates_residual {em : ExtendedMantissa} {r den : Nat} (hlt : r < den)
    (hround : em.roundBit = true ↔ den ≤ 2 * r)
    (hsticky : em.stickyBit = true ↔ r ≠ 0 ∧ 2 * r ≠ den) :
    Locates em (em.mantissa + (r : ℚ) / den) := by
  have hd : 0 < den := Nat.zero_lt_of_lt hlt
  have hcast : (0 : ℚ) < den := Nat.cast_pos.mpr hd
  have hhalf : (em.mantissa : ℚ) + 1 / 2 ≤ em.mantissa + (r : ℚ) / den ↔ den ≤ 2 * r := by
    rw [add_le_add_iff_left, div_le_div_iff₀ two_pos hcast]
    exact_mod_cast (by omega : 1 * den ≤ r * 2 ↔ den ≤ 2 * r)
  have hmid : (em.mantissa : ℚ) + r / den = em.mantissa + 1 / 2 ↔ 2 * r = den := by
    rw [add_right_inj, div_eq_div_iff hcast.ne' two_ne_zero]
    exact_mod_cast (by omega : r * 2 = 1 * den ↔ 2 * r = den)
  have hone : (r : ℚ) / den < 1 := by
    rw [div_lt_one hcast]
    exact_mod_cast hlt
  have hzero : (em.mantissa : ℚ) + r / den = em.mantissa ↔ r = 0 := by
    simp [hd.ne']
  refine ⟨le_add_of_nonneg_right (by positivity), by simpa using hone, ?_, ?_⟩
  · exact hround.trans hhalf.symm
  · rw [hsticky, Ne, Ne, Ne, Ne, hzero, hmid]

theorem locates_fraction (num : Nat) {den : Nat} (hd : 0 < den) :
    Locates (.ofMantissaAndAccuracy (num / den) (accuracyOfFraction (num % den) den))
      ((num : ℚ) / den) := by
  have hcast : (0 : ℚ) < den := Nat.cast_pos.mpr hd
  have hlt : num % den < den := Nat.mod_lt num hd
  have hq : (num : ℚ) / den = (num / den : Nat) + (num % den : Nat) / den := by
    have hsplit : (den : ℚ) * (num / den : Nat) + (num % den : Nat) = num := by
      exact_mod_cast Nat.div_add_mod num den
    rw [← hsplit]
    field_simp
  rw [hq]
  generalize num / den = m
  generalize num % den = r at hlt
  unfold accuracyOfFraction
  by_cases h0 : r = 0
  · rw [if_pos h0]
    exact locates_residual hlt (iff_of_false Bool.false_ne_true (by omega))
      (iff_of_false Bool.false_ne_true (by omega))
  · rw [if_neg h0]
    rcases lt_trichotomy (2 * r) den with hlow | heq | hhigh
    · rw [Nat.compare_eq_lt.mpr hlow]
      exact locates_residual hlt (iff_of_false Bool.false_ne_true (by omega))
        (iff_of_true rfl (by omega))
    · rw [Nat.compare_eq_eq.mpr heq]
      exact locates_residual hlt (iff_of_true rfl (by omega))
        (iff_of_false Bool.false_ne_true (by omega))
    · rw [Nat.compare_eq_gt.mpr hhigh]
      exact locates_residual hlt (iff_of_true rfl (by omega)) (iff_of_true rfl (by omega))

namespace Locates

variable {em : ExtendedMantissa} {q : ℚ}

theorem shiftRightOne (h : Locates em q) : Locates em.shiftRightOne (q / 2) := by
  obtain ⟨m, round, sticky⟩ := em
  obtain ⟨hlow, hhigh, hround, hsticky⟩ := h
  dsimp only at hlow hhigh hround hsticky
  have hlost : (round || sticky) = true ↔ q ≠ m := by
    rw [Bool.or_eq_true, hround, hsticky]
    constructor
    · rintro (hle | ⟨hne, -⟩)
      · exact fun heq => by linarith
      · exact hne
    · intro hne
      by_cases hmid : q = m + 1 / 2
      · exact .inl hmid.ge
      · exact .inr ⟨hne, hmid⟩
  have hsplit : (m : ℚ) = 2 * (m / 2 : Nat) + (m % 2 : Nat) := by
    exact_mod_cast (Nat.div_add_mod m 2).symm
  have hmantissa : (ExtendedMantissa.shiftRightOne ⟨m, round, sticky⟩).mantissa = m / 2 := rfl
  have hparity : (ExtendedMantissa.shiftRightOne ⟨m, round, sticky⟩).roundBit = (m % 2 != 0) := rfl
  have hrest : (ExtendedMantissa.shiftRightOne ⟨m, round, sticky⟩).stickyBit = (round || sticky) := rfl
  rcases Nat.mod_two_eq_zero_or_one m with hp | hp
  · rw [hp, Nat.cast_zero, add_zero] at hsplit
    refine ⟨?_, ?_, ?_, ?_⟩
    · rw [hmantissa]
      linarith
    · rw [hmantissa]
      linarith
    · rw [hparity, hmantissa, hp]
      exact iff_of_false Bool.false_ne_true fun hle => by linarith
    · rw [hrest, hmantissa, hlost]
      constructor
      · exact fun hne => ⟨fun heq => hne (by linarith), fun heq => by linarith⟩
      · exact fun hne heq => hne.1 (by linarith)
  · rw [hp, Nat.cast_one] at hsplit
    refine ⟨?_, ?_, ?_, ?_⟩
    · rw [hmantissa]
      linarith
    · rw [hmantissa]
      linarith
    · rw [hparity, hmantissa, hp]
      exact iff_of_true rfl (by linarith)
    · rw [hrest, hmantissa, hlost]
      constructor
      · exact fun hne => ⟨fun heq => by linarith, fun heq => hne (by linarith)⟩
      · exact fun hne heq => hne.2 (by linarith)

theorem shiftRight (h : Locates em q) (k : Nat) : Locates (em >>> k) (q / 2 ^ k) := by
  induction k with
  | zero =>
    rw [pow_zero, div_one]
    exact h
  | succ k ih =>
    rw [pow_succ, ← div_div]
    exact ih.shiftRightOne

theorem roundedMantissa_cases (h : Locates em q) :
    (em.roundedMantissa = em.mantissa ∧ q < em.mantissa + 1 / 2) ∨
      (em.roundedMantissa = em.mantissa + em.mantissa % 2 ∧ q = em.mantissa + 1 / 2) ∨
      (em.roundedMantissa = em.mantissa + 1 ∧ (em.mantissa : ℚ) + 1 / 2 < q) := by
  obtain ⟨m, round, sticky⟩ := em
  obtain ⟨hlow, hhigh, hround, hsticky⟩ := h
  cases round with
  | false =>
    have hbelow : q < m + 1 / 2 := not_le.mp fun hle => Bool.false_ne_true (hround.mpr hle)
    refine .inl ⟨?_, hbelow⟩
    cases sticky <;> rfl
  | true =>
    have habove : (m : ℚ) + 1 / 2 ≤ q := hround.mp rfl
    cases sticky with
    | true => exact .inr (.inr ⟨rfl, lt_of_le_of_ne habove (hsticky.mp rfl).2.symm⟩)
    | false =>
      refine .inr (.inl ⟨rfl, ?_⟩)
      by_contra hne
      exact Bool.false_ne_true (hsticky.mpr ⟨fun heq => by linarith, hne⟩)

theorem roundedMantissa_le_iff (h : Locates em q) (r : Nat) :
    em.roundedMantissa ≤ r ↔ q < r + 1 / 2 ∨ q = r + 1 / 2 ∧ r % 2 = 0 := by
  have hlow := h.low
  have hhigh := h.high
  have hcases := h.roundedMantissa_cases
  generalize em.roundedMantissa = n at hcases
  generalize em.mantissa = m at hlow hhigh hcases
  rcases Nat.lt_trichotomy m r with hm | rfl | hm
  · have hm' : (m : ℚ) + 1 ≤ r := by exact_mod_cast hm
    exact iff_of_true (by omega) (.inl (by linarith))
  · rcases hcases with ⟨hn, hq⟩ | ⟨hn, hq⟩ | ⟨hn, hq⟩
    · exact iff_of_true hn.le (.inl hq)
    · rw [hn, or_iff_right hq.not_lt, and_iff_right hq]
      omega
    · refine iff_of_false (by omega) ?_
      rintro (hlt | ⟨heq, -⟩)
      · exact lt_asymm hq hlt
      · exact hq.ne' heq
  · have hm' : (r : ℚ) + 1 ≤ m := by exact_mod_cast hm
    refine iff_of_false (by omega) ?_
    rintro (hlt | ⟨heq, -⟩)
    · linarith
    · linarith

end Locates

theorem mantissa_shiftRight (em : ExtendedMantissa) (k : Nat) :
    (em >>> k).mantissa = em.mantissa / 2 ^ k := by
  induction k with
  | zero => exact (Nat.div_one _).symm
  | succ k ih =>
    show (em >>> k).mantissa / 2 = _
    rw [ih, Nat.div_div_eq_div_mul, pow_succ]

theorem targetExponent_eq (t : Int) : Format.binary64.targetExponent t = max (t - 53) (-1074) := rfl

/-- A mantissa of 53 bits that was rounded up may have one bit more. -/
theorem carried {r : Nat} {f : Int} (hr : r ≤ 2 ^ 53) (hf : -1074 ≤ f)
    (hlow : f = -1074 ∨ 2 ^ 52 ≤ r) :
    ∃ m e, (shiftToTargetExponent .binary64 r f .exact).1.mantissa = m ∧
      (shiftToTargetExponent .binary64 r f .exact).2 = e ∧ Normal m e ∧
      (e + 1074).toNat * 2 ^ 52 + m = (f + 1074).toNat * 2 ^ 52 + r := by
  refine ⟨_, _, rfl, rfl, ?_⟩
  have hshift : (shiftToTargetExponent .binary64 r f .exact).1.mantissa =
      r / 2 ^ (max (totalExponent r f - 53) (-1074) - f).toNat := mantissa_shiftRight _ _
  have hexp : (shiftToTargetExponent .binary64 r f .exact).2 =
      f + (max (totalExponent r f - 53) (-1074) - f).toNat := rfl
  rw [hshift, hexp, totalExponent]
  rcases hr.lt_or_eq with hlt | rfl
  · have hlog : r.log2 < 53 := by
      by_cases h0 : r = 0
      · rw [h0, Nat.log2_zero]
        decide
      · exact (Nat.log2_lt h0).mpr hlt
    have hstay : (max ((r.log2 : Int) + 1 + f - 53) (-1074) - f).toNat = 0 := by omega
    rw [hstay, pow_zero, Nat.div_one]
    refine ⟨⟨by omega, hlt, by omega⟩, by omega⟩
  · have hlog : (2 ^ 53 : Nat).log2 = 53 := Nat.log2_two_pow
    have hone : (max (((2 ^ 53 : Nat).log2 : Int) + 1 + f - 53) (-1074) - f).toNat = 1 := by omega
    rw [hone]
    exact ⟨⟨by omega, by norm_num, .inr (by norm_num)⟩, by omega⟩

theorem pack_bits {m : Nat} {e : Int} (h : Normal m e) (hm : 0 < m) :
    (UnpackedFloat.pack .binary64 (.finite .positive m e hm)).toNat =
      min ((e + 1074).toNat * 2 ^ 52 + m) infinity := by
  obtain ⟨hlow, hbelow, habove⟩ := h
  have hbias : (e + Format.binary64.exponentBias + Format.binary64.mantissaBitsWithoutImplicit).toNat =
      (e + 1075).toNat := by
    have hb : Format.binary64.exponentBias = 1023 := rfl
    have hm : Format.binary64.mantissaBitsWithoutImplicit = 52 := rfl
    rw [hb, hm]
    omega
  have hbits : Format.binary64.mantissaBits = 53 := rfl
  have hsign : Sign.positive.toBitVec.toNat = 0 := rfl
  rw [infinity_eq]
  simp only [UnpackedFloat.pack, hbias, hbits]
  by_cases hlarge : 2047 ≤ (e + 1075).toNat
  · rw [if_pos (by omega)]
    have hinf : (packedInfinity Format.binary64 .positive).toNat = 2047 * 2 ^ 52 := rfl
    rw [hinf]
    omega
  · rw [if_neg (by omega)]
    by_cases hfull : 2 ^ 52 ≤ m
    · have hlog : m.log2 = 52 := by
        have h1 := (Nat.le_log2 hm.ne').mpr hfull
        have h2 := (Nat.log2_lt hm.ne').mpr hbelow
        omega
      rw [if_pos (by omega), packComponents_toNat, hsign, BitVec.toNat_ofNat, BitVec.toNat_ofNat]
      show 0 * 2 ^ 63 + (e + 1075).toNat % 2 ^ 11 * 2 ^ 52 + m % 2 ^ 52 = _
      omega
    · have hlog : m.log2 < 52 := (Nat.log2_lt hm.ne').mpr (by omega)
      rw [if_neg (by omega), packComponents_toNat, hsign, BitVec.toNat_ofNat]
      show 0 * 2 ^ 63 + 0 * 2 ^ 52 + m % 2 ^ 52 = _
      omega

/-- The exponent to which a mantissa is shifted is that of the binade of the numbers it is the whole
part of. A mantissa of zero tells nothing of a number that is not among the smallest ones. -/
theorem binade_target {m : Nat} {e : Int} {q : ℚ} (hlow : m ≤ q) (hhigh : q < m + 1)
    (hm : m ≠ 0 ∨ e ≤ -1022) : Binade (q * 2 ^ e) (max ((m.log2 : Int) + 1 + e - 53) (-1074)) := by
  have htwo : (2 : ℚ) ≠ 0 := by norm_num
  obtain ⟨f, hf⟩ : ∃ f, f = max ((m.log2 : Int) + 1 + e - 53) (-1074) := ⟨_, rfl⟩
  rw [← hf]
  refine ⟨by omega, ?_, ?_⟩
  · have hlog : (m : ℚ) + 1 ≤ 2 ^ ((m.log2 : Int) + 1) := by
      exact_mod_cast (Nat.lt_log2_self : m < 2 ^ (m.log2 + 1))
    have hpow : (2 : ℚ) ^ ((m.log2 : Int) + 1) * 2 ^ e ≤ 2 ^ (53 : Int) * 2 ^ f := by
      rw [← zpow_add₀ htwo, ← zpow_add₀ htwo]
      exact zpow_le_zpow_right₀ (by norm_num) (by omega)
    calc q * 2 ^ e < 2 ^ ((m.log2 : Int) + 1) * 2 ^ e :=
          mul_lt_mul_of_pos_right (hhigh.trans_le hlog) (two_zpow_pos e)
      _ ≤ 2 ^ 53 * 2 ^ f := hpow
  · by_cases hmin : f = -1074
    · exact .inl hmin
    · have h0 : m ≠ 0 := by
        rintro rfl
        rw [Nat.log2_zero] at hf
        omega
      have hpow : (2 : ℚ) ^ (52 : Int) * 2 ^ f = 2 ^ (m.log2 : Int) * 2 ^ e := by
        rw [← zpow_add₀ htwo, ← zpow_add₀ htwo]
        congr 1
        omega
      refine .inr ?_
      calc (2 : ℚ) ^ 52 * 2 ^ f = 2 ^ (m.log2 : Int) * 2 ^ e := hpow
        _ ≤ q * 2 ^ e :=
          mul_le_mul_of_nonneg_right ((log2_bounds h0).1.trans hlow) (two_zpow_pos e).le

theorem Rounds.of_le_iff {q : ℚ} {b : Nat} (hq : 0 ≤ q) (hb : b ≤ infinity)
    (h : ∀ c < infinity, b ≤ c ↔ q < midpoint c ∨ q = midpoint c ∧ c % 2 = 0) : Rounds q b := by
  have hnum : (q.num.toNat : ℚ) / q.den = q := by
    have hcast : ((q.num.toNat : Int) : ℚ) = q.num := by
      rw [Int.toNat_of_nonneg (Rat.num_nonneg.mpr hq)]
    rw [Int.cast_natCast] at hcast
    rw [hcast, Rat.num_div_den]
  have hr : Rounds q (nearest q.num.toNat q.den) := ⟨_, _, q.den_pos, hnum, rfl⟩
  have hsame : ∀ c < infinity, b ≤ c ↔ nearest q.num.toNat q.den ≤ c := fun c hc =>
    (h c hc).trans (hr.le_iff hc).symm
  have heq : nearest q.num.toNat q.den = b := by
    have hle := hr.le_infinity
    rcases Nat.lt_trichotomy (nearest q.num.toNat q.den) b with hlt | heq | hlt
    · exact absurd ((hsame _ (hlt.trans_le hb)).mpr le_rfl) (not_le.mpr hlt)
    · exact heq
    · exact absurd ((hsame _ (hlt.trans_le hle)).mp le_rfl) (not_le.mpr hlt)
  exact ⟨_, _, q.den_pos, hnum, heq⟩

section Rounded

variable {q : ℚ} {f : Int} {r : Nat}

/-- A number of a binade that is rounded to a mantissa has the bits of that mantissa, or those of
infinity. -/
theorem Binade.rounds (h : Binade q f) (hq : 0 ≤ q)
    (hr : ∀ k : Nat, r ≤ k ↔ q < (k + 1 / 2) * 2 ^ f ∨ q = (k + 1 / 2) * 2 ^ f ∧ k % 2 = 0) :
    Rounds q (min ((f + 1074).toNat * 2 ^ 52 + r) infinity) := by
  refine .of_le_iff hq (min_le_right _ _) fun c hc => ?_
  obtain ⟨k, d, hs⟩ : ∃ k d, split c = (k, d) := ⟨_, _, rfl⟩
  have hk : Normal k d := by
    have hh := normal_split c
    rwa [hs] at hh
  have hbits := eq_of_split hs
  have hparity : c % 2 = k % 2 := by omega
  rw [min_le_iff, or_iff_left (not_le.mpr hc), hparity, midpoint, hs, hbits]
  exact bits_le_iff h hk hr

theorem Binade.rounded_bounds (h : Binade q f)
    (hr : ∀ k : Nat, r ≤ k ↔ q < (k + 1 / 2) * 2 ^ f ∨ q = (k + 1 / 2) * 2 ^ f ∧ k % 2 = 0) :
    r ≤ 2 ^ 53 ∧ (f = -1074 ∨ 2 ^ 52 ≤ r) := by
  have hpos := two_zpow_pos f
  constructor
  · rw [hr]
    push_cast
    refine .inl (h.below.trans_le ?_)
    exact mul_le_mul_of_nonneg_right (by norm_num) hpos.le
  · refine h.above.imp_right fun hq => ?_
    by_contra hlt
    have hle : r ≤ 2 ^ 52 - 1 := by omega
    rw [hr] at hle
    push_cast at hle
    rcases hle with hlt | ⟨heq, -⟩ <;> linarith

theorem pack_roundWithAccuracy {m : Nat} {acc : Accuracy} {e : Int} (he : e ≤ f)
    (hf : f = max ((m.log2 : Int) + 1 + e - 53) (-1074))
    (hr : (ExtendedMantissa.ofMantissaAndAccuracy m acc >>> (f - e).toNat).roundedMantissa = r)
    (hbound : r ≤ 2 ^ 53) (hlow : f = -1074 ∨ 2 ^ 52 ≤ r) :
    (UnpackedFloat.pack .binary64 (roundWithAccuracy .binary64 .positive m e acc)).toNat =
      min ((f + 1074).toNat * 2 ^ 52 + r) infinity := by
  have htarget : Format.binary64.targetExponent (totalExponent m e) = f := by
    rw [targetExponent_eq, totalExponent, ← hf]
  have hmantissa : (shiftToTargetExponent .binary64 m e acc).1.roundedMantissa = r := by
    rw [shiftToTargetExponent, htarget, ← hr]
    rfl
  have hexponent : (shiftToTargetExponent .binary64 m e acc).2 = f := by
    rw [shiftToTargetExponent, htarget]
    show e + ((f - e).toNat : Int) = f
    omega
  obtain ⟨n, g, hn, hg, hnormal, hbits⟩ := carried hbound (by omega) hlow
  simp only [roundWithAccuracy, hmantissa, hexponent, hn, hg]
  rw [← hbits]
  by_cases h0 : n = 0
  · rw [dif_pos h0]
    have hzero : (UnpackedFloat.pack .binary64 (.zero .positive)).toNat = 0 := rfl
    have habove := hnormal.above
    have hlowest : (g + 1074).toNat = 0 := by omega
    rw [hzero, h0, hlowest, Nat.zero_mul, Nat.zero_add, Nat.zero_min]
  · rw [dif_neg h0]
    exact pack_bits hnormal (Nat.pos_of_ne_zero h0)

end Rounded

/-- Rounding gives the double nearest to the number that a mantissa and its accuracy stand for, if the
exponent is not above that of its binade. -/
theorem rounds_roundWithAccuracy {m : Nat} {acc : Accuracy} {e : Int} {q : ℚ}
    (h : Locates (.ofMantissaAndAccuracy m acc) q) (hm : m ≠ 0 ∨ e ≤ -1022)
    (he : e ≤ max ((m.log2 : Int) + 1 + e - 53) (-1074)) :
    Rounds (q * 2 ^ e)
      (UnpackedFloat.pack .binary64 (roundWithAccuracy .binary64 .positive m e acc)).toNat := by
  have hmantissa : (ExtendedMantissa.ofMantissaAndAccuracy m acc).mantissa = m := by
    rcases acc with _ | _ | _ | _ <;> rfl
  have hlow := h.low
  have hhigh := h.high
  rw [hmantissa] at hlow hhigh
  have hbinade := binade_target hlow hhigh hm
  obtain ⟨f, hf⟩ : ∃ f, f = max ((m.log2 : Int) + 1 + e - 53) (-1074) := ⟨_, rfl⟩
  rw [← hf] at hbinade he
  have hround := (h.shiftRight (f - e).toNat).roundedMantissa_le_iff
  obtain ⟨r, hr⟩ : ∃ r,
      (ExtendedMantissa.ofMantissaAndAccuracy m acc >>> (f - e).toNat).roundedMantissa = r := ⟨_, rfl⟩
  rw [hr] at hround
  have hscaled : ∀ k : Nat, r ≤ k ↔
      q * 2 ^ e < (k + 1 / 2) * 2 ^ f ∨ q * 2 ^ e = (k + 1 / 2) * 2 ^ f ∧ k % 2 = 0 := by
    intro k
    have hpow : (2 : ℚ) ^ f = 2 ^ e * 2 ^ (f - e).toNat := by
      rw [← zpow_natCast, ← zpow_add₀ (by norm_num)]
      congr 1
      omega
    have hpos : (0 : ℚ) < 2 ^ (f - e).toNat := by positivity
    rw [hround, hpow, div_lt_iff₀ hpos, div_eq_iff hpos.ne', mul_left_comm, mul_comm q,
      mul_lt_mul_iff_right₀ (two_zpow_pos e), mul_right_inj' (two_zpow_pos e).ne']
  obtain ⟨hbelow, habove⟩ := hbinade.rounded_bounds hscaled
  have hq : 0 ≤ q := (Nat.cast_nonneg m).trans hlow
  rw [pack_roundWithAccuracy he hf hr hbelow habove]
  exact hbinade.rounds (by positivity) hscaled

end Binary64

end SuitePlan
