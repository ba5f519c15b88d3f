import SuitePlan.Decimal.Stepwise
import SuitePlan.Proofs.Decimal.Rounding

/-! Reading in steps against reading at once. Where the significand and the power of ten are doubles
there is one rounding only, so the outcome is the nearest double; elsewhere it stays finite below the
largest double. -/

namespace SuitePlan

namespace Numeral

open Binary64 (Rounds value infinity rounds_nearest)

theorem ten_zpow_pos (e : Int) : (0 : ℚ) < 10 ^ e := zpow_pos (by norm_num) e

theorem powerOfTen_eq (k : Nat) : powerOfTen k = 10 ^ k := rfl

theorem powerOfTen_pos (k : Nat) : 0 < powerOfTen k := Nat.pow_pos (by norm_num)

theorem powerOfTen_le {j k : Nat} (h : j ≤ k) : powerOfTen j ≤ powerOfTen k :=
  Nat.pow_le_pow_right (by norm_num) h

theorem powerOfTen_ratio (d : Nat) (e : Int) :
    ((d * powerOfTen e.toNat : Nat) : ℚ) / (powerOfTen (-e).toNat : Nat) = d * 10 ^ e := by
  rw [powerOfTen_eq, powerOfTen_eq]
  push_cast
  rcases Int.le_total 0 e with he | he
  · obtain ⟨k, rfl⟩ := Int.eq_ofNat_of_zero_le he
    simp only [Int.toNat_natCast, Int.toNat_neg_natCast, pow_zero, div_one, zpow_natCast]
  · obtain ⟨k, hk⟩ := Int.eq_ofNat_of_zero_le (Int.neg_nonneg_of_nonpos he)
    obtain rfl : e = -(k : Int) := by omega
    simp only [neg_neg, Int.toNat_natCast, Int.toNat_neg_natCast, pow_zero, mul_one, zpow_neg,
      zpow_natCast]
    ring

/-- What is found to be neither zero nor infinite is the nearest double. -/
theorem rounds_of_magnitude {d bits : Nat} {e : Int} (h : magnitude d e = bits) (h0 : bits ≠ 0)
    (hb : bits < infinity) : Rounds (d * 10 ^ e) bits := by
  unfold magnitude at h
  split_ifs at h
  · exact (h0 h.symm).elim
  · exact (Nat.lt_irrefl _ (h ▸ hb)).elim
  · exact (h0 h.symm).elim
  · have hr := rounds_nearest (d * powerOfTen e.toNat) (powerOfTen_pos (-e).toNat)
    rwa [powerOfTen_ratio, h] at hr

theorem magnitude_of_onGrid? {bits d : Nat} {x : Int} (h : onGrid? bits x = some d) :
    magnitude d x = bits := by
  have hcases : ∀ near far : Nat, (if magnitude near x = bits then some near
      else if magnitude far x = bits then some far else none) = some d → magnitude d x = bits := by
    intro near far h
    split_ifs at h with hnear hfar
    · exact Option.some.inj h ▸ hnear
    · exact Option.some.inj h ▸ hfar
  exact hcases _ _ h

theorem magnitude_of_search {bits k d : Nat} {x y : Int} (h : search bits k x = some (d, y)) :
    magnitude d y = bits := by
  induction k generalizing x with
  | zero => cases h
  | succ k ih =>
    rw [search] at h
    cases hg : onGrid? bits x with
    | none =>
      rw [hg] at h
      exact ih h
    | some c =>
      rw [hg] at h
      cases h
      exact magnitude_of_onGrid? hg

theorem expansion_eq (bits : Nat) : ((expansion bits).1 : ℚ) * 10 ^ (expansion bits).2 = value bits := by
  unfold expansion value
  obtain ⟨m, e⟩ := Binary64.split bits
  by_cases he : 0 ≤ e
  · obtain ⟨k, rfl⟩ := Int.eq_ofNat_of_zero_le he
    simp [Nat.shiftLeft_eq]
  · obtain ⟨k, hk⟩ := Int.eq_ofNat_of_zero_le (Int.neg_nonneg_of_nonpos (not_le.mp he).le)
    obtain rfl : e = -(k : Int) := by omega
    have hten : (10 : ℚ) ^ k = 2 ^ k * 5 ^ k := by
      rw [← mul_pow]
      norm_num
    simp only [if_neg he, neg_neg, Int.toNat_natCast, zpow_neg, zpow_natCast, hten]
    show ((m * 5 ^ k : Nat) : ℚ) * _ = _
    push_cast
    field_simp

/-- The double that a numeral was made from is the one nearest to it. -/
theorem rounds_shortest {bits : Nat} (h0 : bits ≠ 0) (hb : bits < infinity) :
    Rounds ((shortest bits).1 * 10 ^ (shortest bits).2) bits := by
  rw [shortest]
  cases hs : search bits 20 (ceilingExponent bits) with
  | none =>
    rw [Option.getD_none, expansion_eq]
    exact Binary64.rounds_value hb
  | some r =>
    obtain ⟨d, x⟩ := r
    exact rounds_of_magnitude (magnitude_of_search hs) h0 hb

theorem rounds_tens (k : Nat) : Rounds (10 ^ k) (tens k) := by
  have hr := rounds_nearest (powerOfTen k) one_pos
  rw [Nat.cast_one, div_one, powerOfTen_eq, Nat.cast_pow, Nat.cast_ofNat] at hr
  exact hr

/-- The powers of ten that are doubles, with a significand that is a double too. -/
theorem value_tens {k : Nat} (h : k ≤ 22) : value (tens k) = 10 ^ k := by
  have hfive : 5 ^ k < 2 ^ 53 :=
    calc 5 ^ k ≤ 5 ^ 22 := Nat.pow_le_pow_right (by norm_num) h
      _ < 2 ^ 53 := by norm_num
  obtain ⟨bits, hb, hv⟩ := Binary64.exists_value hfive (k := k) (by omega)
  have hten : value bits = 10 ^ k := by
    rw [hv]
    push_cast
    rw [← mul_pow]
    norm_num
  have hr := rounds_tens k
  rw [← hten] at hr
  rw [hr.exact hb, hten]

theorem value_nearest {d : Nat} (h : d < 2 ^ 53) : value (Binary64.nearest d 1) = d := by
  obtain ⟨bits, hb, hv⟩ := Binary64.exists_value h (Nat.zero_le 900)
  rw [pow_zero, mul_one] at hv
  have hr := rounds_nearest d one_pos
  rw [Nat.cast_one, div_one, ← hv] at hr
  rw [hr.exact hb, hv]

/-- A significand of 53 bits and a small power of ten are read without an error but the last one. -/
theorem rounds_stepwise {d : Nat} {e : Int} (hd : d < 2 ^ 53) (he : -22 ≤ e ∧ e ≤ 22) :
    Rounds (d * 10 ^ e) (stepwise d e) := by
  have hv := value_nearest hd
  by_cases h0 : Binary64.nearest d 1 = 0
  · have hzero : (d : ℚ) = 0 := by
      rw [← hv, h0]
      exact zero_mul _
    have hstep : stepwise d e = 0 := by
      simp only [stepwise, h0]
      split
      · exact if_pos rfl
      · rw [lower, if_pos rfl]
    rw [hstep, hzero, zero_mul]
    exact ⟨0, 1, one_pos, by norm_num, rfl⟩
  · by_cases hs : 0 ≤ e
    · obtain ⟨k, rfl⟩ := Int.eq_ofNat_of_zero_le hs
      have hr := Binary64.rounds_product (Binary64.nearest d 1) (tens k)
      rw [hv, value_tens (by omega)] at hr
      have hstep : stepwise d (k : Int) = Binary64.product (Binary64.nearest d 1) (tens k) := by
        rw [stepwise, if_pos hs, Int.toNat_natCast, raise, if_neg h0,
          if_pos (by rw [tensLimit]; omega)]
      rwa [hstep, zpow_natCast]
    · obtain ⟨k, hk⟩ := Int.eq_ofNat_of_zero_le (Int.neg_nonneg_of_nonpos (not_le.mp hs).le)
      obtain rfl : e = -(k : Int) := by omega
      have hten := value_tens (k := k) (by omega)
      have hr := Binary64.rounds_quotient (x := Binary64.nearest d 1) (y := tens k)
        (by rw [hten]; positivity)
      rw [hv, hten] at hr
      have hstep : stepwise d (-(k : Int)) = Binary64.quotient (Binary64.nearest d 1) (tens k) := by
        rw [stepwise, if_neg hs, neg_neg, Int.toNat_natCast, lower, if_neg h0,
          if_pos (by rw [tensLimit]; omega)]
      rwa [hstep, zpow_neg, zpow_natCast, ← div_eq_mul_inv]

theorem one_le_value_tens (k : Nat) : 1 ≤ value (tens k) := by
  have hone : value (tens 0) = 1 := value_tens (Nat.zero_le 22)
  have hten : (1 : ℚ) ≤ 10 ^ k := one_le_pow₀ (by norm_num)
  have hzero := rounds_tens 0
  rw [pow_zero] at hzero
  rw [← hone]
  exact Binary64.value_strictMono.monotone (hzero.mono (rounds_tens k) hten)

theorem quotient_tens_le {bits : Nat} (hb : bits < infinity) (k : Nat) :
    Binary64.quotient bits (tens k) ≤ bits := by
  have hone := one_le_value_tens k
  have hr := Binary64.rounds_quotient (x := bits) (y := tens k) (by linarith)
  exact hr.mono (Binary64.rounds_value hb) (div_le_self (Binary64.value_nonneg bits) hone)

theorem lower_le {bits k : Nat} (hb : bits < infinity) : lower bits k ≤ bits := by
  fun_induction lower bits k with
  | case1 => exact Nat.zero_le _
  | case2 bits k h0 hk => exact quotient_tens_le hb k
  | case3 bits k h0 hk ih =>
    have hq := quotient_tens_le hb tensLimit
    exact (ih (hq.trans_lt hb)).trans hq

theorem tens_mono {j k : Nat} (h : j ≤ k) : tens j ≤ tens k :=
  (rounds_tens j).mono (rounds_tens k) (pow_le_pow_right₀ (by norm_num) h)

theorem raise_mono {a b j k : Nat} (h : a ≤ b) (hj : j ≤ k) (hk : k ≤ tensLimit) :
    raise a j ≤ raise b k := by
  by_cases ha : a = 0
  · rw [raise, if_pos ha]
    exact Nat.zero_le _
  · have hb : b ≠ 0 := by omega
    rw [raise, raise, if_neg ha, if_neg hb, if_pos (hj.trans hk), if_pos hk]
    have hv := Binary64.value_strictMono.monotone h
    have hten := Binary64.value_strictMono.monotone (tens_mono hj)
    exact (Binary64.rounds_product a (tens j)).mono (Binary64.rounds_product b (tens k))
      (mul_le_mul hv hten (Binary64.value_nonneg _) (Binary64.value_nonneg _))

/-- The middle between the two largest doubles. -/
def overflowBound : Nat := (2 ^ 54 - 3) * 2 ^ 970

theorem midpoint_overflowBound : Binary64.midpoint (infinity - 2) = overflowBound := by
  have hs : Binary64.split (infinity - 2) = (2 ^ 53 - 2, 971) := by decide
  have hpow : (2 : ℚ) ^ (971 : Int) = 2 * 2 ^ 970 := by
    rw [← pow_succ']
    rfl
  rw [Binary64.midpoint, hs, hpow, overflowBound, Nat.cast_mul, Nat.cast_pow, Nat.cast_ofNat]
  generalize (2 : ℚ) ^ 970 = p
  norm_num
  ring

/-- Where the bound on the number is what limits the significand, the largest one that stays below it
does not overflow when it is scaled. -/
theorem raise_bound : ∀ k ∈ List.range' 289 20,
    raise (Binary64.nearest (overflowBound / powerOfTen k) 1) k < infinity := by
  decide +kernel

theorem nearest_mono {a b : Nat} (h : a ≤ b) : Binary64.nearest a 1 ≤ Binary64.nearest b 1 := by
  have hcast : (a : ℚ) / (1 : Nat) ≤ b / (1 : Nat) := by
    simpa using h
  exact (rounds_nearest a one_pos).mono (rounds_nearest b one_pos) hcast

theorem nearest_lt_infinity {d : Nat} (h : d < natLimit) : Binary64.nearest d 1 < infinity := by
  have hle := nearest_mono (Nat.le_of_lt h)
  have htop : Binary64.nearest natLimit 1 < infinity := by decide
  omega

/-- A numeral of 64 bits below the largest double is read as a finite double. -/
theorem stepwise_lt_infinity {d : Nat} {e : Int} (hd : d < natLimit)
    (hv : (d : ℚ) * 10 ^ e ≤ overflowBound) : stepwise d e < infinity := by
  have hfinite := nearest_lt_infinity hd
  by_cases he : 0 ≤ e
  · obtain ⟨k, rfl⟩ := Int.eq_ofNat_of_zero_le he
    rw [stepwise, if_pos he, Int.toNat_natCast]
    by_cases hsmall : k ≤ 288
    · have hle : d ≤ natLimit - 1 := by omega
      have hbound : raise (Binary64.nearest (natLimit - 1) 1) 288 < infinity := by decide +kernel
      exact (raise_mono (nearest_mono hle) hsmall (by decide)).trans_lt hbound
    · by_cases h0 : d = 0
      · have hzero : raise (Binary64.nearest 0 1) k = 0 := if_pos rfl
        rw [h0, hzero]
        exact Nat.zero_lt_of_lt hfinite
      · have hle : d * powerOfTen k ≤ overflowBound := by
          rw [zpow_natCast] at hv
          exact_mod_cast hv
        have hk : k ≤ tensLimit := by
          by_contra hk
          have hten : powerOfTen 309 ≤ powerOfTen k := powerOfTen_le (not_le.mp hk)
          have hbig : overflowBound < powerOfTen 309 := by decide +kernel
          have hone : powerOfTen k ≤ d * powerOfTen k :=
            Nat.le_mul_of_pos_left _ (Nat.pos_of_ne_zero h0)
          exact absurd (hbig.trans_le (hten.trans hone)) (not_lt.mpr hle)
        have hdiv : d ≤ overflowBound / powerOfTen k :=
          (Nat.le_div_iff_mul_le (powerOfTen_pos k)).mpr hle
        have hrange : k ∈ List.range' 289 20 := by
          rw [List.mem_range'_1]
          rw [tensLimit] at hk
          omega
        exact (raise_mono (nearest_mono hdiv) le_rfl hk).trans_lt (raise_bound k hrange)
  · rw [stepwise, if_neg he]
    exact (lower_le hfinite).trans_lt hfinite

end Numeral

end SuitePlan
