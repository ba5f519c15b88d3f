import SuitePlan.Proofs.Decimal.Order

/-! Rounding to doubles. The nearest double is found by comparing a quotient with the midpoints between
neighbouring doubles, so it depends on the quotient alone and grows with it. -/

namespace SuitePlan

namespace Binary64

/-- The number that a finite double without its sign stands for. -/
def value (bits : Nat) : ℚ := (split bits).1 * 2 ^ (split bits).2

/-- The middle between a double and the next larger one. -/
def midpoint (bits : Nat) : ℚ := ((split bits).1 + 1 / 2) * 2 ^ (split bits).2

/-- A mantissa of 53 bits, or of less at the smallest exponent. -/
structure Normal (m : Nat) (e : Int) : Prop where
  low : -1074 ≤ e
  below : m < 2 ^ 53
  above : e = -1074 ∨ 2 ^ 52 ≤ m

theorem normal_split (bits : Nat) : Normal (split bits).1 (split bits).2 := by
  by_cases h : bits / 2 ^ 52 = 0
  · rw [split_subnormal h]
    refine ⟨Int.le_refl _, ?_, .inl rfl⟩
    show bits % 2 ^ 52 < 2 ^ 53
    omega
  · rw [split_normal h]
    refine ⟨?_, ?_, .inr ?_⟩
    · show -1074 ≤ ((bits / 2 ^ 52 : Nat) : Int) - 1075
      omega
    · show bits % 2 ^ 52 + 2 ^ 52 < 2 ^ 53
      omega
    · show 2 ^ 52 ≤ bits % 2 ^ 52 + 2 ^ 52
      omega

theorem eq_of_split {bits m : Nat} {e : Int} (h : split bits = (m, e)) :
    bits = (e + 1074).toNat * 2 ^ 52 + m := by
  by_cases hb : bits / 2 ^ 52 = 0
  · rw [split_subnormal hb] at h
    obtain ⟨rfl, rfl⟩ := Prod.mk.inj h
    omega
  · rw [split_normal hb] at h
    obtain ⟨rfl, rfl⟩ := Prod.mk.inj h
    omega

theorem split_bits {m : Nat} {e : Int} (h : Normal m e) :
    split ((e + 1074).toNat * 2 ^ 52 + m) = (m, e) := by
  obtain ⟨hlow, hbelow, habove⟩ := h
  by_cases hm : m < 2 ^ 52
  · obtain rfl : e = -1074 := by omega
    rw [split_subnormal (by omega)]
    refine Prod.ext ?_ rfl
    show (((-1074 : Int) + 1074).toNat * 2 ^ 52 + m) % 2 ^ 52 = m
    omega
  · rw [split_normal (by omega)]
    refine Prod.ext ?_ ?_
    · show ((e + 1074).toNat * 2 ^ 52 + m) % 2 ^ 52 + 2 ^ 52 = m
      omega
    · show ((((e + 1074).toNat * 2 ^ 52 + m) / 2 ^ 52 : Nat) : Int) - 1075 = e
      omega

/-- A quotient is rounded down to a whole number or below up to the middle of the next step. -/
theorem roundEven_le_iff {num den r : Nat} (hd : 0 < den) :
    roundEven num den ≤ r ↔
      2 * num < (2 * r + 1) * den ∨ 2 * num = (2 * r + 1) * den ∧ r % 2 = 0 := by
  have hnum : den * (num / den) + num % den = num := Nat.div_add_mod num den
  have hrem : num % den < den := Nat.mod_lt num hd
  have hmid : (2 * r + 1) * den = 2 * (den * r) + den := by ring
  rw [hmid, roundEven]
  rcases Nat.lt_trichotomy (num / den) r with hq | hq | hq
  · have hstep : den * (num / den + 1) ≤ den * r := Nat.mul_le_mul_left den hq
    rw [Nat.mul_add, Nat.mul_one] at hstep
    split <;> omega
  · rw [hq] at hnum ⊢
    split <;> omega
  · have hstep : den * (r + 1) ≤ den * (num / den) := Nat.mul_le_mul_left den hq
    rw [Nat.mul_add, Nat.mul_one] at hstep
    split <;> omega

/-- The binade of a positive number is where its mantissa has 53 bits. -/
structure Binade (q : ℚ) (e : Int) : Prop where
  low : -1074 ≤ e
  below : q < 2 ^ 53 * 2 ^ e
  above : e = -1074 ∨ 2 ^ 52 * 2 ^ e ≤ q

theorem scale_fst (num den : Nat) (e : Int) : (scale num den e).1 = num * 2 ^ (-e).toNat :=
  Nat.shiftLeft_eq num _

theorem scale_snd (num den : Nat) (e : Int) : (scale num den e).2 = den * 2 ^ e.toNat :=
  Nat.shiftLeft_eq den _

theorem scale_eq (num den : Nat) (e : Int) :
    ((scale num den e).1 : ℚ) / (scale num den e).2 = num / den / 2 ^ e := by
  rw [scale_fst, scale_snd]
  push_cast
  rcases Int.le_total 0 e with he | he
  · obtain ⟨k, rfl⟩ := Int.eq_ofNat_of_zero_le he
    simp only [Int.toNat_natCast, Int.toNat_neg_natCast, pow_zero, mul_one, zpow_natCast, div_div]
  · obtain ⟨k, hk⟩ := Int.eq_ofNat_of_zero_le (Int.neg_nonneg_of_nonpos he)
    obtain rfl : e = -(k : Int) := by omega
    simp only [neg_neg, Int.toNat_natCast, Int.toNat_neg_natCast, pow_zero, mul_one, zpow_neg,
      zpow_natCast, div_inv_eq_mul]
    ring

theorem two_zpow_pos (e : Int) : (0 : ℚ) < 2 ^ e := zpow_pos (by norm_num) e

theorem log2_bounds {n : Nat} (hn : n ≠ 0) :
    (2 : ℚ) ^ (n.log2 : Int) ≤ n ∧ (n : ℚ) < 2 ^ ((n.log2 : Int) + 1) := by
  have hlow : ((2 ^ n.log2 : Nat) : ℚ) ≤ n := Nat.cast_le.mpr (Nat.log2_self_le hn)
  have hhigh : (n : ℚ) < ((2 ^ (n.log2 + 1) : Nat) : ℚ) := Nat.cast_lt.mpr Nat.lt_log2_self
  push_cast at hlow hhigh
  exact ⟨by exact_mod_cast hlow, by exact_mod_cast hhigh⟩

theorem log2_quotient {num den : Nat} (hn : num ≠ 0) (hd : den ≠ 0) :
    let k : Int := num.log2 - den.log2
    (2 : ℚ) ^ (k - 1) ≤ num / den ∧ (num : ℚ) / den < 2 ^ (k + 1) := by
  intro k
  obtain ⟨hn1, hn2⟩ := log2_bounds hn
  obtain ⟨hd1, hd2⟩ := log2_bounds hd
  have hpos : (0 : ℚ) < den := Nat.cast_pos.mpr (Nat.pos_of_ne_zero hd)
  have htwo : (2 : ℚ) ≠ 0 := by norm_num
  constructor
  · have hk : (2 : ℚ) ^ (k - 1) * 2 ^ ((den.log2 : Int) + 1) = 2 ^ (num.log2 : Int) := by
      rw [← zpow_add₀ htwo]
      congr 1
      omega
    rw [le_div_iff₀ hpos]
    calc (2 : ℚ) ^ (k - 1) * den ≤ 2 ^ (k - 1) * 2 ^ ((den.log2 : Int) + 1) :=
          mul_le_mul_of_nonneg_left hd2.le (two_zpow_pos _).le
      _ ≤ num := hk ▸ hn1
  · have hk : (2 : ℚ) ^ (k + 1) * 2 ^ (den.log2 : Int) = 2 ^ ((num.log2 : Int) + 1) := by
      rw [← zpow_add₀ htwo]
      congr 1
      omega
    rw [div_lt_iff₀ hpos]
    calc (num : ℚ) < 2 ^ (k + 1) * 2 ^ (den.log2 : Int) := hk ▸ hn2
      _ ≤ 2 ^ (k + 1) * den := mul_le_mul_of_nonneg_left hd1 (two_zpow_pos _).le

theorem binade_roundingExponent {num den : Nat} (hn : num ≠ 0) (hd : 0 < den) :
    Binade (num / den) (roundingExponent num den) := by
  obtain ⟨hlow, hhigh⟩ := log2_quotient hn hd.ne'
  have htwo : (2 : ℚ) ≠ 0 := by norm_num
  obtain ⟨e, he⟩ : ∃ e, e = max ((num.log2 : Int) - den.log2 - 53) (-1074) := ⟨_, rfl⟩
  have hexp : roundingExponent num den =
      if (scale num den e).1 / (scale num den e).2 < 2 * binade then e else e + 1 := he ▸ rfl
  generalize (num.log2 : Int) - den.log2 = k at hlow hhigh he
  have hscale := scale_eq num den e
  have hden : 0 < (scale num den e).2 := by
    rw [scale_snd]
    positivity
  have hcond : (scale num den e).1 / (scale num den e).2 < 2 * binade ↔
      (num : ℚ) / den < 2 ^ 53 * 2 ^ e := by
    rw [← div_lt_iff₀ (two_zpow_pos e), ← hscale, Nat.div_lt_iff_lt_mul hden,
      div_lt_iff₀ (Nat.cast_pos.mpr hden)]
    exact_mod_cast Iff.rfl
  by_cases hq : (num : ℚ) / den < 2 ^ 53 * 2 ^ e
  · rw [hexp, if_pos (hcond.mpr hq)]
    refine ⟨by omega, hq, ?_⟩
    by_cases hmin : e = -1074
    · exact .inl hmin
    · have hpow : (2 : ℚ) ^ (k - 1) = 2 ^ 52 * 2 ^ e := by
        rw [← zpow_natCast, ← zpow_add₀ htwo]
        congr 1
        omega
      exact .inr (hpow ▸ hlow)
  · rw [hexp, if_neg fun hh => hq (hcond.mp hh)]
    have hnext : (2 : ℚ) ^ (e + 1) = 2 ^ e * 2 := zpow_add_one₀ htwo e
    refine ⟨by omega, ?_, .inr ?_⟩
    · have hpow : (2 : ℚ) ^ (k + 1) ≤ 2 ^ (e + 54) := zpow_le_zpow_right₀ (by norm_num) (by omega)
      have hsplit : (2 : ℚ) ^ (e + 54) = 2 ^ e * 2 ^ 54 := zpow_add₀ htwo e 54
      rw [hnext]
      linarith
    · rw [hnext]
      linarith [not_lt.mp hq]

theorem roundEven_scale_le_iff (num : Nat) {den : Nat} (hd : 0 < den) (e : Int) (r : Nat) :
    roundEven (scale num den e).1 (scale num den e).2 ≤ r ↔
      (num : ℚ) / den < (r + 1 / 2) * 2 ^ e ∨
        (num : ℚ) / den = (r + 1 / 2) * 2 ^ e ∧ r % 2 = 0 := by
  have hscale := scale_eq num den e
  have hden : 0 < (scale num den e).2 := by
    rw [scale_snd]
    positivity
  have hcast : (0 : ℚ) < (scale num den e).2 := Nat.cast_pos.mpr hden
  have hq : (num : ℚ) / den = (scale num den e).1 / (scale num den e).2 * 2 ^ e :=
    ((div_eq_iff (two_zpow_pos e).ne').mp hscale.symm)
  rw [roundEven_le_iff hden, hq, mul_lt_mul_iff_left₀ (two_zpow_pos e),
    mul_left_inj' (two_zpow_pos e).ne', div_lt_iff₀ hcast, div_eq_iff hcast.ne',
    ← @Nat.cast_lt ℚ, ← @Nat.cast_inj ℚ]
  push_cast
  have hmid : ((r : ℚ) + 1 / 2) * (scale num den e).2 = (2 * r + 1) * (scale num den e).2 / 2 := by
    ring
  rw [hmid, lt_div_iff₀ (by norm_num), eq_div_iff (by norm_num), mul_comm _ (2 : ℚ)]

/-- A binade ends where the next one begins. -/
theorem binade_step {e f : Int} (h : e < f) : (2 : ℚ) ^ 53 * 2 ^ e ≤ 2 ^ 52 * 2 ^ f := by
  have hpow : (2 : ℚ) ^ (e + 1) ≤ 2 ^ f := zpow_le_zpow_right₀ (by norm_num) (by omega)
  rw [zpow_add_one₀ (by norm_num)] at hpow
  linarith

theorem midpoint_pos (bits : Nat) : 0 < midpoint bits := by
  have hpos := two_zpow_pos (split bits).2
  unfold midpoint
  positivity

/-- A rounded mantissa at the exponent of a number, against a double: bits compare as the number does
with the middle above the double. -/
theorem bits_le_iff {q : ℚ} {e f : Int} {m r : Nat} (hq : Binade q f) (hm : Normal m e)
    (hr : ∀ k : Nat, r ≤ k ↔ q < (k + 1 / 2) * 2 ^ f ∨ q = (k + 1 / 2) * 2 ^ f ∧ k % 2 = 0) :
    (f + 1074).toNat * 2 ^ 52 + r ≤ (e + 1074).toNat * 2 ^ 52 + m ↔
      q < (m + 1 / 2) * 2 ^ e ∨ q = (m + 1 / 2) * 2 ^ e ∧ m % 2 = 0 := by
  obtain ⟨hqlow, hqbelow, hqabove⟩ := hq
  obtain ⟨hmlow, hmbelow, hmabove⟩ := hm
  have hpos := two_zpow_pos e
  have hpos' := two_zpow_pos f
  rcases lt_trichotomy f e with hf | rfl | hf
  · -- The number lies in a lower binade than the double.
    have hmant : 2 ^ 52 ≤ m := by omega
    have hmant' : (2 : ℚ) ^ 52 ≤ m := by exact_mod_cast hmant
    have hcarry : r ≤ 2 ^ 53 := by
      rw [hr]
      push_cast
      exact .inl (by linarith)
    have hbelow : q < (m + 1 / 2) * 2 ^ e :=
      calc q < 2 ^ 53 * 2 ^ f := hqbelow
        _ ≤ 2 ^ 52 * 2 ^ e := binade_step hf
        _ ≤ (m + 1 / 2) * 2 ^ e := mul_le_mul_of_nonneg_right (by linarith) hpos.le
    exact iff_of_true (by omega) (.inl hbelow)
  · -- In the same binade the mantissas are compared.
    have hcancel : (f + 1074).toNat * 2 ^ 52 + r ≤ (f + 1074).toNat * 2 ^ 52 + m ↔ r ≤ m := by
      omega
    rw [hcancel, hr]
  · -- The number lies in a higher binade.
    have hfirst := hqabove.resolve_left (by omega)
    have hmant : (m : ℚ) + 1 ≤ 2 ^ 53 := by exact_mod_cast hmbelow
    have hcarry : ¬ r ≤ 2 ^ 52 - 1 := by
      rw [hr]
      push_cast
      rintro (hlt | ⟨heq, -⟩) <;> linarith
    have habove : (m + 1 / 2) * 2 ^ e < q :=
      calc ((m : ℚ) + 1 / 2) * 2 ^ e < 2 ^ 53 * 2 ^ e :=
            mul_lt_mul_of_pos_right (by linarith) hpos
        _ ≤ 2 ^ 52 * 2 ^ f := binade_step hf
        _ ≤ q := hfirst
    refine iff_of_false (by omega) ?_
    rintro (hlt | ⟨heq, -⟩) <;> linarith

/-- The nearest double lies below the first midpoint above the quotient. -/
theorem nearest_le_iff {num den bits : Nat} (hd : 0 < den) (hb : bits < infinity) :
    nearest num den ≤ bits ↔ (num : ℚ) / den < midpoint bits ∨
      (num : ℚ) / den = midpoint bits ∧ bits % 2 = 0 := by
  by_cases hn : num = 0
  · have hzero : ((num : Nat) : ℚ) / den = 0 := by
      rw [hn, Nat.cast_zero, zero_div]
    rw [hzero, nearest, if_pos hn]
    exact iff_of_true (Nat.zero_le bits) (.inl (midpoint_pos bits))
  · obtain ⟨m, e, hs⟩ : ∃ m e, split bits = (m, e) := ⟨_, _, rfl⟩
    have hm : Normal m e := by
      have hh := normal_split bits
      rwa [hs] at hh
    have hbits := eq_of_split hs
    have hparity : bits % 2 = m % 2 := by omega
    have hnear : nearest num den ≤ bits ↔ (roundingExponent num den + 1074).toNat * 2 ^ 52 +
        roundEven (scale num den (roundingExponent num den)).1
          (scale num den (roundingExponent num den)).2 ≤ bits := by
      rw [nearest, if_neg hn]
      show min _ infinity ≤ bits ↔ _
      rw [min_le_iff, or_iff_left (not_le.mpr hb)]
      rfl
    rw [hnear, hparity, midpoint, hs, hbits]
    exact bits_le_iff (binade_roundingExponent hn hd) hm
      (roundEven_scale_le_iff num hd (roundingExponent num den))

theorem nearest_le_infinity (num den : Nat) : nearest num den ≤ infinity := by
  rw [nearest]
  split
  · exact Nat.zero_le infinity
  · exact min_le_right _ _

theorem value_nonneg (bits : Nat) : 0 ≤ value bits :=
  mul_nonneg (Nat.cast_nonneg _) (two_zpow_pos _).le

theorem value_lt_midpoint (bits : Nat) : value bits < midpoint bits :=
  mul_lt_mul_of_pos_right (by linarith) (two_zpow_pos _)

theorem midpoint_lt_value_succ (bits : Nat) : midpoint bits < value (bits + 1) := by
  obtain ⟨m, e, hs⟩ : ∃ m e, split bits = (m, e) := ⟨_, _, rfl⟩
  have hm : Normal m e := by
    have hh := normal_split bits
    rwa [hs] at hh
  have hbits := eq_of_split hs
  have hpos := two_zpow_pos e
  have hsucc : value (bits + 1) = (m + 1) * 2 ^ e := by
    by_cases hlast : m + 1 < 2 ^ 53
    · have hnext : Normal (m + 1) e := ⟨hm.low, hlast, hm.above.imp_right Nat.le_succ_of_le⟩
      rw [hbits, Nat.add_assoc, value, split_bits hnext]
      push_cast
      rfl
    · have hlow := hm.low
      have hbelow := hm.below
      have hfull : m + 1 = 2 ^ 53 := by omega
      have hnext : Normal (2 ^ 52) (e + 1) := ⟨by omega, by norm_num, .inr le_rfl⟩
      have hcarry : bits + 1 = (e + 1 + 1074).toNat * 2 ^ 52 + 2 ^ 52 := by omega
      have hfull' : (m : ℚ) + 1 = 2 ^ 53 := by exact_mod_cast hfull
      rw [hcarry, value, split_bits hnext, hfull']
      show ((2 ^ 52 : Nat) : ℚ) * 2 ^ (e + 1) = 2 ^ 53 * 2 ^ e
      rw [zpow_add_one₀ (by norm_num)]
      push_cast
      ring
  rw [hsucc, midpoint, hs]
  exact mul_lt_mul_of_pos_right (by linarith) hpos

theorem value_strictMono : StrictMono value :=
  strictMono_nat_of_lt_succ fun bits => (value_lt_midpoint bits).trans (midpoint_lt_value_succ bits)

/-- Bits are those of the double that a number is rounded to. -/
def Rounds (q : ℚ) (bits : Nat) : Prop :=
  ∃ num den : Nat, 0 < den ∧ (num : ℚ) / den = q ∧ nearest num den = bits

theorem rounds_nearest (num : Nat) {den : Nat} (hd : 0 < den) :
    Rounds (num / den) (nearest num den) :=
  ⟨num, den, hd, rfl, rfl⟩

namespace Rounds

variable {p q : ℚ} {a b c : Nat}

theorem le_infinity (h : Rounds q b) : b ≤ infinity := by
  obtain ⟨num, den, -, -, rfl⟩ := h
  exact nearest_le_infinity num den

theorem le_iff (h : Rounds q b) (hc : c < infinity) :
    b ≤ c ↔ q < midpoint c ∨ q = midpoint c ∧ c % 2 = 0 := by
  obtain ⟨num, den, hd, rfl, rfl⟩ := h
  exact nearest_le_iff hd hc

theorem mono (h : Rounds p a) (h' : Rounds q b) (hpq : p ≤ q) : a ≤ b := by
  by_cases hb : b < infinity
  · rw [h.le_iff hb]
    rcases (h'.le_iff hb).mp le_rfl with hq | ⟨hq, heven⟩
    · exact .inl (hpq.trans_lt hq)
    · exact (hpq.trans_eq hq).lt_or_eq.imp_right fun heq => ⟨heq, heven⟩
  · exact h.le_infinity.trans (not_lt.mp hb)

theorem unique (h : Rounds q a) (h' : Rounds q b) : a = b :=
  Nat.le_antisymm (h.mono h' le_rfl) (h'.mono h le_rfl)

/-- A number that is a double is not changed. -/
theorem exact (h : Rounds (value c) b) (hc : c < infinity) : b = c := by
  have hle : b ≤ c := (h.le_iff hc).mpr (.inl (value_lt_midpoint c))
  refine Nat.le_antisymm hle ?_
  cases c with
  | zero => exact Nat.zero_le b
  | succ c =>
    by_contra hlt
    have hmid := midpoint_lt_value_succ c
    rcases (h.le_iff (Nat.lt_of_succ_lt hc)).mp (by omega) with hq | ⟨hq, -⟩ <;> linarith

end Rounds

theorem rounds_scale (num : Nat) {den : Nat} (hd : 0 < den) (e : Int) :
    Rounds (num / den / 2 ^ e) (nearest (scale num den e).1 (scale num den e).2) := by
  rw [← scale_eq]
  apply rounds_nearest
  rw [scale_snd]
  positivity

theorem rounds_value {bits : Nat} (h : bits < infinity) : Rounds (value bits) bits := by
  have hr := rounds_scale (split bits).1 one_pos (-(split bits).2)
  rw [Nat.cast_one, div_one, zpow_neg, div_inv_eq_mul] at hr
  have he := Rounds.exact hr h
  rwa [he] at hr

theorem rounds_product (x y : Nat) : Rounds (value x * value y) (product x y) := by
  have hr := rounds_scale ((split x).1 * (split y).1) one_pos (-((split x).2 + (split y).2))
  rw [Nat.cast_one, div_one, zpow_neg, div_inv_eq_mul, Nat.cast_mul, zpow_add₀ (by norm_num),
    mul_mul_mul_comm] at hr
  exact hr

theorem rounds_quotient {x y : Nat} (hy : 0 < value y) :
    Rounds (value x / value y) (quotient x y) := by
  have hpos : 0 < (split y).1 := by
    by_contra h
    have hz : (split y).1 = 0 := by omega
    rw [value, hz, Nat.cast_zero, zero_mul] at hy
    exact lt_irrefl _ hy
  have hr := rounds_scale (split x).1 hpos ((split y).2 - (split x).2)
  have hq : ((split x).1 : ℚ) / (split y).1 / 2 ^ ((split y).2 - (split x).2) = value x / value y := by
    have hx := (two_zpow_pos (split x).2).ne'
    have hy := (two_zpow_pos (split y).2).ne'
    rw [value, value, zpow_sub₀ (by norm_num)]
    field_simp
  rw [hq] at hr
  exact hr

/-- Whole numbers of 53 bits are doubles, and so are their products with powers of two. -/
theorem exists_value {m : Nat} (hm : m < 2 ^ 53) {k : Nat} (hk : k ≤ 900) :
    ∃ bits < infinity, value bits = m * 2 ^ k := by
  by_cases h0 : m = 0
  · refine ⟨0, by decide, ?_⟩
    rw [h0, Nat.cast_zero, zero_mul]
    exact zero_mul _
  · have hlog : m.log2 < 53 := (Nat.log2_lt h0).mpr hm
    have hlow : 2 ^ 52 ≤ m * 2 ^ (52 - m.log2) :=
      calc 2 ^ 52 = 2 ^ m.log2 * 2 ^ (52 - m.log2) := by rw [← pow_add]; congr 1; omega
        _ ≤ m * 2 ^ (52 - m.log2) := Nat.mul_le_mul_right _ (Nat.log2_self_le h0)
    have hbelow : m * 2 ^ (52 - m.log2) < 2 ^ 53 :=
      calc m * 2 ^ (52 - m.log2) < 2 ^ (m.log2 + 1) * 2 ^ (52 - m.log2) :=
            Nat.mul_lt_mul_of_pos_right Nat.lt_log2_self (by positivity)
        _ = 2 ^ 53 := by rw [← pow_add]; congr 1; omega
    have hn : Normal (m * 2 ^ (52 - m.log2)) ((k : Int) - (52 - m.log2 : Nat)) :=
      ⟨by omega, hbelow, .inr hlow⟩
    refine ⟨((k : Int) - (52 - m.log2 : Nat) + 1074).toNat * 2 ^ 52 + m * 2 ^ (52 - m.log2), ?_, ?_⟩
    · rw [infinity_eq]
      omega
    · rw [value, split_bits hn]
      push_cast
      rw [zpow_sub₀ (by norm_num), zpow_natCast, zpow_natCast]
      field_simp

end Binary64

end SuitePlan
