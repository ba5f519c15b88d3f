import SuitePlan.Proofs.Decimal.Nonnegative

/-! Products and quotients of doubles. Without their signs they are the doubles nearest to the exact
ones, and what is not finite stays so when it is multiplied. -/

namespace SuitePlan

namespace Binary64

open Float.Model Float.Model.UnpackedFloat

theorem mul_eq (x y : Float) : x * y =
    .ofModel (.pack (UnpackedFloat.mul .binary64 x.toModel.unpack y.toModel.unpack)) := rfl

theorem div_eq (x y : Float) : x / y =
    .ofModel (.pack (UnpackedFloat.div .binary64 x.toModel.unpack y.toModel.unpack)) := rfl

theorem magnitude_pack (u : UnpackedFloat) :
    magnitude (.ofModel (.pack u)) = (UnpackedFloat.pack .binary64 u).toNat % signBit := rfl

section Signs

theorem packComponents_mod (s : Sign) (e : BitVec 11) (m : BitVec 52) :
    (packComponents .binary64 s e m).toNat % signBit =
      (packComponents .binary64 .positive e m).toNat := by
  have he := e.isLt
  have hm := m.isLt
  have hpositive : Sign.positive.toBitVec.toNat = 0 := rfl
  rw [packComponents_toNat, packComponents_toNat, hpositive, signBit_eq]
  omega

theorem packedInfinity_mod (s : Sign) :
    (packedInfinity .binary64 s).toNat % signBit = infinity :=
  packComponents_mod s _ _

theorem pack_finite_mod (s : Sign) {m : Nat} (e : Int) (hm : 0 < m) :
    (UnpackedFloat.pack .binary64 (.finite s m e hm)).toNat % signBit =
      (UnpackedFloat.pack .binary64 (.finite .positive m e hm)).toNat := by
  simp only [UnpackedFloat.pack]
  split
  · exact packComponents_mod s _ _
  · split
    · exact packComponents_mod s _ _
    · exact packComponents_mod s _ _

/-- The sign has no part in rounding. -/
theorem pack_roundWithAccuracy_mod (s : Sign) (m : Nat) (e : Int) (acc : Accuracy) :
    (UnpackedFloat.pack .binary64 (roundWithAccuracy .binary64 s m e acc)).toNat % signBit =
      (UnpackedFloat.pack .binary64 (roundWithAccuracy .binary64 .positive m e acc)).toNat := by
  simp only [roundWithAccuracy]
  split
  · exact packComponents_mod s _ _
  · exact pack_finite_mod s _ _

end Signs

section Finite

variable {m n : Nat} {e f : Int}

theorem rounds_mul_finite (hm : 0 < m) (hn : 0 < n) (h : Normal m e) (h' : Normal n f) (s : Sign) :
    Rounds (m * 2 ^ e * (n * 2 ^ f)) ((UnpackedFloat.pack .binary64
      (roundWithAccuracy .binary64 s (m * n) (e + f) .exact)).toNat % signBit) := by
  have hpos : m * n ≠ 0 := (Nat.mul_pos hm hn).ne'
  have hlog : 2 ^ 52 ≤ m * n → 52 ≤ (m * n).log2 := (Nat.le_log2 hpos).mpr
  -- one mantissa is full, and so is the product, or both are at the smallest exponent
  have htarget : e + f ≤ max (((m * n).log2 : Int) + 1 + (e + f) - 53) (-1074) := by
    rcases h.above with he | hmant
    · rcases h'.above with hf | hmant'
      · omega
      · have hbig := hlog (hmant'.trans (Nat.le_mul_of_pos_left n hm))
        omega
    · have hbig := hlog (hmant.trans (Nat.le_mul_of_pos_right m hn))
      omega
  have hvalue : (m : ℚ) * 2 ^ e * (n * 2 ^ f) = (m * n : Nat) * 2 ^ (e + f) := by
    rw [zpow_add₀ (by norm_num)]
    push_cast
    ring
  rw [pack_roundWithAccuracy_mod, hvalue]
  exact rounds_roundWithAccuracy (locates_exact _) (.inl hpos) htarget

theorem rounds_div_finite (hm : 0 < m) (hn : 0 < n) (e f : Int) (s : Sign) :
    let core := divCore .binary64 m e n f
    Rounds (m * 2 ^ e / (n * 2 ^ f)) ((UnpackedFloat.pack .binary64
      (roundWithAccuracy .binary64 s core.1 core.2.1 core.2.2)).toNat % signBit) := by
  obtain ⟨t, ht⟩ : ∃ t : Int, t = (m.log2 + 1 + e) - (n.log2 + 1 + f) := ⟨_, rfl⟩
  obtain ⟨g, hg⟩ : ∃ g : Int, g = min (e - f) (max (t - 53) (-1074)) := ⟨_, rfl⟩
  obtain ⟨k, hk⟩ : ∃ k : Nat, k = (e - f - g).toNat := ⟨_, rfl⟩
  have hcore : divCore .binary64 m e n f =
      (m * 2 ^ k / n, g, accuracyOfFraction (m * 2 ^ k % n) n) := by
    rw [hk, hg, ht, ← Nat.shiftLeft_eq]
    rfl
  have hvalue : (m : ℚ) * 2 ^ e / (n * 2 ^ f) = (m * 2 ^ k : Nat) / n * 2 ^ g := by
    have hpow : (2 : ℚ) ^ e = 2 ^ k * 2 ^ g * 2 ^ f := by
      rw [← zpow_natCast, ← zpow_add₀ (by norm_num), ← zpow_add₀ (by norm_num)]
      congr 1
      omega
    have hne := (two_zpow_pos f).ne'
    rw [hpow]
    push_cast
    field_simp
  -- the dividend is scaled up until the whole part has enough bits, unless `t` is too small for it
  have hwhole : g + 1 ≤ t → m * 2 ^ k / n ≠ 0 ∧ (t - 1 - g).toNat ≤ (m * 2 ^ k / n).log2 := by
    intro hlarge
    have hle : 2 ^ (t - 1 - g).toNat ≤ m * 2 ^ k / n := by
      rw [Nat.le_div_iff_mul_le hn]
      calc 2 ^ (t - 1 - g).toNat * n
          ≤ 2 ^ (t - 1 - g).toNat * 2 ^ (n.log2 + 1) :=
            Nat.mul_le_mul_left _ Nat.lt_log2_self.le
        _ = 2 ^ m.log2 * 2 ^ k := by
            rw [← pow_add, ← pow_add]
            congr 1
            omega
        _ ≤ m * 2 ^ k := Nat.mul_le_mul_right _ (Nat.log2_self_le hm.ne')
    have hpos : m * 2 ^ k / n ≠ 0 := ((Nat.two_pow_pos _).trans_le hle).ne'
    exact ⟨hpos, (Nat.le_log2 hpos).mpr hle⟩
  intro core
  show Rounds _ ((UnpackedFloat.pack .binary64 (roundWithAccuracy .binary64 s
    (divCore .binary64 m e n f).1 (divCore .binary64 m e n f).2.1
    (divCore .binary64 m e n f).2.2)).toNat % signBit)
  rw [hcore, hvalue, pack_roundWithAccuracy_mod]
  apply rounds_roundWithAccuracy (locates_fraction _ hn)
  · by_cases hlarge : g + 1 ≤ t
    · exact .inl (hwhole hlarge).1
    · exact .inr (by omega)
  · by_cases hlarge : g + 1 ≤ t
    · have hlog := (hwhole hlarge).2
      omega
    · omega

end Finite

theorem rounds_zero : Rounds 0 0 := ⟨0, 1, one_pos, by norm_num, rfl⟩

theorem rounds_packed_zero (s : Sign) :
    Rounds 0 ((UnpackedFloat.pack .binary64 (.zero s)).toNat % signBit) :=
  (packComponents_mod s _ _).symm ▸ rounds_zero

/-- What finite doubles are unpacked into, with the number that is left without the sign. -/
inductive Parts : UnpackedFloat → ℚ → Prop
  | zero (s : Sign) : Parts (.zero s) 0
  | finite (s : Sign) {m : Nat} {e : Int} (hm : 0 < m) (h : Normal m e) :
      Parts (.finite s m e hm) (m * 2 ^ e)

variable {x y : Float}

theorem parts_unpack (h : magnitude x < infinity) :
    Parts x.toModel.unpack (value (magnitude x)) := by
  have hu := unpacks x
  generalize x.toModel.unpack = u at hu
  cases hu with
  | zero hz =>
    rw [hz, value_zero]
    exact .zero _
  | finite hm hsplit =>
    have hnormal := normal_split (magnitude x)
    rw [hsplit] at hnormal
    rw [value, hsplit]
    exact .finite _ hm hnormal
  | infinity hi => exact (h.ne hi).elim
  | notANumber hi => exact absurd (hi ▸ h) (by decide)

namespace Parts

variable {u v : UnpackedFloat} {p q : ℚ}

theorem mul (hu : Parts u p) (hv : Parts v q) :
    Rounds (p * q)
      ((UnpackedFloat.pack .binary64 (UnpackedFloat.mul .binary64 u v)).toNat % signBit) := by
  cases hu with
  | zero s =>
    rw [zero_mul]
    cases hv with
    | zero => exact rounds_packed_zero _
    | finite => exact rounds_packed_zero _
  | finite s hm h =>
    cases hv with
    | zero =>
      rw [mul_zero]
      exact rounds_packed_zero _
    | finite s' hn h' => exact rounds_mul_finite hm hn h h' _

theorem div (hu : Parts u p) (hv : Parts v q) (hq : q ≠ 0) :
    Rounds (p / q)
      ((UnpackedFloat.pack .binary64 (UnpackedFloat.div .binary64 u v)).toNat % signBit) := by
  cases hv with
  | zero => exact (hq rfl).elim
  | finite s hn =>
    cases hu with
    | zero =>
      rw [zero_div]
      exact rounds_packed_zero _
    | finite s' hm => exact rounds_div_finite hm hn _ _ _

end Parts

theorem magnitude_mul (hx : magnitude x < infinity) (hy : magnitude y < infinity) :
    magnitude (x * y) = product (magnitude x) (magnitude y) :=
  ((parts_unpack hx).mul (parts_unpack hy)).unique (rounds_product _ _)

theorem magnitude_div (hx : magnitude x < infinity) (hy : magnitude y < infinity)
    (h0 : magnitude y ≠ 0) : magnitude (x / y) = quotient (magnitude x) (magnitude y) :=
  ((parts_unpack hx).div (parts_unpack hy) (value_pos h0).ne').unique (rounds_quotient (value_pos h0))

theorem magnitude_div_infinity (hx : magnitude x < infinity) (hy : magnitude y = infinity) :
    magnitude (x / y) = 0 := by
  have hu := parts_unpack hx
  have hv := unpacks y
  rw [div_eq, magnitude_pack]
  generalize x.toModel.unpack = u at hu
  generalize value (magnitude x) = p at hu
  generalize y.toModel.unpack = v at hv
  cases hv with
  | zero hz => exact absurd (hz.symm.trans hy) (by decide)
  | finite _ _ hlt => exact (hlt.ne hy).elim
  | notANumber hi => exact absurd (hi.symm.trans hy) (by decide)
  | infinity =>
    cases hu with
    | zero => exact packComponents_mod _ _ _
    | finite => exact packComponents_mod _ _ _

theorem infinity_le_magnitude_mul (hx : infinity ≤ magnitude x) (y : Float) :
    infinity ≤ magnitude (x * y) := by
  have hu := unpacks x
  have hv := unpacks y
  have hnan : infinity ≤ (packedNaN .binary64).toNat % signBit := by decide
  rw [mul_eq, magnitude_pack]
  generalize x.toModel.unpack = u at hu
  generalize y.toModel.unpack = v at hv
  cases hu with
  | zero hz => exact absurd (hz ▸ hx) (by decide)
  | finite _ _ hlt => exact (not_lt.mpr hx hlt).elim
  | notANumber => exact hnan
  | infinity =>
    cases hv with
    | zero => exact hnan
    | notANumber => exact hnan
    | finite => exact (packedInfinity_mod _).ge
    | infinity => exact (packedInfinity_mod _).ge

theorem product_zero (a : Nat) : product 0 a = 0 := by
  have hr := rounds_product 0 a
  rw [value_zero, zero_mul] at hr
  exact hr.unique rounds_zero

/-- A quotient that is not above one leaves a finite double finite when it is multiplied. -/
theorem product_quotient_lt {a b c : Nat} (hab : a ≤ b) (hb : b ≠ 0) (hc : c < infinity) :
    quotient a b < infinity ∧ product (quotient a b) c < infinity := by
  obtain ⟨one, hone, hvalue⟩ := exists_value_nat (n := 1) (by norm_num)
  rw [Nat.cast_one] at hvalue
  have hpos := value_pos hb
  have hratio : value a / value b ≤ value one := by
    rw [hvalue]
    exact (div_le_one hpos).mpr (value_strictMono.monotone hab)
  have hq : quotient a b ≤ one := (rounds_quotient hpos).mono (rounds_value hone) hratio
  have hp : value (quotient a b) * value c ≤ value c := by
    apply mul_le_of_le_one_left (value_nonneg c)
    rw [← hvalue]
    exact value_strictMono.monotone hq
  exact ⟨hq.trans_lt hone, ((rounds_product _ _).mono (rounds_value hc) hp).trans_lt hc⟩

theorem magnitude_of_pos (h : 0.0 < x) : magnitude x ≠ 0 ∧ magnitude x ≤ infinity := by
  have hlt : (UnpackedFloat.compare (.zero .positive) x.toModel.unpack == some .lt) = true :=
    of_decide_eq_true h
  have hu := unpacks x
  generalize x.toModel.unpack = u at hlt hu
  cases hu with
  | zero => cases hlt
  | finite hm hsplit hfinite => exact ⟨ne_zero_of_split hsplit hm, hfinite.le⟩
  | infinity hi =>
    rw [hi]
    decide
  | notANumber => cases hlt

end Binary64

end SuitePlan
