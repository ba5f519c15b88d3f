import SuitePlan.Proofs.Decimal.Residual

/-! Sums of doubles that are not negative. A sum is the double nearest to the exact one. -/

namespace SuitePlan

namespace Binary64

open Float.Model Float.Model.UnpackedFloat

theorem value_zero : value 0 = 0 := zero_mul _

theorem value_pos {bits : Nat} (h : bits ≠ 0) : 0 < value bits := by
  rw [← value_zero]
  exact value_strictMono (Nat.pos_of_ne_zero h)

theorem log2_mul_two_pow {m : Nat} (hm : m ≠ 0) (k : Nat) : (m * 2 ^ k).log2 = m.log2 + k := by
  have hpos : m * 2 ^ k ≠ 0 := Nat.mul_ne_zero hm (Nat.two_pow_pos k).ne'
  refine (Nat.log2_eq_iff hpos).mpr ⟨?_, ?_⟩
  · rw [pow_add]
    exact Nat.mul_le_mul_right _ (Nat.log2_self_le hm)
  · rw [Nat.add_right_comm, pow_add]
    exact Nat.mul_lt_mul_of_pos_right Nat.lt_log2_self (Nat.two_pow_pos k)

/-- Rounding gives the double nearest to a mantissa with its exponent. -/
theorem rounds_round {m : Nat} (hm : 0 < m) (e : Int) :
    Rounds (m * 2 ^ e)
      (UnpackedFloat.pack .binary64 (UnpackedFloat.round .binary64 .positive m e)).toNat := by
  obtain ⟨f, hf⟩ : ∃ f, f = max ((m.log2 : Int) + 1 + e - 53) (-1074) := ⟨_, rfl⟩
  -- The exponent is first brought down to that of the binade, if it is above it.
  obtain ⟨n, hn⟩ : ∃ n, n = m * 2 ^ (e - f).toNat := ⟨_, rfl⟩
  obtain ⟨d, hd⟩ : ∃ d, d = e - (e - f).toNat := ⟨_, rfl⟩
  have hlog : n.log2 = m.log2 + (e - f).toNat := hn ▸ log2_mul_two_pow hm.ne' _
  have hdecrease : UnpackedFloat.round .binary64 .positive m e =
      roundWithAccuracy .binary64 .positive n d .exact := by
    rw [hn, hd, hf, ← Nat.shiftLeft_eq]
    rfl
  have hvalue : (m : ℚ) * 2 ^ e = n * 2 ^ d := by
    rw [hn]
    push_cast
    rw [mul_assoc, ← zpow_natCast, ← zpow_add₀ (by norm_num)]
    congr 2
    omega
  have hpos : n ≠ 0 := by
    rw [hn]
    positivity
  rw [hdecrease, hvalue]
  exact rounds_roundWithAccuracy (locates_exact n) (.inl hpos) (by omega)

/-- What doubles from zero up to infinity are unpacked into, by their magnitude. -/
inductive Amount : UnpackedFloat → Nat → Prop
  | zero (s : Sign) : Amount (.zero s) 0
  | finite {m : Nat} {e : Int} {bits : Nat} (hm : 0 < m) : split bits = (m, e) → bits < infinity →
      Amount (.finite .positive m e hm) bits
  | infinity : Amount (.infinity .positive) infinity

theorem amount_unpack {x : Float} (h : 0.0 ≤ x) : Amount x.toModel.unpack (magnitude x) := by
  have hle : (UnpackedFloat.compare (.zero .positive) x.toModel.unpack).any (·.isLE) = true :=
    of_decide_eq_true h
  have hu := unpacks x
  generalize x.toModel.unpack = u at hle hu
  cases hu with
  | zero hz =>
    rw [hz]
    exact .zero _
  | finite hm hsplit hlt =>
    cases hs : sign x with
    | negative => simp [hs, UnpackedFloat.compare] at hle
    | positive => exact .finite hm hsplit hlt
  | infinity hi =>
    cases hs : sign x with
    | negative => simp [hs, UnpackedFloat.compare] at hle
    | positive =>
      rw [hi]
      exact .infinity
  | notANumber hm hn => cases hle

namespace Amount

variable {u v : UnpackedFloat} {a b : Nat}

theorem le_infinity (h : Amount u a) : a ≤ Binary64.infinity := by
  cases h with
  | zero s => exact Nat.zero_le _
  | finite hm hsplit hlt => exact hlt.le
  | infinity => exact le_rfl

theorem compare_isLE (hu : Amount u a) (hv : Amount v b) :
    (UnpackedFloat.compare u v).any (·.isLE) = true ↔ a ≤ b := by
  have hinf : 0 < Binary64.infinity := by decide
  cases hu with
  | zero s => cases hv <;> simp [UnpackedFloat.compare]
  | infinity =>
    cases hv with
    | zero s => simp [UnpackedFloat.compare, hinf.ne']
    | finite hm hsplit hlt => simpa [UnpackedFloat.compare] using hlt
    | infinity => simp [UnpackedFloat.compare, compare]
  | @finite m e _ hm hsplit hlt =>
    cases hv with
    | zero s => simp [UnpackedFloat.compare, ne_zero_of_split hsplit hm]
    | infinity => simpa [UnpackedFloat.compare] using hlt.le
    | @finite n f _ hn hsplit' hlt' =>
      have hnormal := normal_split a
      have hnormal' := normal_split b
      rw [hsplit] at hnormal
      rw [hsplit'] at hnormal'
      have ha := eq_of_split hsplit
      have hb := eq_of_split hsplit'
      obtain ⟨hlow, hbelow, habove⟩ := hnormal
      obtain ⟨hlow', hbelow', habove'⟩ := hnormal'
      simp only [UnpackedFloat.compare, Option.any_some]
      rcases lt_trichotomy e f with hef | rfl | hef
      · rw [Int.compare_eq_lt.mpr hef]
        exact iff_of_true rfl (by omega)
      · rw [Int.compare_eq_eq.mpr rfl, Ordering.eq_then, Nat.isLE_compare]
        omega
      · rw [Int.compare_eq_gt.mpr hef]
        exact iff_of_false Bool.false_ne_true (by omega)

theorem pack_toNat (h : Amount u a) (hs : u ≠ .zero .negative) :
    (UnpackedFloat.pack .binary64 u).toNat = a := by
  cases h with
  | zero s =>
    cases s with
    | negative => exact (hs rfl).elim
    | positive => rfl
  | @finite m e _ hm hsplit hlt =>
    have hnormal := normal_split a
    rw [hsplit] at hnormal
    rw [pack_bits hnormal hm, ← eq_of_split hsplit, min_eq_left hlt.le]
  | infinity => rfl

theorem zero_add_toNat (h : Amount u a) :
    (UnpackedFloat.pack .binary64 (UnpackedFloat.add .binary64 (.zero .positive) u)).toNat = a := by
  cases h with
  | zero s => cases s <;> rfl
  | finite hm hsplit hlt => exact (finite hm hsplit hlt).pack_toNat UnpackedFloat.noConfusion
  | infinity => rfl

theorem add_zero_toNat (h : Amount u a) (hs : u ≠ .zero .negative) (s : Sign) :
    (UnpackedFloat.pack .binary64 (UnpackedFloat.add .binary64 u (.zero s))).toNat = a := by
  cases h with
  | zero s' =>
    cases s' with
    | negative => exact (hs rfl).elim
    | positive => cases s <;> rfl
  | finite hm hsplit hlt => exact (finite hm hsplit hlt).pack_toNat hs
  | infinity => rfl

end Amount

/-- Both mantissas are brought to the smaller exponent, added and rounded. -/
theorem rounds_add_finite {m n : Nat} (hm : 0 < m) (hn : 0 < n) (e f : Int) :
    Rounds (m * 2 ^ e + n * 2 ^ f) (UnpackedFloat.pack .binary64
      (UnpackedFloat.add .binary64 (.finite .positive m e hm) (.finite .positive n f hn))).toNat := by
  obtain ⟨g, hg⟩ : ∃ g, g = min e f := ⟨_, rfl⟩
  obtain ⟨k, hk⟩ : ∃ k, k = m * 2 ^ (e - g).toNat + n * 2 ^ (f - g).toNat := ⟨_, rfl⟩
  have hpos : 0 < k := by
    have hm' := Nat.mul_pos hm (Nat.two_pow_pos (e - g).toNat)
    omega
  have hadd : UnpackedFloat.add .binary64 (.finite .positive m e hm) (.finite .positive n f hn) =
      UnpackedFloat.round .binary64 .positive k g := by
    have hsum : UnpackedFloat.add .binary64 (.finite .positive m e hm) (.finite .positive n f hn) =
        UnpackedFloat.normalize .binary64 (k : Int) g .positive := by
      rw [hk, hg, ← Nat.shiftLeft_eq, ← Nat.shiftLeft_eq]
      rfl
    have hgt : compare (k : Int) 0 = .gt := Int.compare_eq_gt.mpr (by omega)
    rw [hsum, UnpackedFloat.normalize, hgt]
    rfl
  have hvalue : (m : ℚ) * 2 ^ e + n * 2 ^ f = k * 2 ^ g := by
    have htwo : (2 : ℚ) ≠ 0 := by norm_num
    have hscale : ∀ (l : Nat) (d : Int), g ≤ d →
        (l : ℚ) * 2 ^ d = (l * 2 ^ (d - g).toNat : Nat) * 2 ^ g := by
      intro l d hd
      push_cast
      rw [mul_assoc, ← zpow_natCast, ← zpow_add₀ htwo]
      congr 2
      omega
    rw [hscale m e (by omega), hscale n f (by omega), ← add_mul, hk]
    push_cast
    rfl
  rw [hadd, hvalue]
  exact rounds_round hpos g

/-- A sum of finite doubles is the double nearest to it, and other sums are infinite. -/
theorem Amount.add_cases {u v : UnpackedFloat} {a b : Nat} (hu : Amount u a) (hv : Amount v b)
    (hs : u ≠ .zero .negative) :
    let bits := (UnpackedFloat.pack .binary64 (UnpackedFloat.add .binary64 u v)).toNat
    (a < Binary64.infinity ∧ b < Binary64.infinity ∧ Rounds (value a + value b) bits) ∨
      (a = Binary64.infinity ∨ b = Binary64.infinity) ∧ bits = Binary64.infinity := by
  intro bits
  have hpos : 0 < Binary64.infinity := by decide
  cases hv with
  | infinity =>
    refine .inr ⟨.inr rfl, ?_⟩
    cases hu <;> rfl
  | zero s =>
    rcases hu.le_infinity.lt_or_eq with ha | ha
    · refine .inl ⟨ha, hpos, ?_⟩
      rw [value_zero, Rat.add_zero, show bits = a from hu.add_zero_toNat hs s]
      exact rounds_value ha
    · exact .inr ⟨.inl ha, (hu.add_zero_toNat hs s).trans ha⟩
  | @finite n f _ hn hsplit' hb =>
    cases hu with
    | zero s =>
      cases s with
      | negative => exact (hs rfl).elim
      | positive =>
        refine .inl ⟨hpos, hb, ?_⟩
        rw [value_zero, Rat.zero_add, show bits = b from (Amount.finite hn hsplit' hb).zero_add_toNat]
        exact rounds_value hb
    | infinity => exact .inr ⟨.inl rfl, rfl⟩
    | @finite m e _ hm hsplit ha =>
      refine .inl ⟨ha, hb, ?_⟩
      rw [value, value, hsplit, hsplit']
      exact rounds_add_finite hm hn e f

theorem exists_value_nat {n : Nat} (h : n ≤ 2 ^ 53) : ∃ bits < infinity, value bits = n := by
  rcases h.lt_or_eq with hlt | rfl
  · obtain ⟨bits, hb, hv⟩ := exists_value hlt (Nat.zero_le 900)
    rw [pow_zero, mul_one] at hv
    exact ⟨bits, hb, hv⟩
  · obtain ⟨bits, hb, hv⟩ := exists_value (m := 2 ^ 52) (by norm_num) (k := 1) (by norm_num)
    refine ⟨bits, hb, hv.trans ?_⟩
    norm_num

end Binary64

end SuitePlan
