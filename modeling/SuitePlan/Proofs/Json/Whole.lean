import SuitePlan.Proofs.Decimal.Scaling
import SuitePlan.Proofs.Json.Doubles

/-! Whole doubles. The whole part of a double is one, and those with few digits are read as they were
written, with a zero behind the point. -/

namespace SuitePlan

namespace Numeral

open Binary64 (Rounds value infinity)

theorem ofDigits_eq {whole fraction : List Char} (h : decimalValue (whole ++ fraction) < natLimit)
    (negative : Bool) (exponent : Option Int) :
    ofDigits negative whole fraction exponent =
      ⟨negative, decimalValue (whole ++ fraction), exponent.getD 0 - fraction.length,
        fraction.isEmpty && exponent.isNone⟩ := by
  rw [decimalValue_append] at h ⊢
  have hle : decimalValue whole ≤ 10 ^ fraction.length * decimalValue whole :=
    Nat.le_mul_of_pos_left _ (Nat.pow_pos (by norm_num))
  have hwhole : fill 0 whole = (decimalValue whole, []) := by
    have hfits : 10 ^ whole.length * 0 + decimalValue whole < natLimit := by
      rw [Nat.mul_zero]
      omega
    have hh := fill_eq hfits
    rwa [Nat.mul_zero, Nat.zero_add] at hh
  simp [ofDigits, hwhole, fill_eq h]

/-- A whole numeral is read as its digits and its power of ten, or with one zero more. -/
theorem reread_bounds {n : Numeral} {k : Nat} (hi : n.integral = false) (hx : n.exponent = k)
    (hk : k ≤ 22) (hn : 10 * (n.digits * 10 ^ k) < 2 ^ 53) :
    n.reread.digits < 2 ^ 53 ∧ -22 ≤ n.reread.exponent ∧ n.reread.exponent ≤ 22 := by
  have hdigits : n.digits ≤ n.digits * 10 ^ k := Nat.le_mul_of_pos_right _ (Nat.pow_pos (by norm_num))
  have hlimit : (2 : Nat) ^ 53 < natLimit := by decide
  have hs : decimalValue (n.spelling.whole ++ n.spelling.fraction) < 2 ^ 53 ∧
      -22 ≤ n.spelling.exponent.getD 0 - (n.spelling.fraction.length : Int) ∧
      n.spelling.exponent.getD 0 - (n.spelling.fraction.length : Int) ≤ 22 := by
    have hform := form_spelling n
    have hlen : 0 < (Nat.toDigits 10 n.digits).length := List.length_pos_of_ne_nil Nat.toDigits_ne_nil
    have hval := decimalValue_toDigits n.digits
    generalize Nat.toDigits 10 n.digits = ds at hform hlen hval
    generalize n.spelling = s at hform
    cases hform with
    | integral h =>
      rw [hi] at h
      cases h
    | @zerosBefore j hj =>
      obtain rfl : k = j := by omega
      have hzeros : (ds ++ zeros k) ++ ['0'] = ds ++ zeros (k + 1) := by
        rw [List.append_assoc, zeros, zeros, List.replicate_succ']
      have hall : 10 ^ (k + 1) * n.digits = 10 * (n.digits * 10 ^ k) := by ring
      dsimp only
      rw [hzeros, decimalValue_append_zeros, hval, hall, List.length_singleton, Option.getD_none]
      omega
    | @point j h0 hj hle hp =>
      dsimp only
      rw [List.take_append_drop, hval, List.length_drop, Option.getD_none]
      omega
    | @zerosBehind j hp => omega
    | @scientific e he =>
      dsimp only
      rw [List.take_append_drop, hval, List.length_drop, Option.getD_some]
      omega
  rw [reread, ofDigits_eq (hs.1.trans hlimit)]
  exact hs

theorem exists_search {bits : Nat} (h : (onGrid? bits 0).isSome) {k : Nat} {x : Int} (hx : 0 ≤ x)
    (hk : x < k) : ∃ d y : Nat, search bits k x = some (d, (y : Int)) := by
  -- the search goes down from `x` and has not passed the grid of the whole numbers yet
  induction k generalizing x with
  | zero => omega
  | succ k ih =>
    rw [search]
    cases hg : onGrid? bits x with
    | some d =>
      obtain ⟨y, rfl⟩ := Int.eq_ofNat_of_zero_le hx
      exact ⟨d, y, rfl⟩
    | none =>
      have h0 : x ≠ 0 := by
        rintro rfl
        rw [hg] at h
        cases h
      exact ih (by omega) (by omega)

variable {bits n : Nat}

theorem magnitude_natural (h0 : n ≠ 0) (hb : bits < infinity) (hv : value bits = n) :
    magnitude n 0 = bits := by
  have hr := Binary64.rounds_nearest n one_pos
  rw [Nat.cast_one, div_one, ← hv] at hr
  have hmagnitude : magnitude n 0 = Binary64.nearest (n * powerOfTen 0) (powerOfTen 0) := by
    rw [magnitude, if_neg h0, if_neg (by omega), if_neg (by omega)]
    rfl
  rw [hmagnitude]
  exact (congrArg (Binary64.nearest · 1) (Nat.mul_one n)).trans (hr.exact hb)

theorem onGrid?_zero (h0 : n ≠ 0) (hb : bits < infinity) (hv : value bits = n) :
    onGrid? bits 0 = some n := by
  obtain ⟨m, e, hs⟩ : ∃ m e, Binary64.split bits = (m, e) := ⟨_, _, rfl⟩
  have hnum : m <<< e.toNat * powerOfTen (-0 : Int).toNat =
      n * (1 <<< (-e).toNat * powerOfTen (0 : Int).toNat) := by
    rw [value, hs] at hv
    have hscale : (m : ℚ) * 2 ^ e.toNat = n * 2 ^ (-e).toNat := by
      rw [← hv]
      dsimp only
      rw [mul_assoc, ← zpow_natCast, ← zpow_natCast, ← zpow_add₀ (by norm_num)]
      congr 2
      omega
    have hnat : m * 2 ^ e.toNat = n * 2 ^ (-e).toNat := by exact_mod_cast hscale
    rw [Nat.shiftLeft_eq, Nat.shiftLeft_eq, one_mul]
    simpa [powerOfTen_eq] using hnat
  have hden : 0 < 1 <<< (-e).toNat * powerOfTen (0 : Int).toNat := by
    rw [Nat.shiftLeft_eq]
    exact Nat.mul_pos (by positivity) (powerOfTen_pos _)
  have hround : Binary64.roundEven (m <<< e.toNat * powerOfTen (-0 : Int).toNat)
      (1 <<< (-e).toNat * powerOfTen (0 : Int).toNat) = n := by
    rw [hnum, Binary64.roundEven, Nat.mul_mod_left, Nat.mul_div_cancel _ hden, if_pos (.inl hden)]
  rw [onGrid?, hs]
  dsimp only
  rw [hround, if_pos (magnitude_natural h0 hb hv)]

theorem ceilingExponent_bounds (h0 : n ≠ 0) (hn : n < 2 ^ 53) (hv : value bits = n) :
    0 ≤ ceilingExponent bits ∧ ceilingExponent bits < 20 := by
  obtain ⟨m, e, hs⟩ : ∃ m e, Binary64.split bits = (m, e) := ⟨_, _, rfl⟩
  rw [value, hs] at hv
  have hm : m ≠ 0 := by
    rintro rfl
    rw [Nat.cast_zero, zero_mul] at hv
    exact h0 (Nat.cast_eq_zero.mp hv.symm)
  obtain ⟨hlow, hhigh⟩ := Binary64.log2_bounds hm
  have hpos := Binary64.two_zpow_pos e
  have htwo : (2 : ℚ) ≠ 0 := by norm_num
  have hbelow : (m.log2 : Int) + e < 53 := by
    have hlt : (2 : ℚ) ^ ((m.log2 : Int) + e) < 2 ^ (53 : Int) :=
      calc (2 : ℚ) ^ ((m.log2 : Int) + e) = 2 ^ (m.log2 : Int) * 2 ^ e := zpow_add₀ htwo _ _
        _ ≤ m * 2 ^ e := mul_le_mul_of_nonneg_right hlow hpos.le
        _ = n := hv
        _ < 2 ^ (53 : Int) := by exact_mod_cast hn
    exact (zpow_lt_zpow_iff_right₀ (by norm_num)).mp hlt
  have habove : 0 < (m.log2 : Int) + 1 + e := by
    have hlt : (2 : ℚ) ^ (0 : Int) < 2 ^ ((m.log2 : Int) + 1 + e) :=
      calc (2 : ℚ) ^ (0 : Int) ≤ n := by exact_mod_cast Nat.pos_of_ne_zero h0
        _ = m * 2 ^ e := hv.symm
        _ < 2 ^ ((m.log2 : Int) + 1) * 2 ^ e := mul_lt_mul_of_pos_right hhigh hpos
        _ = 2 ^ ((m.log2 : Int) + 1 + e) := (zpow_add₀ htwo _ _).symm
    exact (zpow_lt_zpow_iff_right₀ (by norm_num)).mp hlt
  rw [ceilingExponent, hs]
  dsimp only
  omega

theorem eq_of_rounds {k : Nat} (hn : n < 2 ^ 53) (hv : value bits = n) (hr : Rounds k bits) :
    k = n := by
  rcases Nat.lt_or_ge k (2 ^ 53) with hk | hk
  · obtain ⟨c, hc, hvc⟩ := Binary64.exists_value_nat hk.le
    rw [← hvc] at hr
    have hsame := hr.exact hc
    rw [hsame, hvc] at hv
    exact Nat.cast_inj.mp hv
  · obtain ⟨c, hc, hvc⟩ := Binary64.exists_value_nat (le_refl (2 ^ 53))
    have hrc := Binary64.rounds_value hc
    rw [hvc] at hrc
    have hle := Binary64.value_strictMono.monotone (hrc.mono hr (Nat.cast_le.mpr hk))
    rw [hvc, hv, Nat.cast_le] at hle
    omega

/-- The fewest digits of a whole double are those of its number without some zeros at the end. -/
theorem exists_shortest (h0 : n ≠ 0) (hn : n < 2 ^ 53) (hb : bits < infinity)
    (hv : value bits = n) : ∃ d k : Nat, shortest bits = (d, (k : Int)) ∧ d * 10 ^ k = n := by
  have hgrid : (onGrid? bits 0).isSome := by
    rw [onGrid?_zero h0 hb hv]
    rfl
  obtain ⟨hlow, hhigh⟩ := ceilingExponent_bounds h0 hn hv
  obtain ⟨d, k, hsearch⟩ := exists_search hgrid hlow hhigh
  have hbits : bits ≠ 0 := by
    rintro rfl
    rw [Binary64.value_zero] at hv
    exact h0 (Nat.cast_eq_zero.mp hv.symm)
  have hshortest : shortest bits = (d, (k : Int)) := by
    rw [shortest, hsearch, Option.getD_some]
  have hr := rounds_shortest hbits hb
  rw [hshortest] at hr
  have hcast : (d : ℚ) * 10 ^ (k : Int) = (d * 10 ^ k : Nat) := by
    push_cast
    rfl
  exact ⟨d, k, hshortest, eq_of_rounds hn hv (hcast ▸ hr)⟩

end Numeral

namespace Binary64

open Numeral (ofFloat)

/-- A whole double whose number has at most 53 bits with a zero behind it comes back. -/
theorem reread_of_value {x : Float} {n : Nat} (h : magnitude x < infinity)
    (hv : value (magnitude x) = n) (hn : 10 * n < 2 ^ 53) : reread x = x := by
  obtain ⟨d, k, hx, hk, hd⟩ : ∃ d k : Nat, ofFloat x = ⟨isNegative x, d, k, false⟩ ∧ k ≤ 22 ∧
      d * 10 ^ k = n := by
    by_cases h0 : n = 0
    · have hbits : magnitude x = 0 := by
        apply value_strictMono.injective
        rw [hv, h0, value_zero, Nat.cast_zero]
      refine ⟨0, 0, ?_, by omega, by omega⟩
      simp [ofFloat, hbits]
    · obtain ⟨d, k, hshortest, hd⟩ := Numeral.exists_shortest h0 (by omega) h hv
      have hbits : magnitude x ≠ 0 := by
        intro hz
        rw [hz, value_zero] at hv
        exact h0 (Nat.cast_eq_zero.mp hv.symm)
      refine ⟨d, k, ?_, ?_, hd⟩
      · simp [ofFloat, hbits, hshortest]
      · by_contra hlarge
        have hpow : 10 ^ 22 ≤ 10 ^ k := Nat.pow_le_pow_right (by norm_num) (by omega)
        have hpos : 0 < d := Nat.pos_of_ne_zero fun hz => h0 (by rw [← hd, hz, Nat.zero_mul])
        have hle : 10 ^ k ≤ d * 10 ^ k := Nat.le_mul_of_pos_left _ hpos
        omega
  have hbounds := Numeral.reread_bounds (n := ofFloat x) (k := k) (by rw [hx]) (by rw [hx]) hk
    (by rw [hx, hd]; exact hn)
  exact reread_eq h hbounds.1 hbounds.2

/-- Without its sign a whole part is a natural number, which is finite if the double is. -/
theorem exists_nat_floor {x : Float} (h : magnitude x < infinity) :
    magnitude (floor x) < infinity ∧ ∃ n : Nat, value (magnitude (floor x)) = n := by
  obtain ⟨m, e, hs⟩ : ∃ m e, split (magnitude x) = (m, e) := ⟨_, _, rfl⟩
  have hnormal := normal_split (magnitude x)
  rw [hs] at hnormal
  by_cases he : 0 ≤ e
  · have hx : floor x = x := by
      rw [floor, hs]
      exact if_pos he
    obtain ⟨k, rfl⟩ := Int.eq_ofNat_of_zero_le he
    refine ⟨hx.symm ▸ h, m * 2 ^ k, ?_⟩
    rw [hx, value, hs, zpow_natCast]
    push_cast
    rfl
  · -- the whole part and the next number above it have 53 bits at most
    have hnat : ∀ negative n, n < 2 ^ 53 →
        magnitude (ofBits negative (nearest n 1)) < infinity ∧
          ∃ k : Nat, value (magnitude (ofBits negative (nearest n 1))) = k := by
      intro negative n hn
      have hfinite : nearest n 1 < infinity := Numeral.nearest_lt_infinity (hn.trans (by decide))
      rw [magnitude_ofBits negative hfinite]
      exact ⟨hfinite, n, Numeral.value_nearest hn⟩
    have hhalf : m / 1 <<< (-e).toNat + 1 < 2 ^ 53 := by
      have hpow : 2 ≤ 1 <<< (-e).toNat := by
        rw [Nat.shiftLeft_eq, one_mul]
        exact Nat.le_self_pow (by omega) 2
      have hdiv := Nat.div_le_div_left hpow two_pos (a := m)
      have hbelow := hnormal.below
      omega
    rw [floor, hs]
    show magnitude (if 0 ≤ e then x else _) < _ ∧
      ∃ n : Nat, value (magnitude (if 0 ≤ e then x else _)) = n
    rw [if_neg he]
    dsimp only
    split
    · exact hnat _ _ hhalf
    · exact hnat _ _ (Nat.lt_of_succ_lt hhalf)

theorem floor_of_infinity_le {x : Float} (h : infinity ≤ magnitude x) : floor x = x := by
  have he : 0 ≤ (split (magnitude x)).2 := by
    rw [infinity_eq] at h
    rw [split_normal (by omega)]
    show 0 ≤ ((magnitude x / 2 ^ 52 : Nat) : Int) - 1075
    omega
  exact if_pos he

theorem isFinite_floor (x : Float) : isFinite (floor x) = isFinite x := by
  by_cases h : magnitude x < infinity
  · rw [isFinite, isFinite, decide_eq_true h, decide_eq_true (exists_nat_floor h).1]
  · rw [floor_of_infinity_le (not_lt.mp h)]

end Binary64

end SuitePlan
