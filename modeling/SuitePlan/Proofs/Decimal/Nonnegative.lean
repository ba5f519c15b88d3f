import SuitePlan.Proofs.Decimal.Addition

/-! Doubles from zero up to infinity. The sign of a zero makes no difference to their order or their
sums, a sum is not below its terms, and whole numbers are added exactly up to the first one of 54 bits. -/

namespace SuitePlan

namespace Binary64

open Float.Model Float.Model.UnpackedFloat

/-- Doubles from zero up to infinity that have no sign. -/
structure Unsigned (x : Float) : Prop where
  positive : isNegative x = false
  number : magnitude x ≤ infinity

theorem unsigned_of_bitsOf {x : Float} (h : bitsOf x ≤ infinity) :
    Unsigned x ∧ magnitude x = bitsOf x := by
  have hinf : infinity < signBit := by decide
  have hsame : magnitude x = bitsOf x := Nat.mod_eq_of_lt (h.trans_lt hinf)
  have hsign : isNegative x = false := decide_eq_false (by omega)
  exact ⟨⟨hsign, hsame ▸ h⟩, hsame⟩

theorem le_iff_magnitude {x y : Float} (hx : 0.0 ≤ x) (hy : 0.0 ≤ y) :
    x ≤ y ↔ magnitude x ≤ magnitude y := by
  have hle : x ≤ y ↔ (UnpackedFloat.compare x.toModel.unpack y.toModel.unpack).any (·.isLE) = true :=
    decide_eq_true_iff
  rw [hle]
  exact (amount_unpack hx).compare_isLE (amount_unpack hy)

namespace Unsigned

variable {x y z : Float}

theorem zero : Unsigned 0.0 := (unsigned_of_bitsOf (x := 0.0) (by decide)).1

theorem bitsOf_eq (h : Unsigned x) : bitsOf x = magnitude x := by
  rw [Binary64.bitsOf_eq, h.positive]
  exact Nat.zero_add _

theorem rank_eq (h : Unsigned x) : rank x = magnitude x := by
  rw [rank, h.positive]
  rfl

theorem ext (hx : Unsigned x) (hy : Unsigned y) (h : magnitude x = magnitude y) : x = y := by
  refine Float.toBits_inj.mp (UInt64.toNat.inj ?_)
  exact hx.bitsOf_eq.trans (h.trans hy.bitsOf_eq.symm)

theorem amount (h : Unsigned x) :
    Amount x.toModel.unpack (magnitude x) ∧ x.toModel.unpack ≠ .zero .negative := by
  have hs : sign x = .positive := if_neg (by simp [h.positive])
  have hn := h.number
  have hu := unpacks x
  generalize x.toModel.unpack = u at hu
  cases hu with
  | zero hz =>
    rw [hz, hs]
    exact ⟨.zero _, by simp⟩
  | finite hm hsplit hlt =>
    rw [hs]
    exact ⟨.finite hm hsplit hlt, by simp⟩
  | infinity hi =>
    rw [hi, hs]
    exact ⟨.infinity, by simp⟩
  | notANumber hm hp =>
    rw [hm] at hn
    exact absurd hn (by decide)

theorem nonneg (h : Unsigned x) : 0.0 ≤ x :=
  decide_eq_true (((Amount.zero .positive).compare_isLE h.amount.1).mpr (Nat.zero_le _))

theorem bitsOf_add_cases (hx : Unsigned x) (hy : 0.0 ≤ y) :
    (magnitude x < infinity ∧ magnitude y < infinity ∧
      Rounds (value (magnitude x) + value (magnitude y)) (bitsOf (x + y))) ∨
      (magnitude x = infinity ∨ magnitude y = infinity) ∧ bitsOf (x + y) = infinity :=
  hx.amount.1.add_cases (amount_unpack hy) hx.amount.2

theorem add (hx : Unsigned x) (hy : 0.0 ≤ y) :
    Unsigned (x + y) ∧ magnitude (x + y) = bitsOf (x + y) := by
  apply unsigned_of_bitsOf
  rcases hx.bitsOf_add_cases hy with ⟨-, -, hr⟩ | ⟨-, hinf⟩
  · exact hr.le_infinity
  · exact hinf.le

/-- A load does not get less by what is added to it. -/
theorem magnitude_le_add (hx : Unsigned x) (hy : 0.0 ≤ y) : magnitude x ≤ magnitude (x + y) := by
  rw [(hx.add hy).2]
  rcases hx.bitsOf_add_cases hy with ⟨ha, -, hr⟩ | ⟨-, hinf⟩
  · exact (rounds_value ha).mono hr (le_add_of_nonneg_right (value_nonneg _))
  · exact hinf ▸ hx.number

theorem magnitude_le_add_right (hx : Unsigned x) (hy : 0.0 ≤ y) :
    magnitude y ≤ magnitude (x + y) := by
  rw [(hx.add hy).2]
  rcases hx.bitsOf_add_cases hy with ⟨-, hb, hr⟩ | ⟨-, hinf⟩
  · exact (rounds_value hb).mono hr (le_add_of_nonneg_left (value_nonneg _))
  · exact hinf ▸ (amount_unpack hy).le_infinity

/-- Whole numbers are added without an error up to the first one of 54 bits. -/
theorem value_add (hx : Unsigned x) (hy : 0.0 ≤ y) (ha : magnitude x < infinity)
    (hb : magnitude y < infinity) {n : Nat} (hn : n ≤ 2 ^ 53)
    (h : value (magnitude x) + value (magnitude y) = n) :
    magnitude (x + y) < infinity ∧ value (magnitude (x + y)) = n := by
  obtain ⟨bits, hbits, hv⟩ := exists_value_nat hn
  rw [(hx.add hy).2]
  rcases hx.bitsOf_add_cases hy with ⟨-, -, hr⟩ | ⟨hinf, -⟩
  · rw [h, ← hv] at hr
    rw [hr.exact hbits]
    exact ⟨hbits, hv⟩
  · omega

/-- The sign of a zero that is added makes no difference. -/
theorem add_congr (hx : Unsigned x) (hy : 0.0 ≤ y) (hz : 0.0 ≤ z) (h : magnitude y = magnitude z) :
    x + y = x + z := by
  refine (hx.add hy).1.ext (hx.add hz).1 ?_
  rw [(hx.add hy).2, (hx.add hz).2]
  rcases hx.bitsOf_add_cases hy with ⟨ha, hb, hr⟩ | ⟨hinf, hbits⟩
  · rcases hx.bitsOf_add_cases hz with ⟨-, -, hr'⟩ | ⟨hinf, -⟩
    · exact (h ▸ hr).unique hr'
    · omega
  · rcases hx.bitsOf_add_cases hz with ⟨ha, hb, -⟩ | ⟨-, hbits'⟩
    · omega
    · exact hbits.trans hbits'.symm

theorem le_antisymm (hx : Unsigned x) (hy : Unsigned y) (h : x ≤ y) (h' : y ≤ x) : x = y := by
  rw [le_iff_magnitude hx.nonneg hy.nonneg] at h
  rw [le_iff_magnitude hy.nonneg hx.nonneg] at h'
  exact hx.ext hy (Nat.le_antisymm h h')

end Unsigned

theorem nonneg_iff {x : Float} :
    0.0 ≤ x ↔ magnitude x ≤ infinity ∧ (isNegative x = true → magnitude x = 0) := by
  constructor
  · intro h
    have ha := amount_unpack h
    refine ⟨ha.le_infinity, fun hn => ?_⟩
    have hs : sign x = .negative := if_pos hn
    have hu := unpacks x
    generalize x.toModel.unpack = u at ha hu
    cases hu with
    | zero hz => exact hz
    | finite =>
      rw [hs] at ha
      cases ha
    | infinity =>
      rw [hs] at ha
      cases ha
    | notANumber => cases ha
  · rintro ⟨hle, hzero⟩
    by_cases hn : isNegative x = true
    · have hz := hzero hn
      have hu := unpacks x
      have ha : Amount x.toModel.unpack 0 := by
        generalize x.toModel.unpack = u at hu
        cases hu with
        | zero => exact .zero _
        | finite hm hsplit => exact (ne_zero_of_split hsplit hm hz).elim
        | infinity hi => exact absurd (hz.symm.trans hi) (by decide)
        | notANumber hi => exact absurd (hz.symm.trans hi) (by decide)
      exact decide_eq_true (((Amount.zero .positive).compare_isLE ha).mpr le_rfl)
    · exact Unsigned.nonneg ⟨by simpa using hn, hle⟩

theorem le_of_rank_le {x y : Float} (hx : 0.0 ≤ x) (hy : 0.0 ≤ y) (h : rank x ≤ rank y) :
    x ≤ y := by
  rw [le_iff_magnitude hx hy]
  by_cases hn : isNegative x = true
  · rw [(nonneg_iff.mp hx).2 hn]
    exact Nat.zero_le _
  · rw [rank, if_neg hn] at h
    by_cases hn' : isNegative y = true
    · rw [rank, if_pos hn'] at h
      omega
    · rw [rank, if_neg hn'] at h
      exact Int.ofNat_le.mp h

/-- The number that a finite double stands for. -/
def number (x : Float) : ℚ := if isNegative x then -value (magnitude x) else value (magnitude x)

theorem number_eq {x : Float} (h : 0.0 ≤ x) : number x = value (magnitude x) := by
  obtain ⟨-, hzero⟩ := nonneg_iff.mp h
  by_cases hn : isNegative x = true
  · rw [number, if_pos hn, hzero hn, value_zero, neg_zero]
  · rw [number, if_neg hn]

theorem number_of_split {x : Float} {n k : Nat} (h : isNegative x = false)
    (hs : split (magnitude x) = (n * 2 ^ k, -(k : Int))) : number x = n := by
  have hpow : (2 : ℚ) ^ k ≠ 0 := by positivity
  rw [number, h, value, hs]
  push_cast
  rw [zpow_neg, zpow_natCast]
  exact mul_inv_cancel_right₀ hpow _

theorem nonneg_of_number {x : Float} (h : isFinite x = true) (hx : 0 ≤ number x) : 0.0 ≤ x := by
  refine nonneg_iff.mpr ⟨(of_decide_eq_true h).le, fun hn => ?_⟩
  rw [number, if_pos hn] at hx
  by_contra hne
  have hpos := value_pos hne
  linarith

/-- A double that stands for a natural number. -/
structure Whole (x : Float) (n : Nat) : Prop where
  nonneg : 0.0 ≤ x
  finite : magnitude x < infinity
  value_eq : value (magnitude x) = n

namespace Whole

variable {x y : Float} {m n : Nat}

theorem zero : Whole 0.0 0 :=
  ⟨by decide, by decide, (congrArg value (show magnitude 0.0 = 0 by decide)).trans value_zero⟩

theorem of_number (hf : isFinite x = true) (hx : number x = n) : Whole x n := by
  have hpos : 0.0 ≤ x := nonneg_of_number hf (hx ▸ Nat.cast_nonneg n)
  exact ⟨hpos, of_decide_eq_true hf, (number_eq hpos).symm.trans hx⟩

theorem number_eq (h : Whole x n) : number x = n := (Binary64.number_eq h.nonneg).trans h.value_eq

theorem add (hx : Whole x m) (hy : Whole y n) (hu : Unsigned x) (h : m + n ≤ 2 ^ 53) :
    Whole (x + y) (m + n) := by
  have hsum : value (magnitude x) + value (magnitude y) = (m + n : Nat) := by
    rw [hx.value_eq, hy.value_eq, Nat.cast_add]
  obtain ⟨hfinite, hvalue⟩ := hu.value_add hy.nonneg hx.finite hy.finite h hsum
  exact ⟨(hu.add hy.nonneg).1.nonneg, hfinite, hvalue⟩

theorem le_of_le (hx : Whole x m) (hy : Whole y n) (h : x ≤ y) : m ≤ n := by
  have hmagnitude := (le_iff_magnitude hx.nonneg hy.nonneg).mp h
  have hvalue := value_strictMono.monotone hmagnitude
  rw [hx.value_eq, hy.value_eq] at hvalue
  exact Nat.cast_le.mp hvalue

end Whole

end Binary64

end SuitePlan
