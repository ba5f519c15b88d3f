import SuitePlan.Proofs.Decimal.Stepwise
import SuitePlan.Proofs.Json.Number

/-! Doubles that are written and read again. What is read is never more than what was written, so it
stays finite; it is the same double where all digits that are written fit into 53 bits and the power
of ten is small. -/

namespace SuitePlan

theorem decimalValue_append_zeros (ds : List Char) (k : Nat) :
    decimalValue (ds ++ Numeral.zeros k) = 10 ^ k * decimalValue ds := by
  have hzero : decimalValue (Numeral.zeros k) = 0 := by
    rw [decimalValue_eq, Numeral.zeros, Nat.ofDigitChars_replicate_zero, Nat.mul_zero]
  rw [decimalValue_append, hzero, Nat.add_zero, Numeral.zeros, List.length_replicate]

theorem digitValue_lt {c : Char} (h : c.isDigit) : digitValue c < 10 := by
  have hhigh : c.toNat ≤ 57 := by
    simp only [Char.isDigit, Bool.and_eq_true, decide_eq_true_eq] at h
    exact h.2
  have hzero : '0'.toNat = 48 := rfl
  rw [digitValue]
  omega

theorem decimalValue_lt {ds : List Char} (h : ∀ c ∈ ds, c.isDigit) :
    decimalValue ds < 10 ^ ds.length := by
  induction ds using List.reverseRecOn with
  | nil => exact Nat.one_pos
  | append_singleton ds c ih =>
    have hds := ih fun d hd => h d (List.mem_append_left _ hd)
    have hc := digitValue_lt (h c (by simp))
    rw [decimalValue_append, decimalValue_singleton, List.length_append, List.length_singleton, pow_one, pow_succ]
    omega

namespace Numeral

/-- The number without its sign. -/
def amount (n : Numeral) : ℚ := n.digits * 10 ^ n.exponent

def Spelling.amount (s : Spelling) : ℚ :=
  decimalValue (s.whole ++ s.fraction) * 10 ^ (s.exponent.getD 0 - s.fraction.length)

/-- A spelling stands for the numeral that it spells. -/
theorem amount_spelling {n : Numeral} (h : n.integral = false) : n.spelling.amount = n.amount := by
  have hform := form_spelling n
  have hlen : 0 < (Nat.toDigits 10 n.digits).length := List.length_pos_of_ne_nil Nat.toDigits_ne_nil
  have hval := decimalValue_toDigits n.digits
  generalize Nat.toDigits 10 n.digits = ds at hform hlen hval
  generalize n.spelling = s at hform
  rw [Spelling.amount, amount, ← hval]
  cases hform with
  | integral hi =>
    rw [h] at hi
    cases hi
  | @zerosBefore k hx hk =>
    have hzeros : (ds ++ zeros k) ++ ['0'] = ds ++ zeros (k + 1) := by
      rw [List.append_assoc, zeros, zeros, List.replicate_succ']
    rw [hzeros, decimalValue_append_zeros, hx]
    simp only [Option.getD_none, List.length_singleton, zpow_natCast]
    push_cast
    rw [zpow_neg, zpow_one, pow_succ]
    ring
  | @point k h0 hk hl hx =>
    have hplaces : 0 - ((ds.drop k).length : Int) = n.exponent := by
      rw [List.length_drop]
      omega
    rw [List.take_append_drop, Option.getD_none, hplaces]
  | @zerosBehind k hx =>
    have hplaces : 0 - ((zeros k ++ ds).length : Int) = n.exponent := by
      rw [List.length_append, zeros, List.length_replicate]
      omega
    have hzeros : ['0'] ++ (zeros k ++ ds) = List.replicate (k + 1) '0' ++ ds := rfl
    rw [hzeros, decimalValue_replicate_append, Option.getD_none, hplaces]
  | @scientific e he =>
    have hplaces : e - ((ds.drop 1).length : Int) = n.exponent := by
      rw [List.length_drop]
      omega
    rw [List.take_append_drop, Option.getD_some, hplaces]

theorem length_whole_spelling {n : Numeral} (h : n.integral = false) :
    n.spelling.whole.length ≤ 16 := by
  have hform := form_spelling n
  generalize n.spelling = s at hform
  cases hform with
  | integral hi =>
    rw [h] at hi
    cases hi
  | @zerosBefore k hx hk =>
    rw [List.length_append, zeros, List.length_replicate]
    exact hk
  | @point k h0 hk hl hx =>
    rw [List.length_take]
    omega
  | zerosBehind => exact Nat.le_of_ble_eq_true rfl
  | scientific =>
    rw [List.length_take]
    omega

/-- A significand takes in the digits of a prefix. -/
theorem fill_taken (s : Nat) (ds : List Char) :
    ∃ taken, ds = taken ++ (fill s ds).2 ∧
      (fill s ds).1 = 10 ^ taken.length * s + decimalValue taken := by
  induction ds generalizing s with
  | nil => exact ⟨[], rfl, by simp [fill, decimalValue]⟩
  | cons c ds ih =>
    by_cases hc : 10 * s + digitValue c < natLimit
    · obtain ⟨taken, hds, hv⟩ := ih (10 * s + digitValue c)
      rw [fill, if_pos hc]
      refine ⟨c :: taken, congrArg (c :: ·) hds, ?_⟩
      rw [hv, decimalValue_cons, List.length_cons, pow_succ]
      ring
    · rw [fill, if_neg hc]
      exact ⟨[], rfl, by simp [decimalValue]⟩

/-- No digit is left over behind a small significand. -/
theorem fill_complete {s : Nat} {ds : List Char} (hd : ∀ c ∈ ds, c.isDigit)
    (h : (fill s ds).1 < 2 ^ 53) : (fill s ds).2 = [] := by
  induction ds generalizing s with
  | nil => rfl
  | cons c ds ih =>
    by_cases hc : 10 * s + digitValue c < natLimit
    · rw [fill, if_pos hc] at h ⊢
      exact ih (fun d hm => hd d (List.mem_cons_of_mem _ hm)) h
    · have hv := digitValue_lt (hd c List.mem_cons_self)
      rw [fill, if_neg hc] at h
      rw [natLimit_eq] at hc
      omega

/-- The digits that are left out make a numeral smaller, and only a large one. -/
theorem amount_ofDigits {s : Spelling} (hs : s.Valid) (hw : s.whole.length ≤ 16) (negative : Bool) :
    let n := ofDigits negative s.whole s.fraction s.exponent
    n.amount ≤ s.amount ∧ (n.digits < 2 ^ 53 → n.amount = s.amount) := by
  have hwhole : fill 0 s.whole = (decimalValue s.whole, []) := by
    have hlt := decimalValue_lt hs.whole_digits
    have hpow : 10 ^ s.whole.length ≤ 10 ^ 16 := Nat.pow_le_pow_right (by norm_num) hw
    have hfits : 10 ^ s.whole.length * 0 + decimalValue s.whole < natLimit := by
      rw [natLimit_eq]
      omega
    have hh := fill_eq hfits
    rwa [Nat.mul_zero, Nat.zero_add] at hh
  obtain ⟨taken, hfraction, hdigits⟩ := fill_taken (decimalValue s.whole) s.fraction
  have hcomplete := fill_complete (s := decimalValue s.whole) hs.fraction_digits
  generalize hf : fill (decimalValue s.whole) s.fraction = filled at hfraction hdigits hcomplete
  obtain ⟨digits, ignored⟩ := filled
  dsimp only at hfraction hdigits hcomplete
  have hn : ofDigits negative s.whole s.fraction s.exponent =
      ⟨negative, digits, s.exponent.getD 0 - taken.length,
        s.fraction.isEmpty && s.exponent.isNone⟩ := by
    have hplaces : s.fraction.length - ignored.length = taken.length := by
      rw [hfraction, List.length_append, Nat.add_sub_cancel]
    simp [ofDigits, hwhole, hf, hplaces]
  have hsum : s.amount = (digits + decimalValue ignored / 10 ^ ignored.length) *
      10 ^ (s.exponent.getD 0 - (taken.length : Int)) := by
    have hten : (10 : ℚ) ^ (s.exponent.getD 0 - (taken.length : Int)) =
        10 ^ (s.exponent.getD 0 - (s.fraction.length : Int)) * 10 ^ ignored.length := by
      rw [← zpow_natCast, ← zpow_add₀ (by norm_num), hfraction, List.length_append]
      congr 1
      omega
    rw [Spelling.amount, hten, hfraction, ← List.append_assoc, decimalValue_append,
      decimalValue_append, ← hdigits]
    push_cast
    field_simp
  intro n
  have hamount : n.amount = digits * 10 ^ (s.exponent.getD 0 - (taken.length : Int)) := by
    show (ofDigits negative s.whole s.fraction s.exponent).amount = _
    rw [hn, amount]
  rw [hamount, hsum]
  constructor
  · have hrest : (0 : ℚ) ≤ decimalValue ignored / 10 ^ ignored.length := by positivity
    exact mul_le_mul_of_nonneg_right (by linarith) (ten_zpow_pos _).le
  · intro hsmall
    have hd : n.digits = digits := congrArg Numeral.digits hn
    have hnil : ignored = [] := hcomplete (hd ▸ hsmall)
    rw [hnil]
    simp [decimalValue]

theorem amount_reread {n : Numeral} (hp : n.Plain) (h : n.integral = false) :
    n.reread.amount ≤ n.amount ∧ (n.reread.digits < 2 ^ 53 → n.reread.amount = n.amount) := by
  have hh := amount_ofDigits (valid_spelling hp) (length_whole_spelling h) n.negative
  rwa [amount_spelling h] at hh

theorem digits_reread_lt (n : Numeral) : n.reread.digits < natLimit :=
  fill_lt (fill_lt (by decide) _) _

end Numeral

namespace Binary64

open Numeral (ofFloat)

theorem toNat_unpackExponent (w : BitVec Float.Model.Format.binary64.numBits) :
    (Float.Model.UnpackedFloat.unpackExponent w).toNat = w.toNat / 2 ^ 52 % 2 ^ 11 := by
  rw [← Nat.shiftRight_eq_div_pow]
  rfl

theorem toBits_ofBits (negative : Bool) {bits : Nat} (h : bits < infinity) :
    (ofBits negative bits).toBits =
      UInt64.ofNat (if negative then signBit + bits else bits) := by
  rw [infinity_eq] at h
  have hword : (UInt64.ofNat (if negative then signBit + bits else bits)).toNat =
      if negative then signBit + bits else bits := by
    apply UInt64.toNat_ofNat_of_lt'
    rw [signBit_eq, UInt64.size]
    split <;> omega
  have hvalid : Float.Model.Format.binary64.Valid
      (UInt64.ofNat (if negative then signBit + bits else bits)).toBitVec := by
    refine ⟨fun he => ?_⟩
    have hexp := congrArg BitVec.toNat he
    have hones : (-1#11 : BitVec 11).toNat = 2047 := rfl
    rw [toNat_unpackExponent] at hexp
    have hbits := hexp.trans hones
    rw [UInt64.toNat_toBitVec, hword, signBit_eq] at hbits
    split at hbits <;> omega
  exact congrArg Float.toBits (Float.ofBits_toBits (Float.ofModel ⟨_, hvalid⟩))

theorem bitsOf_ofBits (negative : Bool) {bits : Nat} (h : bits < infinity) :
    bitsOf (ofBits negative bits) = if negative then signBit + bits else bits := by
  rw [bitsOf, toBits_ofBits negative h]
  rw [infinity_eq] at h
  apply UInt64.toNat_ofNat_of_lt'
  rw [signBit_eq, UInt64.size]
  split <;> omega

theorem magnitude_ofBits (negative : Bool) {bits : Nat} (h : bits < infinity) :
    magnitude (ofBits negative bits) = bits := by
  rw [magnitude, bitsOf_ofBits negative h]
  rw [infinity_eq] at h
  rw [signBit_eq]
  split <;> omega

theorem ofBits_magnitude (x : Float) : ofBits (isNegative x) (magnitude x) = x := by
  have hbits : (if isNegative x then signBit + magnitude x else magnitude x) = bitsOf x := by
    rw [bitsOf_eq, signBit_eq]
    split <;> omega
  rw [ofBits, hbits, bitsOf, UInt64.ofNat_toNat, Float.ofBits_toBits]

/-- The numeral of a double is nearest to that double. -/
theorem rounds_ofFloat {x : Float} (h : magnitude x < infinity) :
    Rounds (ofFloat x).amount (magnitude x) := by
  by_cases h0 : magnitude x = 0
  · have hzero : (ofFloat x).amount = 0 := by
      simp [ofFloat, h0, Numeral.amount]
    rw [hzero, h0]
    exact ⟨0, 1, one_pos, by norm_num, rfl⟩
  · have hr := Numeral.rounds_shortest h0 h
    simpa [ofFloat, h0, Numeral.amount] using hr

theorem plain_ofFloat {x : Float} (h : magnitude x < infinity) : (ofFloat x).Plain := by
  intro hd
  by_cases h0 : magnitude x = 0
  · simp [ofFloat, h0]
  · have hzero : (ofFloat x).amount = 0 := by
      rw [Numeral.amount, hd, Nat.cast_zero, zero_mul]
    have hr := rounds_ofFloat h
    rw [hzero] at hr
    exact (h0 (hr.unique ⟨0, 1, one_pos, by norm_num, rfl⟩)).elim

theorem integral_ofFloat (x : Float) : (ofFloat x).integral = false := rfl

/-- The double that is read from the text of a double. -/
def reread (x : Float) : Float :=
  ofBits (isNegative x) (Numeral.stepwise (ofFloat x).reread.digits (ofFloat x).reread.exponent)

theorem stepwise_reread_largest (negative : Bool) :
    let n : Numeral := ⟨negative, (Numeral.shortest (infinity - 1)).1,
      (Numeral.shortest (infinity - 1)).2, false⟩
    Numeral.stepwise n.reread.digits n.reread.exponent < infinity := by
  cases negative <;> decide +kernel

theorem stepwise_reread_lt {x : Float} (h : magnitude x < infinity) :
    Numeral.stepwise (ofFloat x).reread.digits (ofFloat x).reread.exponent < infinity := by
  by_cases hmax : magnitude x = infinity - 1
  · have hn : ofFloat x = ⟨isNegative x, (Numeral.shortest (infinity - 1)).1,
        (Numeral.shortest (infinity - 1)).2, false⟩ := by
      have h0 : infinity - 1 ≠ 0 := by decide
      rw [ofFloat, hmax]
      simp only [if_neg h0]
    rw [hn]
    exact stepwise_reread_largest (isNegative x)
  · have hsmall : magnitude x ≤ infinity - 2 := by omega
    have hle := ((rounds_ofFloat h).le_iff (by decide : infinity - 2 < infinity)).mp hsmall
    have hbound : (ofFloat x).amount ≤ Numeral.overflowBound := by
      rw [← Numeral.midpoint_overflowBound]
      exact hle.elim le_of_lt fun heq => heq.1.le
    have hread := (Numeral.amount_reread (plain_ofFloat h) (integral_ofFloat x)).1
    exact Numeral.stepwise_lt_infinity (Numeral.digits_reread_lt _) (hread.trans hbound)

theorem toFloat?_reread {x : Float} (h : magnitude x < infinity) :
    (ofFloat x).reread.toFloat? = some (reread x) :=
  if_pos (stepwise_reread_lt h)

theorem isNegative_reread {x : Float} (h : magnitude x < infinity) :
    isNegative (reread x) = isNegative x := by
  have hb := stepwise_reread_lt h
  rw [reread, isNegative, bitsOf_ofBits _ hb]
  rw [infinity_eq] at hb
  rw [signBit_eq]
  cases isNegative x with
  | true => simp
  | false =>
    simp only [Bool.false_eq_true, if_false, decide_eq_false_iff_not]
    omega

/-- A double whose text has at most 53 bits of digits and a small power of ten comes back. -/
theorem reread_eq {x : Float} (h : magnitude x < infinity)
    (hd : (ofFloat x).reread.digits < 2 ^ 53)
    (he : -22 ≤ (ofFloat x).reread.exponent ∧ (ofFloat x).reread.exponent ≤ 22) :
    reread x = x := by
  have hread := (Numeral.amount_reread (plain_ofFloat h) (integral_ofFloat x)).2 hd
  have hr := Numeral.rounds_stepwise hd he
  have hx := rounds_ofFloat h
  rw [← hread] at hx
  have hsame := Rounds.unique hr hx
  rw [reread, hsame, ofBits_magnitude]

end Binary64

end SuitePlan
