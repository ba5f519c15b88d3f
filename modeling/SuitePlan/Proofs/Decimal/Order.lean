import Mathlib
import SuitePlan.Decimal.Binary64

/-! Doubles by sign and magnitude. The total order tells which sums are above zero.

The whole library is imported for its lemmas about `Float.Model`, which no single module of it brings in. -/

namespace SuitePlan

namespace Binary64

open Float.Model Float.Model.UnpackedFloat

theorem signBit_eq : signBit = 2 ^ 63 := rfl

theorem infinity_eq : infinity = 2047 * 2 ^ 52 := rfl

theorem split_subnormal {n : Nat} (h : n / 2 ^ 52 = 0) : split n = (n % 2 ^ 52, -1074) := if_pos h

theorem split_normal {n : Nat} (h : n / 2 ^ 52 ≠ 0) :
    split n = (n % 2 ^ 52 + 2 ^ 52, ((n / 2 ^ 52 : Nat) : Int) - 1075) :=
  if_neg h

theorem ne_zero_of_split {n m : Nat} {e : Int} (h : split n = (m, e)) (hm : 0 < m) : n ≠ 0 := by
  rintro rfl
  obtain ⟨rfl, -⟩ := Prod.mk.inj h
  exact Nat.lt_irrefl 0 hm

theorem toNat_append {w v : Nat} (x : BitVec w) (y : BitVec v) :
    (x ++ y).toNat = x.toNat * 2 ^ v + y.toNat := by
  rw [BitVec.toNat_append, ← Nat.shiftLeft_add_eq_or_of_lt y.isLt, Nat.shiftLeft_eq]

theorem packComponents_toNat (s : Sign) (e : BitVec 11) (m : BitVec 52) :
    (packComponents .binary64 s e m).toNat =
      s.toBitVec.toNat * 2 ^ 63 + e.toNat * 2 ^ 52 + m.toNat := by
  have hh : packComponents .binary64 s e m = s.toBitVec ++ e ++ m := rfl
  rw [hh, toNat_append, toNat_append]
  omega

section Fields

variable (x : Float)

def sign : Sign := if isNegative x then .negative else .positive

theorem bitsOf_eq : bitsOf x = (if isNegative x then 2 ^ 63 else 0) + magnitude x := by
  have hb : bitsOf x < 2 ^ 64 := x.toBits.toNat_lt
  rw [magnitude, isNegative, signBit_eq]
  by_cases h : 2 ^ 63 ≤ bitsOf x
  · rw [if_pos (decide_eq_true h)]
    omega
  · rw [if_neg (by simpa using h)]
    omega

/-- The bits of a double as its fields are read from them. -/
def word : BitVec Format.binary64.numBits := x.toModel.toBits.toBitVec

theorem bitsOf_fields : bitsOf x = (Sign.ofBitVec (unpackSign (word x))).toBitVec.toNat * 2 ^ 63 +
    (unpackExponent (word x)).toNat * 2 ^ 52 + (unpackMantissa (word x)).toNat := by
  have hb := packComponents_unpackSign_unpackExponent_unpackMantissa (word x)
  rw [← packComponents_toNat, hb]
  rfl

theorem magnitude_fields : magnitude x =
    (unpackExponent (word x)).toNat * 2 ^ 52 + (unpackMantissa (word x)).toNat := by
  have he : (unpackExponent (word x)).toNat < 2 ^ 11 := (unpackExponent (word x)).isLt
  have hm : (unpackMantissa (word x)).toNat < 2 ^ 52 := (unpackMantissa (word x)).isLt
  rw [magnitude, signBit_eq, bitsOf_fields]
  omega

theorem ofBitVec_unpackSign : Sign.ofBitVec (unpackSign (word x)) = sign x := by
  have hb := bitsOf_fields x
  rw [bitsOf_eq, magnitude_fields] at hb
  unfold sign
  cases hs : Sign.ofBitVec (unpackSign (word x)) with
  | negative =>
    rw [hs] at hb
    by_cases hn : isNegative x = true
    · rw [if_pos hn]
    · simp [hn, Sign.toBitVec] at hb
  | positive =>
    rw [hs] at hb
    by_cases hn : isNegative x = true
    · simp [hn, Sign.toBitVec] at hb
    · rw [if_neg hn]

/-- What a double is unpacked into, by its magnitude. -/
inductive Unpacks : UnpackedFloat → Prop
  | zero : magnitude x = 0 → Unpacks (.zero (sign x))
  | finite {m : Nat} {e : Int} (hm : 0 < m) : split (magnitude x) = (m, e) →
      magnitude x < infinity → Unpacks (.finite (sign x) m e hm)
  | infinity : magnitude x = infinity → Unpacks (.infinity (sign x))
  | notANumber : magnitude x = Binary64.notANumber → isNegative x = false → Unpacks .notANumber

theorem unpacks : Unpacks x x.toModel.unpack := by
  have hs := ofBitVec_unpackSign x
  have hb := magnitude_fields x
  have hlt : (unpackMantissa (word x)).toNat < 2 ^ 52 := (unpackMantissa (word x)).isLt
  show Unpacks x (UnpackedFloat.unpack .binary64 (word x))
  -- Infinities, the one that is not a number, zeros, subnormal doubles and normal doubles.
  fun_cases UnpackedFloat.unpack .binary64 (word x) with
  | case1 m e v s h h' =>
    have he : (unpackExponent (word x)).toNat = 2047 := congrArg BitVec.toNat h
    have hf : (unpackMantissa (word x)).toNat = 0 := congrArg BitVec.toNat h'
    show Unpacks x (.infinity (Sign.ofBitVec (unpackSign (word x))))
    rw [hs]
    refine .infinity ?_
    rw [infinity_eq]
    omega
  | case2 m e h h' =>
    have hn : word x = packedNaN .binary64 := x.toModel.valid.eq_packedNaN h h'
    have hb : bitsOf x = notANumber := congrArg BitVec.toNat hn
    refine .notANumber ?_ ?_
    · rw [magnitude, hb]
      rfl
    · rw [isNegative, hb]
      rfl
  | case3 m e v s h h' hz =>
    have he : (unpackExponent (word x)).toNat = 0 := congrArg BitVec.toNat h'
    have hf : (unpackMantissa (word x)).toNat = 0 := congrArg BitVec.toNat hz
    show Unpacks x (.zero (Sign.ofBitVec (unpackSign (word x))))
    rw [hs]
    exact .zero (by omega)
  | case4 m e c v s h h' hz =>
    have he : (unpackExponent (word x)).toNat = 0 := congrArg BitVec.toNat h'
    have hm : m.toNat = magnitude x % 2 ^ 52 := by
      show (unpackMantissa (word x)).toNat = magnitude x % 2 ^ 52
      omega
    have hc : c + 1 = -1074 := by
      show ((unpackExponent (word x)).toNat : Int) - (1023 + 52) + 1 = -1074
      omega
    show Unpacks x (.finite (Sign.ofBitVec (unpackSign (word x))) _ (c + 1) _)
    rw [hs]
    refine .finite _ ?_ (by rw [infinity_eq]; omega)
    rw [split_subnormal (by omega), hc, hm]
  | case5 m e c v s h h' =>
    have he1 : (unpackExponent (word x)).toNat ≠ 2047 := fun hh => h (BitVec.eq_of_toNat_eq hh)
    have he0 : (unpackExponent (word x)).toNat ≠ 0 := fun hh => h' (BitVec.eq_of_toNat_eq hh)
    have he : (unpackExponent (word x)).toNat < 2 ^ 11 := (unpackExponent (word x)).isLt
    have hm : (1#1 ++ m).toNat = magnitude x % 2 ^ 52 + 2 ^ 52 := by
      rw [toNat_append]
      show 1 * 2 ^ 52 + (unpackMantissa (word x)).toNat = magnitude x % 2 ^ 52 + 2 ^ 52
      omega
    have hc : c = ((magnitude x / 2 ^ 52 : Nat) : Int) - 1075 := by
      show ((unpackExponent (word x)).toNat : Int) - (1023 + 52) = _
      omega
    show Unpacks x (.finite (Sign.ofBitVec (unpackSign (word x))) _ c _)
    rw [hs]
    refine .finite _ ?_ (by rw [infinity_eq]; omega)
    rw [split_normal (by omega), hc, hm]

end Fields

theorem le_antisymm {x y : Float} (h : le x y) (h' : le y x) : x = y := by
  have hr := Int.le_antisymm (of_decide_eq_true h) (of_decide_eq_true h')
  refine Float.toBits_inj.mp (UInt64.toNat.inj ?_)
  show bitsOf x = bitsOf y
  rw [bitsOf_eq, bitsOf_eq]
  unfold rank at hr
  split_ifs at hr ⊢ <;> omega

theorem rank_pos_iff {x : Float} : 0 < rank x ↔ sign x = .positive ∧ magnitude x ≠ 0 := by
  unfold rank sign
  by_cases hn : isNegative x = true
  · simp only [hn, if_true, reduceCtorEq, false_and, iff_false]
    omega
  · simp only [hn, Bool.false_eq_true, if_false, true_and]
    omega

theorem rank_zero : rank 0.0 = 0 := by decide

theorem unpack_zero : (0.0 : Float).toModel.unpack = .zero .positive := rfl

theorem add_eq (x y : Float) : x + y =
    .ofModel (.pack (UnpackedFloat.add .binary64 x.toModel.unpack y.toModel.unpack)) := rfl

/-- Adding to `0.0` loses nothing but the sign of a zero. -/
theorem zero_add {x : Float} (h : magnitude x ≠ 0) : 0.0 + x = x := by
  have hp : Float.ofModel (.pack x.toModel.unpack) = x := Float.ofBits_toBits x
  have hu := unpacks x
  rw [add_eq, unpack_zero]
  generalize x.toModel.unpack = u at hp hu
  have hs : UnpackedFloat.add .binary64 (.zero .positive) u = u := by
    cases hu with
    | zero hz => exact (h hz).elim
    | finite => rfl
    | infinity => rfl
    | notANumber => rfl
  rw [hs, hp]

/-- What doubles that are not above zero are unpacked into. -/
inductive Nonpositive : UnpackedFloat → Prop
  | zero (s : Sign) : Nonpositive (.zero s)
  | finite (m : Nat) (e : Int) (h : 0 < m) : Nonpositive (.finite .negative m e h)
  | infinity : Nonpositive (.infinity .negative)

theorem nonpositive_unpack {x : Float} (h : rank x ≤ 0) : Nonpositive x.toModel.unpack := by
  have hs : magnitude x ≠ 0 → sign x = .negative := fun hm => by
    cases hs : sign x with
    | negative => rfl
    | positive =>
      have hp := rank_pos_iff.mpr ⟨hs, hm⟩
      omega
  have hu := unpacks x
  generalize x.toModel.unpack = u at hu
  cases hu with
  | zero => exact .zero (sign x)
  | finite hm hsplit =>
    rw [hs (ne_zero_of_split hsplit hm)]
    exact .finite _ _ hm
  | infinity hm =>
    rw [hs fun hz => absurd (hz.symm.trans hm) (by decide)]
    exact .infinity
  | notANumber hm hn =>
    have hh := hs fun hz => absurd (hz.symm.trans hm) (by decide)
    rw [sign, hn] at hh
    cases hh

theorem Nonpositive.round {m : Nat} {e : Int} :
    Nonpositive (UnpackedFloat.round .binary64 .negative m e) := by
  simp only [UnpackedFloat.round, roundWithAccuracy]
  split
  · exact .zero .negative
  · exact .finite _ _ _

theorem Nonpositive.normalize {m : Int} (h : m ≤ 0) (e : Int) (s : Sign) :
    Nonpositive (normalize .binary64 m e s) := by
  unfold UnpackedFloat.normalize
  split
  · exact .round
  · exact .zero s
  · rename_i hgt
    rw [Int.compare_eq_gt] at hgt
    omega

theorem Nonpositive.add {u v : UnpackedFloat} (h : Nonpositive u) (h' : Nonpositive v) :
    Nonpositive (UnpackedFloat.add .binary64 u v) := by
  cases h with
  | zero s =>
    cases h' with
    | zero s' =>
      simp only [UnpackedFloat.add]
      split
      · exact .zero s
      · exact .zero .positive
    | finite m e hm => exact .finite m e hm
    | infinity => exact .infinity
  | finite m e hm =>
    cases h' with
    | zero s => exact .finite m e hm
    | finite m' e' hm' =>
      exact .normalize (Int.add_nonpos (Int.neg_nonpos_of_nonneg (Int.natCast_nonneg _))
        (Int.neg_nonpos_of_nonneg (Int.natCast_nonneg _))) _ _
    | infinity => exact .infinity
  | infinity => cases h' <;> exact .infinity

theorem signBit_le_pack {m : Nat} {e : Int} (h : 0 < m) :
    signBit ≤ (UnpackedFloat.pack .binary64 (.finite .negative m e h)).toNat := by
  have hs : Sign.negative.toBitVec.toNat = 1 := rfl
  simp only [UnpackedFloat.pack]
  rw [signBit_eq]
  split
  · exact Nat.le_of_ble_eq_true rfl
  · split
    · rw [packComponents_toNat, hs]
      omega
    · rw [packComponents_toNat, hs]
      omega

theorem Nonpositive.rank_pack {u : UnpackedFloat} (h : Nonpositive u) :
    rank (.ofModel (.pack u)) ≤ 0 := by
  cases h with
  | zero s => cases s <;> decide
  | finite m e hm =>
    have hn : isNegative (.ofModel (.pack (.finite .negative m e hm))) = true :=
      decide_eq_true (signBit_le_pack hm)
    rw [rank, if_pos hn]
    omega
  | infinity => decide

theorem rank_add_nonpos {x y : Float} (hx : rank x ≤ 0) (hy : rank y ≤ 0) : rank (x + y) ≤ 0 :=
  ((nonpositive_unpack hx).add (nonpositive_unpack hy)).rank_pack

theorem rank_zero_add_pos {x : Float} (h : 0 < rank x) : 0 < rank (0.0 + x) := by
  rwa [zero_add (rank_pos_iff.mp h).2]

/-- Among the doubles that are not negative, those above zero are the positive ones. -/
theorem rank_pos_iff_lt {x : Float} (h : 0.0 ≤ x) : 0 < rank x ↔ 0.0 < x := by
  have hle : (UnpackedFloat.compare (.zero .positive) x.toModel.unpack).any (·.isLE) = true :=
    of_decide_eq_true h
  have hlt : 0.0 < x ↔
      (UnpackedFloat.compare (.zero .positive) x.toModel.unpack == some .lt) = true :=
    decide_eq_true_iff
  have hu := unpacks x
  rw [rank_pos_iff, hlt]
  generalize x.toModel.unpack = u at hle hu
  cases hu with
  | zero hz => simp [UnpackedFloat.compare, hz]
  | finite hm hsplit =>
    have hne := ne_zero_of_split hsplit hm
    cases hs : sign x with
    | negative => simp [hs, UnpackedFloat.compare] at hle
    | positive => simp [UnpackedFloat.compare, hne]
  | infinity hm =>
    have hne : magnitude x ≠ 0 := fun hz => absurd (hz.symm.trans hm) (by decide)
    cases hs : sign x with
    | negative => simp [hs, UnpackedFloat.compare] at hle
    | positive => simp [UnpackedFloat.compare, hne]
  | notANumber hm hn => cases hle

end Binary64

end SuitePlan
