import Mathlib.Algebra.Group.Nat.Defs
import SuitePlan.Decimal.Stepwise
import SuitePlan.Time.Rfc3339

/-! Runs of decimal digits and the numbers they stand for. -/

namespace SuitePlan

theorem decimalValue_eq (ds : List Char) : decimalValue ds = Nat.ofDigitChars 10 ds 0 :=
  Nat.ofDigitChars_eq_foldl.symm

theorem decimalValue_toDigits (n : Nat) : decimalValue (Nat.toDigits 10 n) = n := by
  rw [decimalValue_eq, Nat.ofDigitChars_ten_toDigits]

theorem decimalValue_append (ds es : List Char) :
    decimalValue (ds ++ es) = 10 ^ es.length * decimalValue ds + decimalValue es := by
  rw [decimalValue_eq, decimalValue_eq, decimalValue_eq, Nat.ofDigitChars_append,
    Nat.ofDigitChars_eq_ofDigitChars_zero]

theorem decimalValue_singleton (c : Char) : decimalValue [c] = digitValue c := by
  simp [decimalValue]

theorem decimalValue_cons (c : Char) (ds : List Char) :
    decimalValue (c :: ds) = 10 ^ ds.length * digitValue c + decimalValue ds := by
  rw [← List.singleton_append, decimalValue_append, decimalValue_singleton]

theorem decimalValue_replicate_append (k : Nat) (ds : List Char) :
    decimalValue (List.replicate k '0' ++ ds) = decimalValue ds := by
  have hz : decimalValue (List.replicate k '0') = 0 := by
    rw [decimalValue_eq, Nat.ofDigitChars_replicate_zero, Nat.mul_zero]
  rw [decimalValue_append, hz, Nat.mul_zero, Nat.zero_add]

theorem isDigit_of_mem_toDigits {c : Char} {n : Nat} (h : c ∈ Nat.toDigits 10 n) : c.isDigit :=
  Nat.isDigit_of_mem_toDigits (by omega) (by omega) h

/-- Only zero is written with a zero in front. -/
theorem eq_zero_of_head_toDigits {n : Nat} (h : (Nat.toDigits 10 n).head? = some '0') : n = 0 := by
  induction n using Nat.strongRecOn with
  | ind n ih =>
    by_cases hn : n < 10
    · rw [Nat.toDigits_of_lt_base hn] at h
      exact Nat.digitChar_eq_zero.mp (Option.some.inj h)
    · rw [Nat.toDigits_of_base_le (by omega) (by omega)] at h
      have hh : (Nat.toDigits 10 (n / 10)).head? = some '0' := by
        cases hd : Nat.toDigits 10 (n / 10) with
        | nil => exact (Nat.toDigits_ne_nil hd).elim
        | cons c ds => rwa [hd] at h
      have hz := ih (n / 10) (by omega) hh
      omega

theorem takeWhile_digits {ds : List Char} (h : ∀ c ∈ ds, c.isDigit) {rest : List Char}
    (hr : ∀ c ∈ rest.head?, c.isDigit = false) :
    (ds ++ rest).takeWhile Char.isDigit = ds ∧ (ds ++ rest).dropWhile Char.isDigit = rest := by
  rw [List.takeWhile_append_of_pos h, List.dropWhile_append_of_pos h]
  cases rest with
  | nil => simp
  | cons c rest =>
    have hc := hr c rfl
    simp [hc]

namespace Time

theorem decimalValue_padded (width n : Nat) : decimalValue (padded width n) = n := by
  rw [padded, decimalValue_replicate_append, decimalValue_toDigits]

theorem isDigit_of_mem_padded {c : Char} {width n : Nat} (h : c ∈ padded width n) : c.isDigit := by
  rcases List.mem_append.mp h with h | h
  · rw [List.eq_of_mem_replicate h]
    rfl
  · exact isDigit_of_mem_toDigits h

theorem length_padded {width n : Nat} (hw : 0 < width) (h : n < 10 ^ width) :
    (padded width n).length = width := by
  have hle := (Nat.length_toDigits_le_iff (by omega : 1 < 10) hw).mpr h
  rw [padded, List.length_append, List.length_replicate]
  omega

end Time

namespace Numeral

theorem natLimit_eq : natLimit = 2 ^ 64 := rfl

/-- A significand takes digits in as long as the whole number fits. -/
theorem fill_eq {s : Nat} {ds : List Char}
    (h : 10 ^ ds.length * s + decimalValue ds < natLimit) :
    fill s ds = (10 ^ ds.length * s + decimalValue ds, []) := by
  induction ds generalizing s with
  | nil => simp [fill, decimalValue]
  | cons c ds ih =>
    have hv : 10 ^ (c :: ds).length * s + decimalValue (c :: ds) =
        10 ^ ds.length * (10 * s + digitValue c) + decimalValue ds := by
      rw [decimalValue_cons, List.length_cons, Nat.pow_succ, Nat.mul_add, Nat.mul_assoc, Nat.add_assoc]
    rw [hv] at h ⊢
    have hlt : 10 * s + digitValue c < natLimit := by
      have hle : 10 * s + digitValue c ≤ 10 ^ ds.length * (10 * s + digitValue c) :=
        Nat.le_mul_of_pos_left _ (Nat.pow_pos (by omega))
      omega
    rw [fill, if_pos hlt, ih h]

theorem fill_lt {s : Nat} (hs : s < natLimit) (ds : List Char) : (fill s ds).1 < natLimit := by
  induction ds generalizing s with
  | nil => exact hs
  | cons c ds ih =>
    by_cases h : 10 * s + digitValue c < natLimit
    · rw [fill, if_pos h]
      exact ih h
    · rwa [fill, if_neg h]

theorem ofDigits_toDigits {n : Nat} (h : n < natLimit) (negative : Bool) :
    ofDigits negative (Nat.toDigits 10 n) [] none = ⟨negative, n, 0, true⟩ := by
  have hf : fill 0 (Nat.toDigits 10 n) = (n, []) := by
    have hh : 10 ^ (Nat.toDigits 10 n).length * 0 + decimalValue (Nat.toDigits 10 n) = n := by
      rw [Nat.mul_zero, Nat.zero_add, decimalValue_toDigits]
    rw [fill_eq (by rw [hh]; exact h), hh]
  simp [ofDigits, hf, fill]

end Numeral

end SuitePlan
