import SuitePlan.Proofs.Decimal.Digits

/-! Times come back from their texts to the nanosecond, in the years that are written with four
digits. -/

namespace SuitePlan

theorem isBlank_of_isDigit {c : Char} (h : c.isDigit) : isBlank c = false := by
  have hlow : 48 ≤ c.toNat := by
    simp only [Char.isDigit, Bool.and_eq_true, decide_eq_true_eq] at h
    exact h.1
  have hhigh : c.toNat ≤ 57 := by
    simp only [Char.isDigit, Bool.and_eq_true, decide_eq_true_eq] at h
    exact h.2
  simp only [isBlank, Bool.or_eq_false_iff, Bool.and_eq_false_iff, decide_eq_false_iff_not, beq_eq_false_iff_ne]
  omega

theorem trimStart_of_head {c : Char} (h : isBlank c = false) (s : List Char) :
    trimStart (c :: s) = c :: s :=
  List.dropWhile_cons_of_neg (by simp [h])

namespace Time

theorem padded_eq_cons (width n : Nat) : ∃ c ds, padded width n = c :: ds ∧ c.isDigit := by
  cases h : padded width n with
  | nil =>
    have hne : Nat.toDigits 10 n = [] := (List.append_eq_nil_iff.mp h).2
    exact (Nat.toDigits_ne_nil hne).elim
  | cons c ds => exact ⟨c, ds, rfl, isDigit_of_mem_padded (h ▸ List.mem_cons_self)⟩

theorem trimStart_padded (width n : Nat) (rest : List Char) :
    trimStart (padded width n ++ rest) = padded width n ++ rest := by
  obtain ⟨c, ds, he, hc⟩ := padded_eq_cons width n
  rw [he]
  exact trimStart_of_head (isBlank_of_isDigit hc) _

theorem scanNumber_padded {width n : Nat} (hw : 0 < width) (h : n < 10 ^ width) (rest : List Char) :
    scanNumber width (padded width n ++ rest) = some (n, rest) := by
  have hlen := length_padded hw h
  have htake : (padded width n ++ rest).take width = padded width n := by
    rw [List.take_append_of_le_length (by omega), List.take_of_length_le (by omega)]
  have hdigits : (padded width n).takeWhile Char.isDigit = padded width n := by
    have hall : ∀ c ∈ padded width n, c.isDigit := fun c hc => isDigit_of_mem_padded hc
    have hnone : ∀ c ∈ ([] : List Char).head?, c.isDigit = false := by simp
    have hh := (takeWhile_digits hall hnone).1
    rwa [List.append_nil] at hh
  have hne : (padded width n).isEmpty = false := by
    obtain ⟨c, ds, he, -⟩ := padded_eq_cons width n
    rw [he]
    rfl
  rw [scanNumber, trimStart_padded, htake, hdigits]
  simp [hne, decimalValue_padded]

theorem scanYear_text {y : Int} (h : 0 ≤ y ∧ y ≤ 9999) (rest : List Char) :
    scanYear (yearText y ++ rest) = some (y, rest) := by
  have hlt : y.toNat < 10 ^ 4 := by omega
  have hy : (y.toNat : Int) = y := by omega
  obtain ⟨c, ds, he, hc⟩ := padded_eq_cons 4 y.toNat
  have hminus : c ≠ '-' := by
    rintro rfl
    cases hc
  have hplus : c ≠ '+' := by
    rintro rfl
    cases hc
  have hnum := scanNumber_padded (by omega) hlt rest
  rw [yearText, if_pos h, scanYear, trimStart_padded]
  split
  · rename_i r hr
    rw [he] at hr
    exact (hminus (List.cons.inj hr).1).elim
  · rename_i r hr
    rw [he] at hr
    exact (hplus (List.cons.inj hr).1).elim
  · simp only [hnum, Option.map_some, hy]

theorem scanMark_self {c : Char} (h : isBlank c = false) (rest : List Char) :
    scanMark c (c :: rest) = some rest := by
  rw [scanMark, trimStart_of_head h]
  simp

theorem scanNanos_digits {ds : List Char} (hne : ds ≠ []) (hd : ∀ c ∈ ds, c.isDigit)
    (hlen : ds.length ≤ 9) (rest : List Char) :
    scanNanos ('.' :: ds ++ 'Z' :: rest) =
      some (decimalValue ds * 10 ^ (9 - ds.length), 'Z' :: rest) := by
  have hstop : ∀ c ∈ ('Z' :: rest).head?, c.isDigit = false := by
    rintro c ⟨⟩
    rfl
  obtain ⟨ht, hr⟩ := takeWhile_digits hd hstop
  have hkept : ds.take 9 = ds := List.take_of_length_le hlen
  rw [List.cons_append, scanNanos]
  simp only [ht, hr, hkept, powerOfTen]
  rw [if_neg (by simpa using hne)]
  rfl

/-- No digit of a fraction is lost by leaving out the zeros at its end. -/
theorem scanNanos_fraction {nano : Nat} (h : nano < 1000000000) (rest : List Char) :
    scanNanos (fractionText nano ++ 'Z' :: rest) = some (nano, 'Z' :: rest) := by
  have hscan : ∀ width k, 0 < width → width ≤ 9 → k < 10 ^ width →
      scanNanos ('.' :: padded width k ++ 'Z' :: rest) = some (k * 10 ^ (9 - width), 'Z' :: rest) := by
    intro width k hw hw9 hk
    have hlen := length_padded hw hk
    have hne : padded width k ≠ [] := by
      intro hh
      rw [hh] at hlen
      simp at hlen
      omega
    rw [scanNanos_digits hne (fun c hc => isDigit_of_mem_padded hc) (by omega), hlen,
      decimalValue_padded]
  unfold fractionText
  by_cases h0 : nano = 0
  · rw [if_pos h0, h0]
    rfl
  · rw [if_neg h0]
    by_cases h3 : nano % 1000000 = 0
    · rw [if_pos h3, hscan 3 (nano / 1000000) (by omega) (by omega) (by omega)]
      have hv : nano / 1000000 * 10 ^ (9 - 3) = nano := by omega
      rw [hv]
    · rw [if_neg h3]
      by_cases h6 : nano % 1000 = 0
      · rw [if_pos h6, hscan 6 (nano / 1000) (by omega) (by omega) (by omega)]
        have hv : nano / 1000 * 10 ^ (9 - 6) = nano := by omega
        rw [hv]
      · rw [if_neg h6, hscan 9 nano (by omega) (by omega) (by omega)]
        simp

theorem monthLength_lt (year : Int) (month : Nat) : Date.monthLength year month < 100 := by
  unfold Date.monthLength
  split <;> split <;> omega

theorem scanLocal_render {t : Time} (hv : t.isValid) (hy : 0 ≤ t.date.year ∧ t.date.year ≤ 9999)
    (hn : t.nano < 1000000000) : scanLocal t.render = some (t, ['Z']) := by
  simp only [isValid, Date.isValid, Bool.and_eq_true, decide_eq_true_eq] at hv
  obtain ⟨⟨⟨⟨⟨⟨⟨-, -⟩, hmonth⟩, -⟩, hday⟩, hhour⟩, hminute⟩, hsecond⟩ := hv
  have hlength := monthLength_lt t.date.year t.date.month
  have htext : t.render = yearText t.date.year ++ ('-' :: (padded 2 t.date.month ++ ('-' ::
      (padded 2 t.date.day ++ ('T' :: (padded 2 t.hour ++ (':' :: (padded 2 t.minute ++ (':' ::
        (padded 2 t.second ++ (fractionText t.nano ++ ['Z']))))))))))) := by
    simp only [render, List.append_assoc, List.cons_append]
  have hseparator : ∀ r, scanSeparator ('T' :: r) = some r := fun _ => rfl
  have hdash : ∀ r, scanMark '-' ('-' :: r) = some r := scanMark_self rfl
  have hcolon : ∀ r, scanMark ':' (':' :: r) = some r := scanMark_self rfl
  have htwo : ∀ n rest, n < 100 → scanNumber 2 (padded 2 n ++ rest) = some (n, rest) :=
    fun n rest h => scanNumber_padded (by omega) h rest
  rw [htext, scanLocal, scanYear_text hy]
  simp only [Option.bind_eq_bind, Option.bind_some, hdash, hcolon, hseparator,
    htwo t.date.month _ (by omega), htwo t.date.day _ (by omega), htwo t.hour _ (by omega),
    htwo t.minute _ (by omega), htwo t.second _ (by omega), scanNanos_fraction hn []]

theorem minusMinutes_zero {t : Time} (hh : t.hour < 24) (hm : t.minute < 60) :
    t.minusMinutes 0 = t := by
  have hlow : ¬ (60 * (t.hour : Int) + t.minute - 0 < 0) := by omega
  have hhigh : ¬ (1440 ≤ 60 * (t.hour : Int) + t.minute - 0) := by omega
  have hhour : ((60 * (t.hour : Int) + t.minute - 0) % 1440).toNat / 60 = t.hour := by omega
  have hminute : ((60 * (t.hour : Int) + t.minute - 0) % 1440).toNat % 60 = t.minute := by omega
  simp only [minusMinutes, if_neg hlow, if_neg hhigh, hhour, hminute]

theorem ofText?_text {t : Time} (hv : t.isValid) (hy : 0 ≤ t.date.year ∧ t.date.year ≤ 9999)
    (hn : t.nano < 1000000000) : ofText? t.text = some t := by
  have hv' := hv
  simp only [isValid, Bool.and_eq_true, decide_eq_true_eq] at hv'
  have hrange : Date.inRange t.date.year := by
    simp only [Date.inRange, Bool.and_eq_true, decide_eq_true_eq]
    omega
  have hoffset : scanOffset (trimStart ['Z']) = some (0, []) := by decide
  rw [ofText?, text, String.toList_ofList, ofChars?, scanLocal_render hv hy hn]
  simp only [Option.bind_eq_bind, Option.bind_some, hoffset, minusMinutes_zero hv'.1.1.2 hv'.1.2]
  simp [hv, hrange]

end Time

end SuitePlan
