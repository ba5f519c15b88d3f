import SuitePlan.Json.Printer
import SuitePlan.Json.Lexer
import SuitePlan.Proofs.Decimal.Digits

/-! Numbers as JSON texts have them. A numeral is written in one spelling, and what is read from its
text are the digits of that spelling. -/

namespace SuitePlan

namespace Numeral

/-- The digits before and after the point, and the exponent that is written, if there is one. -/
structure Spelling where
  whole : List Char
  fraction : List Char
  exponent : Option Int

namespace Spelling

def fractionText (s : Spelling) : List Char := if s.fraction = [] then [] else '.' :: s.fraction

def exponentText (s : Spelling) : List Char :=
  match s.exponent with
  | none => []
  | some e => 'e' :: (if e < 0 then '-' else '+') :: Nat.toDigits 10 e.natAbs

def text (s : Spelling) : List Char := s.whole ++ (s.fractionText ++ s.exponentText)

/-- A zero in front stands alone before the point. -/
structure Valid (s : Spelling) : Prop where
  whole_ne_nil : s.whole ≠ []
  whole_digits : ∀ c ∈ s.whole, c.isDigit
  leading : s.whole.head? = some '0' → s.whole.length = 1
  fraction_digits : ∀ c ∈ s.fraction, c.isDigit

end Spelling

def spelling (n : Numeral) : Spelling :=
  let (ds, e) := n.leading
  if n.integral then ⟨Nat.toDigits 10 n.digits, [], none⟩
  else if -5 ≤ e ∧ e < 16 then
    if 0 ≤ n.exponent then ⟨ds ++ zeros n.exponent.toNat, ['0'], none⟩
    else if 0 ≤ e then ⟨ds.take (e.toNat + 1), ds.drop (e.toNat + 1), none⟩
    else ⟨['0'], zeros (-e - 1).toNat ++ ds, none⟩
  else ⟨ds.take 1, ds.drop 1, some e⟩

/-- A numeral whose text does not begin with several zeros. -/
def Plain (n : Numeral) : Prop := n.digits = 0 → n.exponent ≤ 0

/-- The numeral that is read from the text of a numeral. -/
def reread (n : Numeral) : Numeral :=
  ofDigits n.negative n.spelling.whole n.spelling.fraction n.spelling.exponent

theorem leading_fst (n : Numeral) : n.leading.1 = Nat.toDigits 10 n.digits := rfl

theorem render_eq (n : Numeral) :
    n.render = (if n.negative then ['-'] else []) ++ n.spelling.text := by
  have hs : n.leading.2 = ((Nat.toDigits 10 n.digits).length : Int) - 1 + n.exponent := rfl
  unfold render spelling
  simp only [leading_fst]
  by_cases hi : n.integral = true
  · simp [hi, Spelling.text, Spelling.fractionText, Spelling.exponentText]
  · rw [if_neg hi, if_neg hi]
    by_cases he : -5 ≤ n.leading.2 ∧ n.leading.2 < 16
    · rw [if_pos he, if_pos he, plain]
      simp only [leading_fst]
      by_cases hx : 0 ≤ n.exponent
      · simp [hx, Spelling.text, Spelling.fractionText, Spelling.exponentText]
      · rw [if_neg hx, if_neg hx]
        by_cases h0 : 0 ≤ n.leading.2
        · have hd : (Nat.toDigits 10 n.digits).drop (n.leading.2.toNat + 1) ≠ [] := by
            rw [ne_eq, List.drop_eq_nil_iff]
            omega
          simp [h0, Spelling.text, Spelling.fractionText, Spelling.exponentText, hd]
        · simp [h0, Spelling.text, Spelling.fractionText, Spelling.exponentText]
    · rw [if_neg he, if_neg he, scientific]
      simp only [leading_fst]
      by_cases hl : (Nat.toDigits 10 n.digits).length ≤ 1
      · have hd : (Nat.toDigits 10 n.digits).drop 1 = [] := List.drop_eq_nil_iff.mpr hl
        simp only [Spelling.text, Spelling.fractionText, Spelling.exponentText, hl, hd, if_true,
          List.append_assoc]
      · have hd : (Nat.toDigits 10 n.digits).drop 1 ≠ [] := fun hh => hl (List.drop_eq_nil_iff.mp hh)
        simp only [Spelling.text, Spelling.fractionText, Spelling.exponentText, hl, hd, if_false,
          List.append_assoc]

/-- The ways in which a numeral with some digits is spelled: as they are, with zeros in front of the
point, with the point among them, with zeros behind the point, or with an exponent. -/
inductive Form (n : Numeral) (ds : List Char) : Spelling → Prop
  | integral (h : n.integral = true) : Form n ds ⟨ds, [], none⟩
  | zerosBefore {k : Nat} (hx : n.exponent = k) (hk : ds.length + k ≤ 16) :
      Form n ds ⟨ds ++ zeros k, ['0'], none⟩
  | point {k : Nat} (h0 : 0 < k) (hk : k ≤ 16) (hlen : k ≤ ds.length)
      (hx : n.exponent = k - ds.length) : Form n ds ⟨ds.take k, ds.drop k, none⟩
  | zerosBehind {k : Nat} (hx : n.exponent = -(k + ds.length : Nat)) :
      Form n ds ⟨['0'], zeros k ++ ds, none⟩
  | scientific {e : Int} (he : e = ds.length - 1 + n.exponent) :
      Form n ds ⟨ds.take 1, ds.drop 1, some e⟩

theorem form_spelling (n : Numeral) : Form n (Nat.toDigits 10 n.digits) n.spelling := by
  have hs : n.leading.2 = ((Nat.toDigits 10 n.digits).length : Int) - 1 + n.exponent := rfl
  unfold spelling
  simp only [leading_fst]
  generalize Nat.toDigits 10 n.digits = ds at hs
  by_cases hi : n.integral = true
  · rw [if_pos hi]
    exact .integral hi
  · rw [if_neg hi]
    by_cases he : -5 ≤ n.leading.2 ∧ n.leading.2 < 16
    · rw [if_pos he]
      by_cases hx : 0 ≤ n.exponent
      · rw [if_pos hx]
        exact .zerosBefore (by omega) (by omega)
      · rw [if_neg hx]
        by_cases h0 : 0 ≤ n.leading.2
        · rw [if_pos h0]
          exact .point (by omega) (by omega) (by omega) (by omega)
        · rw [if_neg h0]
          exact .zerosBehind (by omega)
    · rw [if_neg he]
      exact .scientific hs

theorem valid_spelling {n : Numeral} (h : n.Plain) : n.spelling.Valid := by
  have hform := form_spelling n
  have hne : Nat.toDigits 10 n.digits ≠ [] := Nat.toDigits_ne_nil
  have hdig : ∀ c ∈ Nat.toDigits 10 n.digits, c.isDigit := fun c hc => isDigit_of_mem_toDigits hc
  have hzero : ∀ k, ∀ c ∈ zeros k, c.isDigit := by
    intro k c hc
    rw [List.eq_of_mem_replicate hc]
    rfl
  have hhead : (Nat.toDigits 10 n.digits).head? = some '0' → n.digits = 0 :=
    eq_zero_of_head_toDigits
  have hone : n.digits = 0 → (Nat.toDigits 10 n.digits).length = 1 := by
    intro hz
    rw [hz]
    rfl
  generalize Nat.toDigits 10 n.digits = ds at hform hne hdig hhead hone
  generalize n.spelling = s at hform
  have htake : ∀ k, ∀ c ∈ ds.take k, c.isDigit := fun k c hc => hdig c (List.mem_of_mem_take hc)
  have hdrop : ∀ k, ∀ c ∈ ds.drop k, c.isDigit := fun k c hc => hdig c (List.mem_of_mem_drop hc)
  have hcut : ∀ k, 0 < k → ds.take k ≠ [] := by
    intro k hk
    rw [ne_eq, List.take_eq_nil_iff]
    exact fun hh => hh.elim (by omega) hne
  cases hform with
  | integral => exact ⟨hne, hdig, fun hh => hone (hhead hh), by simp⟩
  | @zerosBefore k hx hk =>
    refine ⟨List.append_ne_nil_of_left_ne_nil hne _, ?_, ?_, by simp⟩
    · intro c hc
      exact (List.mem_append.mp hc).elim (hdig c) (hzero _ c)
    · intro hh
      obtain ⟨c, tail, hds⟩ := List.exists_cons_of_ne_nil hne
      have hz : n.digits = 0 := hhead (by simpa [hds] using hh)
      have hx' := h hz
      obtain rfl : k = 0 := by omega
      rw [List.length_append, hone hz]
      rfl
  | @point k h0 hk hlen hx =>
    refine ⟨hcut k h0, htake k, ?_, hdrop k⟩
    intro hh
    rw [List.head?_take, if_neg (by omega)] at hh
    have hl := hone (hhead hh)
    rw [List.length_take]
    omega
  | @zerosBehind k hx =>
    refine ⟨List.cons_ne_nil _ _, by simp, fun _ => rfl, ?_⟩
    intro c hc
    exact (List.mem_append.mp hc).elim (hzero _ c) (hdig c)
  | scientific he =>
    refine ⟨hcut 1 Nat.one_pos, htake 1, ?_, hdrop 1⟩
    intro _
    have hpos := List.length_pos_iff.mpr hne
    rw [List.length_take]
    omega

theorem plain_ofNat (n : Nat) : (ofNat n).Plain := fun _ => Int.le_refl 0

theorem reread_ofNat {n : Nat} (h : n < natLimit) : (ofNat n).reread = ofNat n :=
  ofDigits_toDigits h false

end Numeral

namespace Lexeme

/-- What may stand behind a number that is complete. -/
def EndsNumber (rest : List Char) : Prop :=
  ∀ c ∈ rest.head?, c.isDigit = false ∧ c ≠ '.' ∧ c ≠ 'e' ∧ c ≠ 'E'

theorem scanExponentDigits_toDigits (negative : Bool) (n : Nat) {rest : List Char}
    (hr : EndsNumber rest) :
    scanExponentDigits negative (Nat.toDigits 10 n ++ rest) =
      some (some (if negative then -(n : Int) else n), rest) := by
  obtain ⟨ht, hd⟩ := takeWhile_digits (fun c hc => isDigit_of_mem_toDigits (n := n) hc)
    (fun c hc => (hr c hc).1)
  simp [scanExponentDigits, ht, hd, Nat.toDigits_ne_nil, decimalValue_toDigits]

theorem scanExponent_text (s : Numeral.Spelling) {rest : List Char} (hr : EndsNumber rest) :
    scanExponent (s.exponentText ++ rest) = some (s.exponent, rest) := by
  unfold Numeral.Spelling.exponentText
  cases s.exponent with
  | none =>
    cases rest with
    | nil => rfl
    | cons c rest =>
      obtain ⟨-, -, hc, hc'⟩ := hr c rfl
      simp [scanExponent, hc, hc']
  | some e =>
    by_cases he : e < 0
    · have hn := scanExponentDigits_toDigits true e.natAbs hr
      have habs : -(e.natAbs : Int) = e := by omega
      rw [if_pos rfl, habs] at hn
      simpa [he, scanExponent] using hn
    · have hn := scanExponentDigits_toDigits false e.natAbs hr
      have habs : (e.natAbs : Int) = e := by omega
      rw [if_neg (by simp), habs] at hn
      simpa [he, scanExponent] using hn

theorem scanFraction_text {s : Numeral.Spelling} (hs : s.Valid) {rest : List Char}
    (hr : EndsNumber rest) :
    scanFraction (s.fractionText ++ (s.exponentText ++ rest)) =
      some (s.fraction, s.exponentText ++ rest) := by
  have hhead : ∀ c ∈ (s.exponentText ++ rest).head?, c.isDigit = false ∧ c ≠ '.' := by
    unfold Numeral.Spelling.exponentText
    cases s.exponent with
    | none => exact fun c hc => ⟨(hr c hc).1, (hr c hc).2.1⟩
    | some e =>
      intro c hc
      obtain rfl : 'e' = c := by simpa using hc
      exact ⟨rfl, by decide⟩
  generalize s.exponentText ++ rest = u at hhead
  unfold Numeral.Spelling.fractionText
  by_cases hf : s.fraction = []
  · rw [if_pos hf, hf, List.nil_append]
    cases u with
    | nil => rfl
    | cons c u =>
      have hc := (hhead c rfl).2
      unfold scanFraction
      split
      · rename_i he
        exact (hc (List.cons.inj he).1).elim
      · rfl
  · obtain ⟨ht, hd⟩ := takeWhile_digits hs.fraction_digits (fun c hc => (hhead c hc).1)
    simp [hf, scanFraction, ht, hd]

theorem scanNumber_text {s : Numeral.Spelling} (hs : s.Valid) (negative : Bool) {rest : List Char}
    (hr : EndsNumber rest) :
    scanNumber negative (s.text ++ rest) =
      some (Numeral.ofDigits negative s.whole s.fraction s.exponent, rest) := by
  have hhead : ∀ c ∈ (s.fractionText ++ (s.exponentText ++ rest)).head?, c.isDigit = false := by
    unfold Numeral.Spelling.fractionText Numeral.Spelling.exponentText
    by_cases hf : s.fraction = []
    · cases s.exponent with
      | none => simpa [hf] using fun c hc => (hr c hc).1
      | some e => simp [hf]
    · simp [hf]
  obtain ⟨ht, hd⟩ := takeWhile_digits hs.whole_digits hhead
  have hlead : ¬ (s.whole.head? = some '0' ∧ 1 < s.whole.length) := by
    rintro ⟨hz, hl⟩
    have := hs.leading hz
    omega
  have htext : s.text ++ rest = s.whole ++ (s.fractionText ++ (s.exponentText ++ rest)) := by
    simp only [Numeral.Spelling.text, List.append_assoc]
  rw [htext, scanNumber, ht, hd]
  simp [hs.whole_ne_nil, hlead, scanFraction_text hs hr, scanExponent_text s hr]

theorem scan_digit {c : Char} (hc : c.isDigit) (r : List Char) :
    scan (c :: r) = (scanNumber false (c :: r)).map fun (n, r) => (number n, r) := by
  have hne : ∀ d : Char, d.isDigit = false → ∀ t, c :: r = d :: t → False := by
    rintro d hd t ⟨⟩
    simp [hc] at hd
  exact scan.eq_13 _ (by simp) (hne '[' rfl) (hne ']' rfl) (hne '\x7b' rfl) (hne '\x7d' rfl)
    (hne ',' rfl) (hne ':' rfl) (hne '"' rfl) (hne '-' rfl) (hne 'n' rfl) (hne 't' rfl) (hne 'f' rfl)

/-- What is read from the text of a numeral is the numeral that its digits make. -/
theorem scan_render_number {n : Numeral} (hn : n.Plain) {rest : List Char} (hr : EndsNumber rest) :
    scan (n.render ++ rest) = some (number n.reread, rest) := by
  have hs := Numeral.valid_spelling hn
  have hnum := scanNumber_text hs n.negative hr
  rw [Numeral.render_eq, Numeral.reread]
  cases hneg : n.negative with
  | true =>
    rw [hneg] at hnum
    simp [scan, hnum]
  | false =>
    rw [hneg] at hnum
    obtain ⟨c, w, hw⟩ := List.exists_cons_of_ne_nil hs.whole_ne_nil
    have hc : c.isDigit := hs.whole_digits c (by simp [hw])
    have htext : n.spelling.text ++ rest =
        c :: (w ++ (n.spelling.fractionText ++ n.spelling.exponentText) ++ rest) := by
      rw [Numeral.Spelling.text, hw, List.cons_append, List.cons_append]
    have hscan := scan_digit hc (w ++ (n.spelling.fractionText ++ n.spelling.exponentText) ++ rest)
    rw [← htext, hnum] at hscan
    rw [if_neg (by simp), List.nil_append, hscan]
    rfl

end Lexeme

end SuitePlan
