import SuitePlan.Proofs.Json.Number

/-! Cutting written lexemes out of a text again. Strings come back whatever characters they hold, and
numbers as the digits of their texts. -/

namespace SuitePlan

theorem hexValue?_hexDigit (n : Nat) : hexValue? (Lexeme.hexDigit n) = some (n % 16) := by
  have hall : ∀ d : Fin 16, hexValue? (Nat.digitChar d) = some d.val := by decide
  exact hall ⟨n % 16, Nat.mod_lt n (by omega)⟩

namespace Lexeme

theorem push_some (cs : List Char) (c : Char) :
    (⟨some cs, none⟩ : Scanned).push c = ⟨some (c :: cs), none⟩ := rfl

theorem pushUnit_char (cs : List Char) {c : Char} (h : c < ' ') :
    (⟨some cs, none⟩ : Scanned).pushUnit c.toNat = ⟨some (c :: cs), none⟩ := by
  have hlt : c.toNat < 32 := h
  have hhigh : isHighSurrogate c.toNat = false := by
    simp only [isHighSurrogate, Bool.and_eq_false_imp, decide_eq_true_eq, decide_eq_false_iff_not]
    omega
  have hlow : isLowSurrogate c.toNat = false := by
    simp only [isLowSurrogate, Bool.and_eq_false_imp, decide_eq_true_eq, decide_eq_false_iff_not]
    omega
  simp [Scanned.pushUnit, hhigh, hlow, push_some, Char.ofNat_toNat]

/-- A control character is written by its number. -/
theorem scanString_unit (cs : List Char) {c : Char} (h : c < ' ') (rest : List Char) :
    scanString .between ⟨some cs, none⟩
        ('\\' :: 'u' :: '0' :: '0' :: hexDigit (c.toNat / 16) :: hexDigit c.toNat :: rest) =
      scanString .between ⟨some (c :: cs), none⟩ rest := by
  have hlt : c.toNat < 32 := h
  have hzero : hexValue? '0' = some 0 := rfl
  have hvalue : 16 * (c.toNat / 16 % 16) + c.toNat % 16 = c.toNat := by omega
  simp [scanString, hzero, hexValue?_hexDigit, hvalue, pushUnit_char cs h]

theorem scanString_escape (cs : List Char) (c : Char) (rest : List Char) :
    scanString .between ⟨some cs, none⟩ (escape c ++ rest) =
      scanString .between ⟨some (c :: cs), none⟩ rest := by
  unfold escape
  by_cases h1 : c = '"'
  · simp [h1, scanString, escapedChar?, push_some]
  by_cases h2 : c = '\\'
  · simp [h2, scanString, escapedChar?, push_some]
  by_cases h3 : c = '\x08'
  · simp [h3, scanString, escapedChar?, push_some]
  by_cases h4 : c = '\t'
  · simp [h4, scanString, escapedChar?, push_some]
  by_cases h5 : c = '\n'
  · simp [h5, scanString, escapedChar?, push_some]
  by_cases h6 : c = '\x0c'
  · simp [h6, scanString, escapedChar?, push_some]
  by_cases h7 : c = '\r'
  · simp [h7, scanString, escapedChar?, push_some]
  rw [if_neg h1, if_neg h2, if_neg h3, if_neg h4, if_neg h5, if_neg h6, if_neg h7]
  by_cases h8 : c < ' '
  · rw [if_pos h8]
    exact scanString_unit cs h8 rest
  · rw [if_neg h8, List.singleton_append, scanString]
    simp [h1, h2, h8, push_some]

theorem scanString_written (cs : List Char) (s rest : List Char) :
    scanString .between ⟨some cs, none⟩ (s.flatMap escape ++ '"' :: rest) =
      some (some (String.ofList (cs.reverse ++ s)), rest) := by
  induction s generalizing cs with
  | nil => simp [scanString, Scanned.finish]
  | cons c s ih =>
    rw [List.flatMap_cons, List.append_assoc, scanString_escape, ih, List.reverse_cons,
      List.append_assoc, List.singleton_append]

/-- What a lexeme is read as. -/
def reread : Lexeme → Lexeme
  | number n => number n.reread
  | l => l

def Plain : Lexeme → Prop
  | number n => n.Plain
  | _ => True

/-- What may stand behind a lexeme. -/
def Ends : Lexeme → List Char → Prop
  | number _, rest => EndsNumber rest
  | _, _ => True

theorem scan_text (s : String) (rest : List Char) :
    scan ((string (some s)).render ++ rest) = some (string (some s), rest) := by
  have hs := scanString_written [] s.toList rest
  rw [List.reverse_nil, List.nil_append, String.ofList_toList] at hs
  have htext : (string (some s)).render ++ rest =
      '"' :: (s.toList.flatMap escape ++ ['"'] ++ rest) := rfl
  have hscan : ∀ r, scan ('"' :: r) = (scanString .between {} r).map fun p => (string p.1, p.2) :=
    fun _ => rfl
  rw [htext, hscan, List.append_assoc, List.singleton_append, hs]
  rfl

theorem scan_noText (rest : List Char) :
    scan ((string none).render ++ rest) = some (string none, rest) := by
  have htext : (string none).render = "\"\\ud800\"".toList := rfl
  have hchars : "\"\\ud800\"".toList = ['"', '\\', 'u', 'd', '8', '0', '0', '"'] := by decide
  have hd : hexValue? 'd' = some 13 := rfl
  have h8 : hexValue? '8' = some 8 := rfl
  have h0 : hexValue? '0' = some 0 := rfl
  rw [htext, hchars]
  simp [scan, scanString, hd, h8, h0, Scanned.pushUnit, isHighSurrogate, Scanned.finish]

theorem scan_render {l : Lexeme} (hl : l.Plain) {rest : List Char} (hr : l.Ends rest) :
    scan (l.render ++ rest) = some (l.reread, rest) := by
  cases l with
  | number n => exact scan_render_number hl hr
  | string s =>
    cases s with
    | none => exact scan_noText rest
    | some s => exact scan_text s rest
  | boolean b => cases b <;> rfl
  | null => rfl
  | openArray => rfl
  | closeArray => rfl
  | openObject => rfl
  | closeObject => rfl
  | comma => rfl
  | colon => rfl

theorem scan_gap {c : Char} (h : isGap c) (r : List Char) : scan (c :: r) = none := by
  have hc : c = ' ' ∨ c = '\n' ∨ c = '\t' ∨ c = '\r' := by
    simpa only [isGap, Bool.or_eq_true, decide_eq_true_eq, or_assoc] using h
  rcases hc with rfl | rfl | rfl | rfl <;> rfl

theorem render_eq_cons {l : Lexeme} (hl : l.Plain) : ∃ c r, l.render = c :: r ∧ isGap c = false := by
  have hends : l.Ends [] := by cases l <;> simp [Ends, EndsNumber]
  have hs := scan_render hl hends
  rw [List.append_nil] at hs
  cases hr : l.render with
  | nil =>
    rw [hr] at hs
    cases hs
  | cons c r =>
    refine ⟨c, r, rfl, Bool.eq_false_iff.mpr fun hg => ?_⟩
    rw [hr, scan_gap hg] at hs
    cases hs

/-- The text `s` begins with the lexemes `ls`, and `rest` follows. -/
def Cuts (s : List Char) (ls : List Lexeme) (rest : List Char) : Prop :=
  scanAll s = (scanAll rest).map (ls ++ ·)

theorem Cuts.refl (s : List Char) : Cuts s [] s := by
  simp [Cuts]

theorem Cuts.trans {s t u : List Char} {ls ms : List Lexeme} (h : Cuts s ls t) (h' : Cuts t ms u) :
    Cuts s (ls ++ ms) u := by
  rw [Cuts, h, h', Option.map_map]
  congr 1
  funext ns
  simp

theorem Cuts.lexeme {gap : List Char} (hg : ∀ c ∈ gap, isGap c) {l : Lexeme} (hl : l.Plain)
    {rest : List Char} (hr : l.Ends rest) : Cuts (gap ++ (l.render ++ rest)) [l.reread] rest := by
  obtain ⟨c, r, hc, hgap⟩ := render_eq_cons hl
  have hs := scan_render hl hr
  have hd : (gap ++ (l.render ++ rest)).dropWhile isGap = c :: (r ++ rest) := by
    rw [List.dropWhile_append_of_pos hg, hc, List.cons_append, List.dropWhile_cons_of_neg (by simp [hgap])]
  rw [hc, List.cons_append] at hs
  have hlen : rest.length < (gap ++ (l.render ++ rest)).length := by
    rw [hc, List.length_append, List.length_append, List.length_cons]
    omega
  rw [Cuts, scanAll]
  split
  · simp_all
  · rename_i d t he
    obtain ⟨rfl, rfl⟩ := List.cons.inj (he.symm.trans hd)
    rw [hs]
    simp only [if_pos hlen]
    rfl

end Lexeme

end SuitePlan
