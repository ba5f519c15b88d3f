import Mathlib.Data.List.Induction
import SuitePlan.Proofs.Text.Trim
import SuitePlan.TagExpr.Token

/-! How the tokens of a text lie in it. Each is a parenthesis or a maximal run between blanks and
parentheses, and consecutive tokens spell a slice of the text. -/

namespace SuitePlan

theorem byteSize_append (s t : List Char) : byteSize (s ++ t) = byteSize s + byteSize t := by
  induction s with
  | nil => simp [byteSize]
  | cons c s ih => simp only [List.cons_append, byteSize, ih, Nat.add_assoc]

theorem byteSize_eq_zero {s : List Char} (h : byteSize s = 0) : s = [] := by
  cases s with
  | nil => rfl
  | cons c s =>
    have hc := c.utf8Size_pos
    simp only [byteSize] at h
    omega

/-- Of two beginnings of one text the one with fewer bytes begins the other. -/
theorem prefix_of_byteSize_le {a b x y : List Char} (h : a ++ x = b ++ y)
    (hsize : byteSize a ≤ byteSize b) : a <+: b := by
  rcases List.append_eq_append_iff.mp h with ⟨m, rfl, -⟩ | ⟨m, rfl, -⟩
  · exact List.prefix_append a m
  · rw [byteSize_append] at hsize
    simp [byteSize_eq_zero (s := m) (by omega)]

theorem eq_of_byteSize_eq {a b x y : List Char} (h : a ++ x = b ++ y)
    (hsize : byteSize a = byteSize b) : a = b := by
  obtain ⟨m, rfl⟩ := prefix_of_byteSize_le h hsize.le
  rw [byteSize_append] at hsize
  rw [byteSize_eq_zero (s := m) (by omega), List.append_nil]

/-- The part of a text from byte `i` up to byte `j`. -/
def slice : List Char → Nat → Nat → List Char
  | [], _, _ => []
  | c :: s, i, j =>
    if 0 < i then slice s (i - c.utf8Size) (j - c.utf8Size)
    else if 0 < j then c :: slice s 0 (j - c.utf8Size)
    else []

theorem slice_zero_append (v post : List Char) : slice (v ++ post) 0 (byteSize v) = v := by
  induction v with
  | nil => cases post <;> simp [slice, byteSize]
  | cons c v ih =>
    have hc := c.utf8Size_pos
    simp only [List.cons_append, slice, byteSize, Nat.lt_irrefl, if_false]
    rw [if_pos (by omega), Nat.add_sub_cancel_left, ih]

theorem slice_append (pre v post : List Char) :
    slice (pre ++ v ++ post) (byteSize pre) (byteSize (pre ++ v)) = v := by
  induction pre with
  | nil => simpa only [List.nil_append, byteSize] using slice_zero_append v post
  | cons c pre ih =>
    have hc := c.utf8Size_pos
    simp only [List.cons_append, slice, byteSize]
    rw [if_pos (by omega), Nat.add_sub_cancel_left, Nat.add_sub_cancel_left, ih]

theorem isBlank_space : ∀ c ∈ [' '], isBlank c := List.forall_mem_singleton.mpr rfl

theorem not_isBlank_of_isParen {c : Char} (h : isParen c) : isBlank c = false := by
  simp only [isParen, Bool.or_eq_true, decide_eq_true_eq] at h
  rcases h with rfl | rfl <;> rfl

theorem not_isParen_of_isBlank {c : Char} (h : isBlank c) : isParen c = false := by
  apply Bool.eq_false_iff.mpr
  intro hp
  rw [not_isBlank_of_isParen hp] at h
  cases h

theorem not_isBlank_of_isWordChar {c : Char} (h : isWordChar c) : isBlank c = false := by
  simp only [isWordChar, Bool.and_eq_true, Bool.not_eq_true'] at h
  exact h.1

/-- The text `s`, whose first byte has offset `i`, is cut into the tokens `ts`. -/
inductive Cut : Nat → List Char → List Token → Prop
  | blank {i : Nat} {g : List Char} (hg : ∀ c ∈ g, isBlank c) : Cut i g []
  | paren {i : Nat} {g r : List Char} {c : Char} {ts : List Token} (hg : ∀ c ∈ g, isBlank c)
      (hc : isParen c) (h : Cut (i + byteSize g + byteSize [c]) r ts) :
      Cut i (g ++ c :: r) (⟨g, i + byteSize g, [c]⟩ :: ts)
  | word {i : Nat} {g w r : List Char} {ts : List Token} (hg : ∀ c ∈ g, isBlank c) (hne : w ≠ [])
      (hw : ∀ c ∈ w, isWordChar c) (hr : ∀ c ∈ r.head?, isWordChar c = false)
      (h : Cut (i + byteSize g + byteSize w) r ts) :
      Cut i (g ++ (w ++ r)) (⟨g, i + byteSize g, w⟩ :: ts)

theorem scan_blank (i : Nat) {g : List Char} (hg : ∀ c ∈ g, isBlank c) : Token.scan i g = [] := by
  have hd : g.dropWhile isBlank = [] := List.dropWhile_eq_nil_iff.mpr hg
  rw [Token.scan]
  split
  · rfl
  · simp_all

theorem scan_paren (i : Nat) {g r : List Char} {c : Char} (hg : ∀ c ∈ g, isBlank c)
    (hc : isParen c) :
    Token.scan i (g ++ c :: r) =
      ⟨g, i + byteSize g, [c]⟩ :: Token.scan (i + byteSize g + byteSize [c]) r := by
  have hb := not_isBlank_of_isParen hc
  have ht : (g ++ c :: r).takeWhile isBlank = g := by
    rw [List.takeWhile_append_of_pos hg, List.takeWhile_cons_of_neg (by simp [hb]), List.append_nil]
  have hd : (g ++ c :: r).dropWhile isBlank = c :: r := by
    rw [List.dropWhile_append_of_pos hg, List.dropWhile_cons_of_neg (by simp [hb])]
  rw [Token.scan]
  split
  · simp_all
  · rename_i d s he
    rw [hd] at he
    obtain ⟨rfl, rfl⟩ := List.cons.inj he
    simp only [hc, if_true, ht, byteSize, Nat.add_zero]

theorem scan_word (i : Nat) {g w r : List Char} (hg : ∀ c ∈ g, isBlank c) (hne : w ≠ [])
    (hw : ∀ c ∈ w, isWordChar c) (hr : ∀ c ∈ r.head?, isWordChar c = false) :
    Token.scan i (g ++ (w ++ r)) =
      ⟨g, i + byteSize g, w⟩ :: Token.scan (i + byteSize g + byteSize w) r := by
  obtain ⟨c, w, rfl⟩ := List.exists_cons_of_ne_nil hne
  have hc := hw c List.mem_cons_self
  have hb : isBlank c = false ∧ isParen c = false := by simpa [isWordChar] using hc
  have ht : (g ++ (c :: w ++ r)).takeWhile isBlank = g := by
    rw [List.takeWhile_append_of_pos hg, List.cons_append,
      List.takeWhile_cons_of_neg (by simp [hb.1]), List.append_nil]
  have hd : (g ++ (c :: w ++ r)).dropWhile isBlank = c :: (w ++ r) := by
    rw [List.dropWhile_append_of_pos hg, List.cons_append,
      List.dropWhile_cons_of_neg (by simp [hb.1])]
  have hw' : ∀ c ∈ w, isWordChar c := fun d hd => hw d (List.mem_cons_of_mem _ hd)
  have htw : (w ++ r).takeWhile isWordChar = w := by
    rw [List.takeWhile_append_of_pos hw']
    cases r with
    | nil => simp
    | cons d r => rw [List.takeWhile_cons_of_neg (by simp [hr d rfl]), List.append_nil]
  have hdw : (w ++ r).dropWhile isWordChar = r := by
    rw [List.dropWhile_append_of_pos hw']
    cases r with
    | nil => simp
    | cons d r => rw [List.dropWhile_cons_of_neg (by simp [hr d rfl])]
  rw [Token.scan]
  split
  · simp_all
  · rename_i d s he
    rw [hd] at he
    obtain ⟨rfl, rfl⟩ := List.cons.inj he
    simp only [hb.2, Bool.false_eq_true, if_false, ht, htw, hdw]

theorem Cut.eq_scan {i : Nat} {s : List Char} {ts : List Token} (h : Cut i s ts) :
    Token.scan i s = ts := by
  induction h with
  | blank hg => exact scan_blank _ hg
  | paren hg hc _ ih => rw [scan_paren _ hg hc, ih]
  | word hg hne hw hr _ ih => rw [scan_word _ hg hne hw hr, ih]

theorem scan_cut (i : Nat) (s : List Char) : Cut i s (Token.scan i s) := by
  induction i, s using Token.scan.induct with
  | case1 i s he =>
    have hg := List.dropWhile_eq_nil_iff.mp he
    rw [scan_blank i hg]
    exact .blank hg
  | case2 i s _ _ c r he hc ih =>
    have hg : ∀ c ∈ s.takeWhile isBlank, isBlank c := fun c h => List.mem_takeWhile_imp h
    have hs : s = s.takeWhile isBlank ++ c :: r := by rw [← he, List.takeWhile_append_dropWhile]
    rw [hs, scan_paren i hg hc]
    exact .paren hg hc ih
  | case3 i s _ _ c r he hc _ ih =>
    have hg : ∀ c ∈ s.takeWhile isBlank, isBlank c := fun c h => List.mem_takeWhile_imp h
    have hb := head?_dropWhile_eq_false isBlank s c (by rw [he]; rfl)
    have hw : ∀ d ∈ c :: r.takeWhile isWordChar, isWordChar d := by
      intro d hd
      rcases List.mem_cons.mp hd with rfl | hd
      · simp [isWordChar, hb, hc]
      · exact List.mem_takeWhile_imp hd
    have hr := head?_dropWhile_eq_false isWordChar r
    have hs : s =
        s.takeWhile isBlank ++ (c :: r.takeWhile isWordChar ++ r.dropWhile isWordChar) := by
      rw [List.cons_append, List.takeWhile_append_dropWhile, ← he, List.takeWhile_append_dropWhile]
    have hn := scan_word i hg (List.cons_ne_nil c _) hw hr
    rw [← hs] at hn
    have hcut := Cut.word hg (List.cons_ne_nil c _) hw hr ih
    rw [← hs] at hcut
    rw [hn]
    exact hcut

/-- The first text does not end in a blank, and no word runs on into the second. -/
def Boundary (s rest : List Char) : Prop :=
  ∀ c ∈ s.getLast?, isBlank c = false ∧
    (isWordChar c → ∀ d ∈ rest.head?, isWordChar d = false)

theorem Boundary.suffix {p s rest : List Char} (h : Boundary (p ++ s) rest) : Boundary s rest := by
  intro c hc
  have hl : s.getLast? = some c := hc
  exact h c (by simp [hl])

/-- A word that is followed by no word character in its text is followed by none at all. -/
theorem Boundary.head {w r rest : List Char} (h : Boundary (w ++ r) rest) (hne : w ≠ [])
    (hw : ∀ c ∈ w, isWordChar c) (hr : ∀ c ∈ r.head?, isWordChar c = false) :
    ∀ c ∈ (r ++ rest).head?, isWordChar c = false := by
  cases r with
  | nil =>
    have hlast : w.getLast hne ∈ (w ++ []).getLast? := by
      rw [List.append_nil, List.getLast?_eq_some_getLast hne, Option.mem_some]
    exact (h _ hlast).2 (hw _ (List.getLast_mem hne))
  | cons c r => exact hr

theorem Cut.append {i : Nat} {s rest : List Char} {ts us : List Token} (h : Cut i s ts)
    (hb : Boundary s rest) (hrest : Cut (i + byteSize s) rest us) :
    Cut i (s ++ rest) (ts ++ us) := by
  induction h with
  | @blank i g hg =>
    -- blanks that do not end in a blank are no characters at all
    cases g using List.reverseRecOn with
    | nil => simpa only [byteSize, Nat.add_zero, List.nil_append] using hrest
    | append_singleton g c =>
      have hc := (hb c (by simp)).1
      rw [hg c (by simp)] at hc
      cases hc
  | @paren i g r c ts hg hc _ ih =>
    rw [byteSize_append, ← List.singleton_append, byteSize_append, ← Nat.add_assoc,
      ← Nat.add_assoc] at hrest
    rw [← List.singleton_append, ← List.append_assoc] at hb
    simpa only [List.append_assoc, List.cons_append] using Cut.paren hg hc (ih hb.suffix hrest)
  | @word i g w r ts hg hne hw hr _ ih =>
    rw [byteSize_append, byteSize_append, ← Nat.add_assoc, ← Nat.add_assoc] at hrest
    have hb' : Boundary (w ++ r) rest := hb.suffix
    simpa only [List.append_assoc, List.cons_append] using
      Cut.word hg hne hw (hb'.head hne hw hr) (ih hb'.suffix hrest)

namespace Token

/-- The text of a token and the blanks before it. -/
def extent (t : Token) : List Char := t.gap ++ t.text

def stop (t : Token) : Nat := t.start + byteSize t.text

/-- The text from the first of some consecutive tokens to the last. -/
def spelling : List Token → List Char
  | [] => []
  | t :: ts => t.text ++ ts.flatMap extent

/-- What the source `s` has from the first of some tokens to the last. -/
def sourceOf (s : List Char) : List Token → String
  | [] => ""
  | t :: ts => String.ofList (slice s t.start ((t :: ts).getLast (List.cons_ne_nil t ts)).stop)

theorem spelling_append_singleton {ts : List Token} (hne : ts ≠ []) (t : Token) :
    spelling (ts ++ [t]) = spelling ts ++ t.extent := by
  obtain ⟨u, us, rfl⟩ := List.exists_cons_of_ne_nil hne
  simp [spelling]

end Token

namespace Cut

variable {i : Nat} {s : List Char} {ts : List Token}

theorem spelled (h : Cut i s ts) :
    ∃ tail, (∀ c ∈ tail, isBlank c) ∧ s = ts.flatMap Token.extent ++ tail := by
  induction h with
  | blank hg => exact ⟨_, hg, rfl⟩
  | paren _ _ _ ih =>
    obtain ⟨tail, ht, he⟩ := ih
    exact ⟨tail, ht, by simp [Token.extent, he]⟩
  | word _ _ _ _ _ ih =>
    obtain ⟨tail, ht, he⟩ := ih
    exact ⟨tail, ht, by simp [Token.extent, he]⟩

theorem start_eq {pre post : List Token} {t : Token} (h : Cut i s (pre ++ t :: post)) :
    t.start = i + byteSize (pre.flatMap Token.extent ++ t.gap) := by
  induction pre generalizing i s with
  | nil => cases h <;> rfl
  | cons u pre ih =>
    cases h with
    | paren _ _ h =>
      simp only [ih h, List.flatMap_cons, Token.extent, byteSize_append, Nat.add_assoc]
    | word _ _ _ _ h =>
      simp only [ih h, List.flatMap_cons, Token.extent, byteSize_append, Nat.add_assoc]

theorem stop_eq {pre post : List Token} {t : Token} (h : Cut i s (pre ++ t :: post)) :
    t.stop = i + byteSize ((pre ++ [t]).flatMap Token.extent) := by
  simp only [Token.stop, h.start_eq, List.flatMap_append, List.flatMap_singleton, Token.extent,
    byteSize_append, Nat.add_assoc]

theorem gap_blank (h : Cut i s ts) {t : Token} (ht : t ∈ ts) : ∀ c ∈ t.gap, isBlank c := by
  induction h with
  | blank => cases ht
  | paren hg _ _ ih =>
    rcases List.mem_cons.mp ht with rfl | ht
    · exact hg
    · exact ih ht
  | word hg _ _ _ _ ih =>
    rcases List.mem_cons.mp ht with rfl | ht
    · exact hg
    · exact ih ht

theorem text_formed (h : Cut i s ts) {t : Token} (ht : t ∈ ts) :
    (∃ c, isParen c ∧ t.text = [c]) ∨ (t.text ≠ [] ∧ ∀ c ∈ t.text, isWordChar c) := by
  induction h with
  | blank => cases ht
  | paren _ hc _ ih =>
    rcases List.mem_cons.mp ht with rfl | ht
    · exact .inl ⟨_, hc, rfl⟩
    · exact ih ht
  | word _ hne hw _ _ ih =>
    rcases List.mem_cons.mp ht with rfl | ht
    · exact .inr ⟨hne, hw⟩
    · exact ih ht

theorem text_not_blank (h : Cut i s ts) {t : Token} (ht : t ∈ ts) :
    t.text ≠ [] ∧ ∀ c ∈ t.text, isBlank c = false := by
  rcases h.text_formed ht with ⟨c, hc, he⟩ | ⟨hne, hw⟩
  · rw [he]
    exact ⟨List.cons_ne_nil _ _, by simpa using not_isBlank_of_isParen hc⟩
  · exact ⟨hne, fun c hc => not_isBlank_of_isWordChar (hw c hc)⟩

theorem last_not_blank (h : Cut i s ts) :
    ∀ c ∈ (ts.flatMap Token.extent).getLast?, isBlank c = false := by
  intro c hc
  cases ts using List.reverseRecOn with
  | nil => cases hc
  | append_singleton ts t =>
    have ht := h.text_not_blank (t := t) (by simp)
    have hl := List.getLast?_eq_some_getLast ht.1
    simp only [List.flatMap_append, List.flatMap_singleton, Token.extent, List.getLast?_append, hl,
      Option.some_or, Option.mem_def, Option.some.injEq] at hc
    exact hc ▸ ht.2 _ (List.getLast_mem ht.1)

theorem drop {pre : List Token} (h : Cut i s (pre ++ ts)) : ∃ j r, Cut j r ts := by
  induction pre generalizing i s with
  | nil => exact ⟨i, s, h⟩
  | cons t pre ih =>
    cases h with
    | paren _ _ h => exact ih h
    | word _ _ _ _ h => exact ih h

theorem take {post : List Token} (h : Cut i s (ts ++ post)) :
    Cut i (ts.flatMap Token.extent) ts := by
  induction ts generalizing i s with
  | nil => exact .blank (by simp)
  | cons t ts ih =>
    cases h with
    | paren hg hc h => simpa [Token.extent] using Cut.paren hg hc (ih h)
    | @word _ g w r _ hg hne hw hr h =>
      have hr' : ∀ c ∈ (ts.flatMap Token.extent).head?, isWordChar c = false := by
        change Cut _ r (ts ++ post) at h
        obtain ⟨tail, -, rfl⟩ := h.spelled
        intro c hc
        exact hr c (by simp [Option.mem_def.mp hc])
      simpa [Token.extent] using Cut.word hg hne hw hr' (ih h)

/-- The blanks before the first token can change. -/
theorem indent {t : Token} (h : Cut i s (t :: ts)) (j : Nat) {g : List Char}
    (hg : ∀ c ∈ g, isBlank c) (hj : j + byteSize g = i + byteSize t.gap) :
    ∃ r, s = t.gap ++ r ∧ Cut j (g ++ r) (⟨g, j + byteSize g, t.text⟩ :: ts) := by
  cases h with
  | paren _ hc h => exact ⟨_, rfl, .paren hg hc (hj ▸ h)⟩
  | word _ hne hw hr h => exact ⟨_, rfl, .word hg hne hw hr (hj ▸ h)⟩

/-- The text of consecutive tokens lies between the start of the first and the end of the last. -/
theorem located {pre ws post : List Token} (h : Cut 0 s (pre ++ ws ++ post)) (hne : ws ≠ []) :
    ∃ a b, s = a ++ (Token.spelling ws ++ b) ∧ byteSize a = (ws.head hne).start ∧
      byteSize (a ++ Token.spelling ws) = (ws.getLast hne).stop := by
  have hfirst : Cut 0 s (pre ++ ws.head hne :: (ws.tail ++ post)) := by
    rw [← List.cons_append, List.cons_head_tail]
    simpa using h
  have hlast : Cut 0 s ((pre ++ ws.dropLast) ++ ws.getLast hne :: post) := by
    rw [List.append_cons, List.append_assoc pre, List.dropLast_concat_getLast]
    exact h
  have hspan : (pre ++ ws).flatMap Token.extent =
      pre.flatMap Token.extent ++ (ws.head hne).gap ++ Token.spelling ws := by
    obtain ⟨w, us, rfl⟩ := List.exists_cons_of_ne_nil hne
    simp [Token.extent, Token.spelling]
  obtain ⟨tail, -, hs⟩ := h.spelled
  have hstart := hfirst.start_eq
  have hstop := hlast.stop_eq
  rw [Nat.zero_add] at hstart
  rw [List.append_assoc, List.dropLast_concat_getLast, Nat.zero_add, hspan] at hstop
  refine ⟨_, post.flatMap Token.extent ++ tail, ?_, hstart.symm, hstop.symm⟩
  rw [hs, List.flatMap_append, hspan]
  simp

/-- Consecutive tokens of a text spell the slice of the text from the first to the last. -/
theorem sourceOf_eq {pre ws post : List Token} (h : Cut 0 s (pre ++ ws ++ post)) (hne : ws ≠ []) :
    Token.sourceOf s ws = String.ofList (Token.spelling ws) := by
  obtain ⟨a, b, hs, hstart, hstop⟩ := h.located hne
  have hslice := slice_append a (Token.spelling ws) b
  rw [hstart, hstop, List.append_assoc, ← hs] at hslice
  obtain ⟨w, us, rfl⟩ := List.exists_cons_of_ne_nil hne
  exact congrArg String.ofList hslice

end Cut

end SuitePlan
