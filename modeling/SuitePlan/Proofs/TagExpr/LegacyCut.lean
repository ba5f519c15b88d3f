import SuitePlan.Proofs.TagExpr.Cut
import SuitePlan.Proofs.TagExpr.Derivation
import SuitePlan.TagExpr.Legacy

/-! What the cuts of the legacy grammar find in a text whose operators stand apart. They look at
characters only, but a blank before the characters of an operator and a blank behind them are found
exactly where that operator is a token. -/

namespace SuitePlan

/-- The text `w` of a token is maximal where `r` follows it. -/
structure Stands (w r : List Char) : Prop where
  formed : (∃ c, isParen c ∧ w = [c]) ∨ (w ≠ [] ∧ ∀ c ∈ w, isWordChar c)
  ends : (∀ c ∈ w, isWordChar c) → ∀ c ∈ r.head?, isWordChar c = false

/-- The tokens of kind `k` are the spellings of `word` in any case. -/
structure Spells (word : List Char) (k : TokenKind) : Prop where
  nonempty : word ≠ []
  wordChars : ∀ c ∈ word, isWordChar c
  kind_iff : ∀ w, TokenKind.ofText w = k ↔ w.map Char.toLower = word

theorem not_isWordChar_of_isParen {c : Char} (h : isParen c) : isWordChar c = false := by
  simp [isWordChar, h]

theorem not_isParen_of_isWordChar {c : Char} (h : isWordChar c) : isParen c = false := by
  simp only [isWordChar, Bool.and_eq_true, Bool.not_eq_true'] at h
  exact h.2

theorem takeWhile_isWordChar {w r : List Char} (hw : ∀ c ∈ w, isWordChar c)
    (hr : ∀ c ∈ r.head?, isWordChar c = false) : (w ++ r).takeWhile isWordChar = w := by
  rw [List.takeWhile_append_of_pos hw]
  cases r with
  | nil => simp
  | cons c r => rw [List.takeWhile_cons_of_neg (by simp [hr c rfl]), List.append_nil]

theorem toLower_of_isBlank {c : Char} (h : isBlank c) : c.toLower = c := by
  have hupper : ¬(c.val ≥ 'A'.val ∧ c.val ≤ 'Z'.val) := by
    intro hc
    have hlow : 65 ≤ c.toNat := hc.1
    have hhigh : c.toNat ≤ 90 := hc.2
    simp only [isBlank, Bool.or_eq_true, Bool.and_eq_true, decide_eq_true_eq, beq_iff_eq] at h
    omega
  exact dif_neg hupper

theorem isWordChar_of_toLower {c : Char} (h : isWordChar c.toLower) : isWordChar c := by
  by_cases hb : isBlank c
  · rwa [toLower_of_isBlank hb] at h
  · by_cases hp : isParen c
    · simp only [isParen, Bool.or_eq_true, decide_eq_true_eq] at hp
      rcases hp with rfl | rfl
      · exact h
      · exact h
    · simp [isWordChar, hb, hp]

theorem spells_and : Spells ['a', 'n', 'd'] .and where
  nonempty := List.cons_ne_nil _ _
  wordChars := List.all_eq_true.mp rfl
  kind_iff w := by
    unfold TokenKind.ofText
    split_ifs with ho hc ha hr hn
    · simp [ho]
    · simp [hc]
    · simp [ha]
    · simp [hr]
    · simp [hn]
    · simp [ha]

theorem spells_or : Spells ['o', 'r'] .or where
  nonempty := List.cons_ne_nil _ _
  wordChars := List.all_eq_true.mp rfl
  kind_iff w := by
    unfold TokenKind.ofText
    split_ifs with ho hc ha hr hn
    · simp [ho]
    · simp [hc]
    · simp [ha]
    · simp [hr]
    · simp [hn]
    · simp [hr]

namespace Stands

variable {w r : List Char}

theorem ne_nil (h : Stands w r) : w ≠ [] := by
  rcases h.formed with ⟨c, -, rfl⟩ | ⟨hne, -⟩
  · exact List.cons_ne_nil c []
  · exact hne

theorem not_blank (h : Stands w r) : ∀ c ∈ w, isBlank c = false := by
  rcases h.formed with ⟨c, hc, rfl⟩ | ⟨-, hw⟩
  · simpa using not_isBlank_of_isParen hc
  · exact fun c hc => not_isBlank_of_isWordChar (hw c hc)

theorem head_not_blank (h : Stands w r) : ∀ c ∈ (w ++ r).head?, isBlank c = false := by
  obtain ⟨a, v, hw⟩ := List.exists_cons_of_ne_nil h.ne_nil
  have ha := h.not_blank a (by simp [hw])
  simpa [hw] using ha

/-- A run of word characters that ends where a word ends is the whole text of the token. -/
theorem eq_of_append {v q : List Char} (h : Stands w r) (he : w ++ r = v ++ q) (hne : v ≠ [])
    (hv : ∀ c ∈ v, isWordChar c) (hq : ∀ c ∈ q.head?, isWordChar c = false) : w = v ∧ r = q := by
  have hwv : w = v := by
    rcases h.formed with ⟨c, hc, rfl⟩ | ⟨-, hw⟩
    · obtain ⟨a, v, rfl⟩ := List.exists_cons_of_ne_nil hne
      obtain ⟨rfl, -⟩ := List.cons.inj he
      have ha := hv c List.mem_cons_self
      rw [not_isWordChar_of_isParen hc] at ha
      cases ha
    · rw [← takeWhile_isWordChar hw (h.ends hw), he, takeWhile_isWordChar hv hq]
  subst hwv
  exact ⟨rfl, List.append_cancel_left he⟩

end Stands

namespace Legacy

theorem parse_eq (s : List Char) : parse s =
    if (trim s).isEmpty then none
    else if encloses (trim s) then parse (inside (trim s))
    else match splitAndNot? (trim s) with
      | some (left, right) => both (parse left) (negation (parse right))
      | none =>
        match splitTop? ['o', 'r'] 0 (trim s) with
        | some (left, right) => either (parse left) (parse right)
        | none =>
          match splitTop? ['a', 'n', 'd'] 0 (trim s) with
          | some (left, right) => both (parse left) (parse right)
          | none =>
            match afterNot? (trim s) with
            | some operand => negation (parse operand)
            | none => some (.tag (String.ofList (trim s))) := by
  rw [parse]
  grind

theorem afterBlanks?_append {g r : List Char} (hne : g ≠ []) (hg : ∀ c ∈ g, isBlank c)
    (hr : ∀ c ∈ r.head?, isBlank c = false) : afterBlanks? (g ++ r) = some r := by
  obtain ⟨a, g, rfl⟩ := List.exists_cons_of_ne_nil hne
  have ha := hg a List.mem_cons_self
  have hd := dropWhile_isBlank (fun c hc => hg c (List.mem_cons_of_mem _ hc)) hr
  simp only [List.cons_append, afterBlanks?, ha, if_true, hd]

theorem afterBlanks?_eq_none {r : List Char} (hr : ∀ c ∈ r.head?, isBlank c = false) :
    afterBlanks? r = none := by
  cases r with
  | nil => rfl
  | cons c r => simp [afterBlanks?, hr c rfl]

theorem afterOperator?_eq_none {word s : List Char} (hs : ∀ c ∈ s.head?, isBlank c = false) :
    afterOperator? word s = none := by
  simp [afterOperator?, afterBlanks?_eq_none hs]

theorem not_isWordChar_head {s r : List Char} (h : afterBlanks? s = some r) :
    ∀ c ∈ s.head?, isWordChar c = false := by
  cases s with
  | nil => simp
  | cons a s =>
    simp only [afterBlanks?] at h
    split at h
    · rename_i ha
      simp [isWordChar, ha]
    · cases h

variable {word w r g : List Char} {k : TokenKind}

/-- The characters of an operator with a blank behind them are the whole text of a token. -/
theorem afterAnyCase?_stands (hs : Stands w r) (hk : Spells word k) {s q : List Char}
    (h : afterAnyCase? word (w ++ r) = some s) (hb : afterBlanks? s = some q) :
    TokenKind.ofText w = k ∧ s = r := by
  simp only [afterAnyCase?] at h
  split at h
  · rename_i hword
    cases h
    have hv : ∀ c ∈ (w ++ r).take word.length, isWordChar c := by
      intro c hc
      apply isWordChar_of_toLower
      apply hk.wordChars
      rw [← hword]
      exact List.mem_map_of_mem hc
    have hne : (w ++ r).take word.length ≠ [] := by
      intro hnil
      rw [hnil] at hword
      exact hk.nonempty hword.symm
    obtain ⟨hw, hr⟩ := hs.eq_of_append (List.take_append_drop word.length (w ++ r)).symm hne hv
      (not_isWordChar_head hb)
    exact ⟨(hk.kind_iff w).mpr (hw ▸ hword), hr.symm⟩
  · cases h

theorem afterOperator?_other (hs : Stands w r) (hk : Spells word k) (hg : ∀ c ∈ g, isBlank c)
    (hw : TokenKind.ofText w ≠ k) : afterOperator? word (g ++ (w ++ r)) = none := by
  by_cases hne : g = []
  · rw [hne]
    exact afterOperator?_eq_none hs.head_not_blank
  · rw [afterOperator?, afterBlanks?_append hne hg hs.head_not_blank, Option.bind_some]
    apply Option.bind_eq_none_iff.mpr
    intro s ha
    cases hb : afterBlanks? s with
    | none => rfl
    | some q => exact absurd (afterAnyCase?_stands hs hk ha hb).1 hw

theorem afterOperator?_this (hs : Stands w r) (hk : Spells word k) (hne : g ≠ [])
    (hg : ∀ c ∈ g, isBlank c) (hw : TokenKind.ofText w = k) :
    afterOperator? word (g ++ (w ++ r)) = afterBlanks? r := by
  have hword := (hk.kind_iff w).mp hw
  have hlen : word.length = w.length := by rw [← hword, List.length_map]
  have ha : afterAnyCase? word (w ++ r) = some r := by
    simp [afterAnyCase?, hlen, hword]
  rw [afterOperator?, afterBlanks?_append hne hg hs.head_not_blank, Option.bind_some, ha,
    Option.bind_some]

/-- What `not` is found to stand before, the token `not` stands before. -/
theorem afterNot?_stands (hs : Stands w r) {operand : List Char}
    (h : afterNot? (w ++ r) = some operand) : TokenKind.ofText w = .not := by
  obtain ⟨s, ha, h⟩ := Option.bind_eq_some_iff.mp h
  obtain ⟨q, hb, -⟩ := Option.bind_eq_some_iff.mp h
  simp only [afterWord?] at ha
  split at ha
  · rename_i hword
    cases ha
    have hv : ∀ c ∈ (w ++ r).take ['n', 'o', 't'].length, isWordChar c := by
      rw [hword]
      exact List.all_eq_true.mp rfl
    have hne : (w ++ r).take ['n', 'o', 't'].length ≠ [] := by
      rw [hword]
      exact List.cons_ne_nil _ _
    obtain ⟨hw, -⟩ := hs.eq_of_append (List.take_append_drop _ (w ++ r)).symm hne hv
      (not_isWordChar_head hb)
    rw [hw, hword]
    rfl
  · cases ha

theorem foldl_depthAfter_flat {s : List Char} (hs : ∀ c ∈ s, isParen c = false) (d : Int) :
    s.foldl depthAfter d = d := by
  induction s with
  | nil => rfl
  | cons c s ih =>
    have hc := hs c List.mem_cons_self
    have hd : depthAfter d c = d := by
      simp only [isParen, Bool.or_eq_false_iff, decide_eq_false_iff_not] at hc
      simp [depthAfter, hc]
    rw [List.foldl_cons, hd]
    exact ih fun a ha => hs a (List.mem_cons_of_mem _ ha)

theorem foldl_depthAfter_blank {g : List Char} (hg : ∀ c ∈ g, isBlank c) (d : Int) :
    g.foldl depthAfter d = d :=
  foldl_depthAfter_flat (fun c hc => not_isParen_of_isBlank (hg c hc)) d

theorem nesting_word {w : List Char} (hw : ∀ c ∈ w, isWordChar c) :
    (TokenKind.ofText w).nesting = 0 := by
  have ho : w ≠ ['('] := by
    rintro rfl
    simp [isWordChar, isParen] at hw
  have hc : w ≠ [')'] := by
    rintro rfl
    simp [isWordChar, isParen] at hw
  rw [TokenKind.ofText, if_neg ho, if_neg hc]
  split_ifs <;> rfl

theorem foldl_depthAfter_text (hs : Stands w r) (d : Int) :
    w.foldl depthAfter d = d + (TokenKind.ofText w).nesting := by
  rcases hs.formed with ⟨c, hc, rfl⟩ | ⟨-, hw⟩
  · simp only [isParen, Bool.or_eq_true, decide_eq_true_eq] at hc
    rcases hc with rfl | rfl
    · rfl
    · rfl
  · rw [nesting_word hw, Int.add_zero]
    exact foldl_depthAfter_flat (fun c hc => not_isParen_of_isWordChar (hw c hc)) d

/-- A cut whose first part has `s` before it. -/
def prepend (s : List Char) (cut : List Char × List Char) : List Char × List Char :=
  (s ++ cut.1, cut.2)

theorem prepend_nil : prepend [] = id := rfl

theorem prepend_append (s t : List Char) : prepend (s ++ t) = prepend s ∘ prepend t := by
  funext cut
  simp [prepend]

/-- Where the operator is not found at any place of `s`, the search goes on behind `s`. -/
theorem splitTop?_append {s r : List Char} {d : Int}
    (h : ∀ p c q, s = p ++ c :: q → (p ++ [c]).foldl depthAfter d = 0 →
      afterOperator? word (c :: (q ++ r)) = none) :
    splitTop? word d (s ++ r) =
      (splitTop? word (s.foldl depthAfter d) r).map (prepend s) := by
  induction s generalizing d with
  | nil =>
    rw [List.nil_append, List.foldl_nil, prepend_nil, Option.map_id_fun, id_eq]
  | cons c s ih =>
    have hhere : (if depthAfter d c = 0 then afterOperator? word (c :: (s ++ r)) else none) =
        none := by
      split
      · rename_i hd
        exact h [] c s rfl hd
      · rfl
    have hrest := ih (d := depthAfter d c) fun p a q hs hd => h (c :: p) a q (by simp [hs]) hd
    simp only [List.cons_append, splitTop?, hhere, List.foldl_cons, hrest, Option.map_map]
    rfl

theorem splitTop?_text (hs : Stands w r) (d : Int) :
    splitTop? word d (w ++ r) = (splitTop? word (d + (TokenKind.ofText w).nesting) r).map
      (prepend w) := by
  rw [← foldl_depthAfter_text hs]
  refine splitTop?_append fun p c q hw _ => afterOperator?_eq_none ?_
  have hc := hs.not_blank c (by simp [hw])
  simpa using hc

theorem splitTop?_blanks (hs : Stands w r) (hk : Spells word k) (hg : ∀ c ∈ g, isBlank c) {d : Int}
    (hd : TokenKind.ofText w = k → d ≠ 0) :
    splitTop? word d (g ++ (w ++ r)) = (splitTop? word d (w ++ r)).map (prepend g) := by
  have hflat : ∀ s : List Char, s ⊆ g → s.foldl depthAfter d = d :=
    fun s hsg => foldl_depthAfter_blank (fun c hc => hg c (hsg hc)) d
  have hquiet : ∀ p c q, g = p ++ c :: q → (p ++ [c]).foldl depthAfter d = 0 →
      afterOperator? word (c :: (q ++ (w ++ r))) = none := by
    rintro p c q rfl hz
    rw [hflat (p ++ [c]) (by simp)] at hz
    have hw : TokenKind.ofText w ≠ k := fun hw => hd hw hz
    rw [← List.cons_append]
    exact afterOperator?_other hs hk (fun a ha => hg a (List.mem_append_right _ ha)) hw
  have hfold := splitTop?_append hquiet
  rwa [hflat g (List.Subset.refl g)] at hfold

theorem staysOpen_iff (d : Int) (s : List Char) : staysOpen d s = true ↔
    ∀ p q, s = p ++ q → p ≠ [] → 2 ≤ q.length → p.foldl depthAfter d ≠ 0 := by
  fun_induction staysOpen d s with
  | case1 d c a b r d' ih =>
    rw [Bool.and_eq_true, decide_eq_true_eq, ih]
    constructor
    · rintro ⟨hc, h⟩ p q he hne hq
      obtain ⟨x, p, rfl⟩ := List.exists_cons_of_ne_nil hne
      obtain ⟨rfl, hrest⟩ := List.cons.inj he
      by_cases hp : p = []
      · rw [hp]
        exact hc
      · exact h p q hrest hp hq
    · intro h
      refine ⟨h [c] (a :: b :: r) rfl (List.cons_ne_nil _ _) (by simp), ?_⟩
      intro p q hs _ hq
      exact h (c :: p) q (by rw [List.cons_append, ← hs]) (List.cons_ne_nil _ _) hq
  | case2 d s hs =>
    refine iff_of_true rfl fun p q he hne hq => ?_
    obtain ⟨c, p, rfl⟩ := List.exists_cons_of_ne_nil hne
    match p, q, he, hq with
    | [], a :: b :: q, he, _ => exact (hs c a b q he).elim
    | [a], b :: _ :: q, he, _ => exact (hs c a b _ he).elim
    | a :: b :: p, _, he, _ => exact (hs c a b _ he).elim

/-- No `and not` with an operand up to the end of the text begins at any place of it. -/
def Quiet (s : List Char) : Prop := ∀ q, q <:+ s → afterAndNot? q = none

theorem Quiet.nil : Quiet [] := by
  intro q hq
  rw [List.suffix_nil.mp hq]
  rfl

theorem splitAndNot?_eq_none {s : List Char} (h : Quiet s) : splitAndNot? s = none := by
  induction s with
  | nil => rfl
  | cons c s ih =>
    have hs := ih fun r hr => h r (hr.trans (List.suffix_cons c s))
    simp [splitAndNot?, hs, h s (List.suffix_cons c s)]

theorem Quiet.text (hs : Stands w r) (hr : Quiet r) : Quiet (w ++ r) := by
  rintro q ⟨p, hq⟩
  rcases List.append_eq_append_iff.mp hq with ⟨v, hw, rfl⟩ | ⟨m, -, hm⟩
  · by_cases hv : v = []
    · rw [hv, List.nil_append]
      exact hr r (List.suffix_refl r)
    · have hhead : ∀ c ∈ (v ++ r).head?, isBlank c = false := by
        obtain ⟨a, v, rfl⟩ := List.exists_cons_of_ne_nil hv
        have ha := hs.not_blank a (by simp [hw])
        simpa using ha
      rw [afterAndNot?, afterOperator?_eq_none hhead, Option.bind_none]
  · exact hr q ⟨m, hm.symm⟩

/-- A token does not begin an `and not`, unless it is an `and` and `not` follows. -/
theorem Quiet.token (hs : Stands w r) (hg : ∀ c ∈ g, isBlank c)
    (hand : TokenKind.ofText w = .and → ∀ s, afterBlanks? r = some s → afterNot? s = none)
    (hr : Quiet r) : Quiet (g ++ (w ++ r)) := by
  rintro q ⟨p, hq⟩
  rcases List.append_eq_append_iff.mp hq with ⟨h, hgap, rfl⟩ | ⟨m, -, hm⟩
  · have hh : ∀ c ∈ h, isBlank c := fun c hc => hg c (by simp [hgap, hc])
    by_cases hw : TokenKind.ofText w = .and
    · by_cases hne : h = []
      · rw [hne, List.nil_append, afterAndNot?, afterOperator?_eq_none hs.head_not_blank,
          Option.bind_none]
      · rw [afterAndNot?, afterOperator?_this hs spells_and hne hh hw]
        exact Option.bind_eq_none_iff.mpr (hand hw)
    · rw [afterAndNot?, afterOperator?_other hs spells_and hh hw, Option.bind_none]
  · exact hr.text hs q ⟨m, hm.symm⟩

end Legacy

end SuitePlan
