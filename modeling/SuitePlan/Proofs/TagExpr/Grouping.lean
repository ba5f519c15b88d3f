import SuitePlan.Proofs.TagExpr.Rendering

/-! Larger expressions written from the texts of smaller ones. In parentheses a text that is accepted
stands for the same expression wherever it is put, so no operator inside it meets one outside. -/

namespace SuitePlan

/-- The same texts with the same blanks between them. Only the blanks before the first token and the
positions may differ. -/
def Respelled (ts us : List Token) : Prop :=
  ts.map Token.text = us.map Token.text ∧ ts.tail.map Token.gap = us.tail.map Token.gap

theorem Respelled.leaf_eq {ts us : List Token} (h : Respelled ts us) :
    Token.leaf ts = Token.leaf us := by
  cases ts with
  | nil =>
    have hus : us = [] := List.map_eq_nil_iff.mp h.1.symm
    rw [hus]
  | cons t ts =>
    obtain ⟨u, us, rfl, ht, hts⟩ := List.map_eq_cons_iff.mp h.1.symm
    have hgap : ts.map Token.gap = us.map Token.gap := h.2
    have hextent : ts.flatMap Token.extent = us.flatMap Token.extent := by
      clear h ht
      induction ts generalizing us with
      | nil =>
        have hus : us = [] := List.map_eq_nil_iff.mp hts
        rw [hus]
      | cons a ts ih =>
        obtain ⟨b, us, rfl, hb, hus⟩ := List.map_eq_cons_iff.mp hts
        obtain ⟨hg, hgs⟩ := List.cons.inj hgap
        simp only [List.flatMap_cons, Token.extent, hb, hg]
        rw [← ih us hus hgs]
    simp only [Token.leaf, Token.spelling, ht, hextent]

theorem Respelled.append {ts us vs : List Token} (h : Respelled (ts ++ us) vs) :
    ∃ ts' us', vs = ts' ++ us' ∧ Respelled ts ts' ∧ Respelled us us' := by
  obtain ⟨ht, hg⟩ := h
  rw [List.map_append] at ht
  obtain ⟨ts', us', rfl, hts, hus⟩ := List.map_eq_append_iff.mp ht.symm
  have hlen : ts.length = ts'.length := by simpa using congrArg List.length hts.symm
  refine ⟨ts', us', rfl, ⟨hts.symm, ?_⟩, ⟨hus.symm, ?_⟩⟩
  · cases ts with
    | nil =>
      have hnil : ts' = [] := List.map_eq_nil_iff.mp hts
      rw [hnil]
    | cons t ts =>
      obtain ⟨t', ts', rfl, -, -⟩ := List.map_eq_cons_iff.mp hts
      simp only [List.cons_append, List.tail_cons, List.map_append] at hg
      exact (List.append_inj hg (by simpa using hlen)).1
  · cases ts with
    | nil =>
      have hnil : ts' = [] := List.map_eq_nil_iff.mp hts
      rw [hnil] at hg
      exact hg
    | cons t ts =>
      obtain ⟨t', ts', rfl, -, -⟩ := List.map_eq_cons_iff.mp hts
      simp only [List.cons_append, List.tail_cons, List.map_append] at hg
      have hgaps := (List.append_inj hg (by simpa using hlen)).2
      rw [List.map_tail, hgaps, List.map_tail]

theorem Respelled.cons {t : Token} {ts vs : List Token} (h : Respelled (t :: ts) vs) :
    ∃ u us, vs = u :: us ∧ u.kind = t.kind ∧ Respelled ts us := by
  obtain ⟨u, us, rfl, ht, hts⟩ := List.map_eq_cons_iff.mp h.1.symm
  have hgap : ts.map Token.gap = us.map Token.gap := h.2
  refine ⟨u, us, rfl, by rw [Token.kind, ht, Token.kind], hts.symm, ?_⟩
  rw [List.map_tail, hgap, List.map_tail]

/-- A phrase keeps its tree when it is moved in the text. -/
theorem Derives.respelled {lvl : Level} {ts us : List Token} {e : TagExpr}
    (h : Derives Token.leaf lvl ts e) (hr : Respelled ts us) : Derives Token.leaf lvl us e := by
  induction h generalizing us with
  | @words ws hne hw =>
    rw [hr.leaf_eq]
    refine .words ?_ ?_
    · rintro rfl
      exact hne (List.map_eq_nil_iff.mp hr.1)
    · intro u hu
      have hm : u.text ∈ ws.map Token.text := by
        rw [hr.1]
        exact List.mem_map_of_mem hu
      obtain ⟨t, ht, he⟩ := List.mem_map.mp hm
      rw [Token.kind, ← he]
      exact hw t ht
  | group ho hc _ ih =>
    obtain ⟨o', vs, rfl, hk, hvs⟩ := hr.cons
    obtain ⟨us', cs, rfl, hus, hcs⟩ := hvs.append
    obtain ⟨c', rest, rfl, hk', hrest⟩ := hcs.cons
    have hnil : rest = [] := List.map_eq_nil_iff.mp hrest.1.symm
    rw [hnil]
    exact .group (hk.trans ho) (hk'.trans hc) (ih hus)
  | operand _ ih => exact .operand (ih hr)
  | not ht _ ih =>
    obtain ⟨u, us', rfl, hk, hus⟩ := hr.cons
    exact .not (hk.trans ht) (ih hus)
  | conjunct _ ih => exact .conjunct (ih hr)
  | and ht _ _ ihl ihr =>
    obtain ⟨ls, vs, rfl, hls, hvs⟩ := hr.append
    obtain ⟨u, rs, rfl, hk, hrs⟩ := hvs.cons
    exact .and (hk.trans ht) (ihl hls) (ihr hrs)
  | disjunct _ ih => exact .disjunct (ih hr)
  | or ht _ _ ihl ihr =>
    obtain ⟨ls, vs, rfl, hls, hvs⟩ := hr.append
    obtain ⟨u, rs, rfl, hk, hrs⟩ := hvs.cons
    exact .or (hk.trans ht) (ihl hls) (ihr hrs)

theorem Cut.shift {i : Nat} {s : List Char} {ts : List Token} (h : Cut i s ts) (j : Nat) :
    ∃ us, Cut j s us ∧ us.map Token.text = ts.map Token.text ∧
      us.map Token.gap = ts.map Token.gap := by
  induction h generalizing j with
  | blank hg => exact ⟨[], .blank hg, rfl, rfl⟩
  | @paren _ g _ c _ hg hc _ ih =>
    obtain ⟨us, hus, ht, hgap⟩ := ih (j + byteSize g + byteSize [c])
    exact ⟨_, .paren hg hc hus, by simp [ht], by simp [hgap]⟩
  | @word _ g w _ _ hg hne hw hr _ ih =>
    obtain ⟨us, hus, ht, hgap⟩ := ih (j + byteSize g + byteSize w)
    exact ⟨_, .word hg hne hw hr hus, by simp [ht], by simp [hgap]⟩

/-- A text without the blanks at its ends stands for its expression at any place. -/
theorem Cut.prints {i : Nat} {s : List Char} {lvl : Level} {ts : List Token} {e : TagExpr}
    (h : Cut i s ts) (hne : ts ≠ []) (hd : Derives Token.leaf lvl ts e) :
    Prints (Token.spelling ts) lvl e := by
  intro j g rest hg hrest
  obtain ⟨t, ts, rfl⟩ := List.exists_cons_of_ne_nil hne
  have hnil : Cut i s (t :: ts ++ []) := by rwa [List.append_nil]
  have htake := hnil.take
  obtain ⟨r, hr, hcut⟩ := htake.indent (i + byteSize t.gap) (g := []) (by simp) (by simp [byteSize])
  have hspell : r = Token.spelling (t :: ts) := by
    simpa [Token.extent, Token.spelling] using hr.symm
  rw [List.nil_append, hspell] at hcut
  obtain ⟨us, hus, htext, hgap⟩ := hcut.shift (j + byteSize g)
  obtain ⟨u, us, rfl, hu, htexts⟩ := List.map_eq_cons_iff.mp htext
  obtain ⟨hugap, hgaps⟩ := List.cons.inj hgap
  change u.gap = [] at hugap
  obtain ⟨v, hv, hput⟩ := hus.indent j hg (by simp [hugap, byteSize])
  rw [hugap, List.nil_append] at hv
  rw [← hv] at hput
  have hlast : ∀ c ∈ (Token.spelling (t :: ts)).getLast?, isBlank c = false := by
    have hh := hcut.last_not_blank
    simpa [Token.spelling, Token.extent] using hh
  have hsne : Token.spelling (t :: ts) ≠ [] := by
    have ht := (h.text_not_blank List.mem_cons_self).1
    simp [Token.spelling, ht]
  have hb : Boundary (g ++ Token.spelling (t :: ts)) rest := by
    intro c hc
    rw [List.getLast?_append, List.getLast?_eq_some_getLast hsne, Option.some_or,
      ← List.getLast?_eq_some_getLast hsne] at hc
    exact ⟨hlast c hc, fun _ => hrest⟩
  have hscan := (hput.append hb (scan_cut _ rest)).eq_scan
  rw [List.append_assoc] at hscan
  refine ⟨_, _, hscan, hd.respelled ⟨?_, ?_⟩⟩
  · have hhead : t.text = u.text := hu.symm
    simp only [List.map_cons, hhead, htexts]
  · exact hgaps.symm

namespace Prints

variable {v : List Char} {e : TagExpr}

/-- Blanks inside the parentheses of a group do not count. -/
theorem paddedGroup (h : Prints v .disjunction e) {p q : List Char} (hp : ∀ c ∈ p, isBlank c)
    (hq : ∀ c ∈ q, isBlank c) : Prints ('(' :: (p ++ (v ++ q) ++ [')'])) .primary e := by
  intro i g rest hg hrest
  have hclose : ∀ c ∈ (q ++ ')' :: rest).head?, isWordChar c = false := by
    cases q with
    | nil => simp [isWordChar, isParen]
    | cons c q =>
      have hc := hq c List.mem_cons_self
      simp [isWordChar, hc]
  obtain ⟨ts, j, hs, hts⟩ := h (i + byteSize g + byteSize ['(']) p (q ++ ')' :: rest) hp hclose
  have ho := scan_paren i (c := '(') (r := p ++ (v ++ (q ++ ')' :: rest))) hg rfl
  have hc := scan_paren j (c := ')') (r := rest) hq rfl
  refine ⟨⟨g, i + byteSize g, ['(']⟩ :: (ts ++ [⟨q, j + byteSize q, [')']⟩]),
    j + byteSize q + byteSize [')'], ?_, .group rfl rfl hts⟩
  simp only [List.cons_append, List.append_assoc, List.nil_append]
  rw [ho, hs, hc]

theorem parse (h : Prints v .disjunction e) :
    Grammar.precedence.parse (String.ofList v) = .ok (some e) := by
  obtain ⟨ts, j, hs, hts⟩ := h 0 [] [] (by simp) (by simp)
  rw [List.nil_append, List.append_nil, scan_blank j (by simp), List.append_nil] at hs
  have hh := parseTokens_of_derives hts
  rw [← hs] at hh
  rw [Grammar.parse, String.toList_ofList]
  exact hh

end Prints

theorem tokensOf_eq_nil_iff (s : String) : tokensOf s.toList = [] ↔ isBlankText s := by
  rw [isBlankText, List.all_eq_true]
  constructor
  · intro h
    have hcut := scan_cut 0 s.toList
    rw [← tokensOf, h] at hcut
    obtain ⟨tail, htail, hs⟩ := hcut.spelled
    rw [hs]
    exact htail
  · exact fun h => scan_blank 0 h

theorem exists_of_accepted {s : String} {r : Option TagExpr}
    (h : Grammar.precedence.parse s = .ok r) (hs : isBlankText s = false) : ∃ e, r = some e := by
  cases r with
  | some e => exact ⟨e, rfl⟩
  | none =>
    have hnil : tokensOf s.toList = [] := parseTokens_eq_none_iff.mp h
    rw [(tokensOf_eq_nil_iff s).mp hnil] at hs
    cases hs

theorem isBlankText_of_accepted {s : String} {e : TagExpr}
    (h : Grammar.precedence.parse s = .ok (some e)) : isBlankText s = false := by
  by_contra hb
  have hblank : isBlankText s := by simpa using hb
  have hnone := parseTokens_eq_none_iff.mpr ((tokensOf_eq_nil_iff s).mpr hblank)
  have hsome : Precedence.parseTokens (tokensOf s.toList) = .ok (some e) := h
  rw [hnone] at hsome
  cases hsome

/-- A text in parentheses reads as one operand. -/
theorem prints_group {s : String} {e : TagExpr} (h : Grammar.precedence.parse s = .ok (some e)) :
    Prints ('(' :: (s.toList ++ [')'])) .primary e := by
  have hcut := scan_cut 0 s.toList
  have hd : Derives Token.leaf .disjunction (tokensOf s.toList) e := derives_of_parseTokens h
  rw [← tokensOf] at hcut
  generalize tokensOf s.toList = ts at hcut hd
  have hne : ts ≠ [] := by
    rintro rfl
    have hh := parseTokens_of_derives hd
    cases hh
  obtain ⟨t, ts, rfl⟩ := List.exists_cons_of_ne_nil hne
  obtain ⟨tail, htail, hspelled⟩ := hcut.spelled
  have hsplit : s.toList = t.gap ++ (Token.spelling (t :: ts) ++ tail) := by
    simpa [Token.extent, Token.spelling] using hspelled
  have hgap := hcut.gap_blank List.mem_cons_self
  rw [hsplit]
  exact (hcut.prints hne hd).paddedGroup hgap htail

section

variable {s₁ s₂ : String} {e₁ e₂ : TagExpr}

theorem parse_group (h : Grammar.precedence.parse s₁ = .ok (some e₁)) :
    Grammar.precedence.parse ("(" ++ s₁ ++ ")") = .ok (some e₁) := by
  have hh := (prints_group h).mono fun _ hd => .disjunct (.conjunct (.operand hd))
  have ht : "(" ++ s₁ ++ ")" = String.ofList ('(' :: (s₁.toList ++ [')'])) := by
    apply String.toList_injective
    simp
  rw [ht]
  exact hh.parse

theorem parse_not_group (h : Grammar.precedence.parse s₁ = .ok (some e₁)) :
    Grammar.precedence.parse ("not (" ++ s₁ ++ ")") = .ok (some (.not e₁)) := by
  have hh := ((prints_group h).mono fun _ => .operand).not.mono fun _ hd => .disjunct (.conjunct hd)
  have ht : "not (" ++ s₁ ++ ")" =
      String.ofList ('n' :: 'o' :: 't' :: ' ' :: '(' :: (s₁.toList ++ [')'])) := by
    apply String.toList_injective
    simp
  rw [ht]
  exact hh.parse

theorem parse_and_groups (h₁ : Grammar.precedence.parse s₁ = .ok (some e₁))
    (h₂ : Grammar.precedence.parse s₂ = .ok (some e₂)) :
    Grammar.precedence.parse ("(" ++ s₁ ++ ") and (" ++ s₂ ++ ")") = .ok (some (.and e₁ e₂)) := by
  have hl := (prints_group h₁).mono fun _ hd => .conjunct (.operand hd)
  have hr := (prints_group h₂).mono fun _ => .operand
  have hh := (hl.and hr).mono fun _ => .disjunct
  have ht : "(" ++ s₁ ++ ") and (" ++ s₂ ++ ")" =
      String.ofList ('(' :: (s₁.toList ++ [')']) ++
        ' ' :: (['a', 'n', 'd'] ++ ' ' :: '(' :: (s₂.toList ++ [')']))) := by
    apply String.toList_injective
    simp
  rw [ht]
  exact hh.parse

theorem parse_or_groups (h₁ : Grammar.precedence.parse s₁ = .ok (some e₁))
    (h₂ : Grammar.precedence.parse s₂ = .ok (some e₂)) :
    Grammar.precedence.parse ("(" ++ s₁ ++ ") or (" ++ s₂ ++ ")") = .ok (some (.or e₁ e₂)) := by
  have hl := (prints_group h₁).mono fun _ hd => .disjunct (.conjunct (.operand hd))
  have hr := (prints_group h₂).mono fun _ hd => .conjunct (.operand hd)
  have hh := hl.or hr
  have ht : "(" ++ s₁ ++ ") or (" ++ s₂ ++ ")" =
      String.ofList ('(' :: (s₁.toList ++ [')']) ++
        ' ' :: (['o', 'r'] ++ ' ' :: '(' :: (s₂.toList ++ [')']))) := by
    apply String.toList_injective
    simp
  rw [ht]
  exact hh.parse

end

end SuitePlan
