import SuitePlan.Proofs.TagExpr.Precedence

/-! The texts that expressions are shown as. Each is read back as the same tree if no leaf would be
read as something else, and the parser builds no other trees. -/

namespace SuitePlan

theorem words_nil : words [] = [] := by rw [words.eq_def]

theorem words_cons (c : Char) (r : List Char) : words (c :: r) =
    if isBlank c then words r
    else (c :: r.takeWhile (!isBlank ·)) :: words (r.dropWhile (!isBlank ·)) := by
  rw [words.eq_def]

theorem words_blank {g : List Char} (hg : ∀ c ∈ g, isBlank c) (s : List Char) :
    words (g ++ s) = words s := by
  induction g with
  | nil => rfl
  | cons c g ih =>
    rw [List.cons_append, words_cons, if_pos (hg c List.mem_cons_self)]
    exact ih fun d hd => hg d (List.mem_cons_of_mem _ hd)

theorem words_word {w r : List Char} (hne : w ≠ []) (hw : ∀ c ∈ w, isBlank c = false)
    (hr : ∀ c ∈ r.head?, isBlank c) : words (w ++ r) = w :: words r := by
  obtain ⟨c, w, rfl⟩ := List.exists_cons_of_ne_nil hne
  have hw' : ∀ d ∈ w, (!isBlank d) = true := fun d hd => by simp [hw d (List.mem_cons_of_mem _ hd)]
  have ht : (w ++ r).takeWhile (!isBlank ·) = w := by
    rw [List.takeWhile_append_of_pos hw']
    cases r with
    | nil => simp
    | cons d r => rw [List.takeWhile_cons_of_neg (by simp [hr d rfl]), List.append_nil]
  have hd : (w ++ r).dropWhile (!isBlank ·) = r := by
    rw [List.dropWhile_append_of_pos hw']
    cases r with
    | nil => simp
    | cons d r => rw [List.dropWhile_cons_of_neg (by simp [hr d rfl])]
  rw [List.cons_append, words_cons, if_neg (by simp [hw c List.mem_cons_self]), ht, hd]

theorem Cut.words_eq {i : Nat} {s : List Char} {ts : List Token} (h : Cut i s ts)
    (hs : ∀ c ∈ s, isParen c = false) : words s = ts.map Token.text := by
  induction h with
  | blank hg => simpa [words_nil] using words_blank hg []
  | paren _ hc _ _ => simp [hs _ (List.mem_append_right _ List.mem_cons_self)] at hc
  | @word i g w r ts hg hne hw hr _ ih =>
    have hs' : ∀ c ∈ r, isParen c = false := fun c hc => hs c (by simp [hc])
    have hb : ∀ c ∈ r.head?, isBlank c := by
      intro c hc
      simpa [isWordChar, hs' c (List.mem_of_mem_head? hc)] using hr c hc
    rw [words_blank hg, words_word hne (fun c hc => not_isBlank_of_isWordChar (hw c hc)) hb, ih hs']
    rfl

/-- A word that is an operator: `and` or `or` in any case, or `not`. -/
def IsOperator (w : List Char) : Prop :=
  w.map Char.toLower = ['a', 'n', 'd'] ∨ w.map Char.toLower = ['o', 'r'] ∨ w = ['n', 'o', 't']

/-- A value that is read as one leaf: trimmed, without parentheses and without operators. -/
structure CanonicalLeaf (v : List Char) : Prop where
  nonempty : v ≠ []
  first : ∀ c ∈ v.head?, isBlank c = false
  last : ∀ c ∈ v.getLast?, isBlank c = false
  noParen : ∀ c ∈ v, isParen c = false
  noOperator : ∀ w ∈ words v, ¬ IsOperator w

/-- Every leaf is canonical, and no node is of unknown kind. -/
def TagExpr.Canonical : TagExpr → Prop
  | tag value => CanonicalLeaf value.toList
  | and left right => left.Canonical ∧ right.Canonical
  | or left right => left.Canonical ∧ right.Canonical
  | not operand => operand.Canonical
  | unknown => False

theorem ofText_eq_word_iff (w : List Char) :
    TokenKind.ofText w = .word ↔ w ≠ ['('] ∧ w ≠ [')'] ∧ ¬ IsOperator w := by
  unfold TokenKind.ofText IsOperator
  split_ifs <;> simp_all

theorem Cut.word_text {i : Nat} {s : List Char} {ts : List Token} (h : Cut i s ts) {t : Token}
    (ht : t ∈ ts) (hk : t.kind = .word) : ∀ c ∈ t.text, isParen c = false := by
  rcases h.text_formed ht with ⟨c, hc, he⟩ | ⟨-, hw⟩
  · have hn := (ofText_eq_word_iff t.text).mp hk
    simp only [isParen, Bool.or_eq_true, decide_eq_true_eq] at hc
    rcases hc with rfl | rfl <;> simp [he] at hn
  · intro c hc
    have hh := hw c hc
    simp only [isWordChar, Bool.and_eq_true, Bool.not_eq_true'] at hh
    exact hh.2

theorem CanonicalLeaf.ne_nil {i : Nat} {v : List Char} {ts : List Token} (hc : CanonicalLeaf v)
    (h : Cut i v ts) : ts ≠ [] := by
  rintro rfl
  obtain ⟨tail, htail, hv⟩ := h.spelled
  obtain ⟨c, r, rfl⟩ := List.exists_cons_of_ne_nil hc.nonempty
  rw [List.flatMap_nil, List.nil_append] at hv
  have hh := htail c (hv ▸ List.mem_cons_self)
  rw [hc.first c rfl] at hh
  cases hh

theorem CanonicalLeaf.kind_word {i : Nat} {v : List Char} {ts : List Token} (hc : CanonicalLeaf v)
    (h : Cut i v ts) {t : Token} (ht : t ∈ ts) : t.kind = .word := by
  obtain ⟨tail, -, hv⟩ := h.spelled
  have hsub : ∀ c ∈ t.text, isParen c = false := fun c hm => hc.noParen c <| by
    rw [hv]
    exact List.mem_append_left _ (List.mem_flatMap.mpr ⟨t, ht, List.mem_append_right _ hm⟩)
  refine (ofText_eq_word_iff t.text).mpr ⟨?_, ?_, ?_⟩
  · intro he
    simp [he, isParen] at hsub
  · intro he
    simp [he, isParen] at hsub
  · refine hc.noOperator t.text ?_
    rw [h.words_eq hc.noParen]
    exact List.mem_map_of_mem ht

theorem Cut.noParen {i : Nat} {v : List Char} {ts : List Token} (h : Cut i v ts)
    (hk : ∀ t ∈ ts, t.kind = .word) : ∀ c ∈ v, isParen c = false := by
  obtain ⟨tail, htail, hv⟩ := h.spelled
  intro c hc
  rw [hv] at hc
  rcases List.mem_append.mp hc with hc | hc
  · obtain ⟨t, ht, hc⟩ := List.mem_flatMap.mp hc
    rcases List.mem_append.mp hc with hc | hc
    · exact not_isParen_of_isBlank (h.gap_blank ht c hc)
    · exact h.word_text ht (hk t ht) c hc
  · exact not_isParen_of_isBlank (htail c hc)

/-- A trimmed text is canonical when its tokens are words. -/
theorem canonicalLeaf_iff {i : Nat} {v : List Char} {ts : List Token} (h : Cut i v ts) :
    CanonicalLeaf v ↔ ts ≠ [] ∧ (∀ t ∈ ts, t.kind = .word) ∧
      (∀ c ∈ v.head?, isBlank c = false) ∧ ∀ c ∈ v.getLast?, isBlank c = false := by
  constructor
  · exact fun hc => ⟨hc.ne_nil h, fun _ ht => hc.kind_word h ht, hc.first, hc.last⟩
  · rintro ⟨hne, hk, hfirst, hlast⟩
    have hp := h.noParen hk
    refine ⟨?_, hfirst, hlast, hp, ?_⟩
    · rintro rfl
      obtain ⟨tail, -, hv⟩ := h.spelled
      obtain ⟨t, us, rfl⟩ := List.exists_cons_of_ne_nil hne
      have ht := (h.text_not_blank List.mem_cons_self).1
      simp [Token.extent, ht] at hv
    · intro w hw
      rw [h.words_eq hp] at hw
      obtain ⟨t, ht, rfl⟩ := List.mem_map.mp hw
      exact ((ofText_eq_word_iff t.text).mp (hk t ht)).2.2

theorem Cut.trimmed {i : Nat} {s : List Char} {t : Token} {ts : List Token}
    (h : Cut i s (t :: ts)) (hfirst : ∀ c ∈ s.head?, isBlank c = false)
    (hlast : ∀ c ∈ s.getLast?, isBlank c = false) :
    t.gap = [] ∧ Token.spelling (t :: ts) = s := by
  obtain ⟨tail, htail, he⟩ := h.spelled
  have hgap : t.gap = [] := by
    by_contra hn
    obtain ⟨c, b, hb⟩ := List.exists_cons_of_ne_nil hn
    have hh := h.gap_blank List.mem_cons_self c (by simp [hb])
    rw [hfirst c (by simp [he, Token.extent, hb])] at hh
    cases hh
  refine ⟨hgap, ?_⟩
  cases tail using List.reverseRecOn with
  | nil => simpa [Token.spelling, Token.extent, hgap] using he.symm
  | append_singleton tail c =>
    have hh := htail c (by simp)
    rw [hlast c (by simp [he])] at hh
    cases hh

theorem CanonicalLeaf.indent {s : List Char} (h : CanonicalLeaf s) (i : Nat) {g : List Char}
    (hg : ∀ c ∈ g, isBlank c) :
    ∃ ts, Cut i (g ++ s) ts ∧ (∀ t ∈ ts, t.kind = .word) ∧ Token.spelling ts = s := by
  have hc := scan_cut (i + byteSize g) s
  obtain ⟨hne, hk, hfirst, hlast⟩ := (canonicalLeaf_iff hc).mp h
  obtain ⟨t, us, hts⟩ := List.exists_cons_of_ne_nil hne
  rw [hts] at hc hk
  obtain ⟨hgap, hsp⟩ := hc.trimmed hfirst hlast
  obtain ⟨r, hs, hcut⟩ := hc.indent i hg (by simp [hgap, byteSize])
  rw [hgap, List.nil_append] at hs
  subst hs
  refine ⟨_, hcut, fun u hu => ?_, hsp⟩
  rcases List.mem_cons.mp hu with rfl | hu
  · exact hk t List.mem_cons_self
  · exact hk u (List.mem_cons_of_mem _ hu)

theorem CanonicalLeaf.boundary {s rest : List Char} (h : CanonicalLeaf s) (g : List Char)
    (hr : ∀ c ∈ rest.head?, isWordChar c = false) : Boundary (g ++ s) rest := by
  intro c hm
  have hl : (g ++ s).getLast? = s.getLast? := by
    rw [List.getLast?_append, List.getLast?_eq_some_getLast h.nonempty, Option.some_or]
  exact ⟨h.last c (hl ▸ hm), fun _ => hr⟩

/-- Wherever `s` stands before the end of a word, it is cut into tokens of its own, and these
derive `e`. -/
def Prints (s : List Char) (lvl : Level) (e : TagExpr) : Prop :=
  ∀ (i : Nat) (g rest : List Char), (∀ c ∈ g, isBlank c) →
    (∀ c ∈ rest.head?, isWordChar c = false) →
    ∃ ts j, Token.scan i (g ++ (s ++ rest)) = ts ++ Token.scan j rest ∧
      Derives Token.leaf lvl ts e

namespace Prints

variable {s : List Char} {e : TagExpr}

theorem mono {lvl lvl' : Level} (h : Prints s lvl e)
    (hd : ∀ ts, Derives Token.leaf lvl ts e → Derives Token.leaf lvl' ts e) : Prints s lvl' e := by
  intro i g rest hg hr
  obtain ⟨ts, j, hs, hts⟩ := h i g rest hg hr
  exact ⟨ts, j, hs, hd ts hts⟩

theorem leaf (h : CanonicalLeaf s) : Prints s .primary (.tag (String.ofList s)) := by
  intro i g rest hg hr
  obtain ⟨ts, hcut, hk, hsp⟩ := h.indent i hg
  have hall := (hcut.append (h.boundary g hr) (scan_cut _ rest)).eq_scan
  rw [List.append_assoc] at hall
  have hne : ts ≠ [] := by
    rintro rfl
    exact h.nonempty hsp.symm
  have hd : Derives Token.leaf .primary ts (.tag (String.ofList (Token.spelling ts))) :=
    .words hne hk
  exact ⟨ts, _, hall, hsp ▸ hd⟩

theorem not (h : Prints s .negation e) :
    Prints ('n' :: 'o' :: 't' :: ' ' :: s) .negation (.not e) := by
  intro i g rest hg hr
  obtain ⟨ts, j, hs, hts⟩ := h (i + byteSize g + byteSize ['n', 'o', 't']) [' '] rest isBlank_space hr
  have hn := scan_word i (w := ['n', 'o', 't']) (r := ' ' :: (s ++ rest)) hg (by simp)
    (List.all_eq_true.mp rfl) (by simp; decide)
  exact ⟨⟨g, i + byteSize g, ['n', 'o', 't']⟩ :: ts, j, hn.trans (congrArg (_ :: ·) hs),
    .not rfl hts⟩

theorem group (h : Prints s .disjunction e) : Prints ('(' :: (s ++ [')'])) .primary e := by
  intro i g rest hg hr
  obtain ⟨ts, j, hs, hts⟩ := h (i + byteSize g + byteSize ['(']) [] (')' :: rest) (by simp)
    (by simp; decide)
  have ho := scan_paren i (c := '(') (r := s ++ ')' :: rest) hg rfl
  have hc := scan_paren j (g := []) (c := ')') (r := rest) (by simp) rfl
  refine ⟨⟨g, i + byteSize g, ['(']⟩ :: (ts ++ [⟨[], j + byteSize [], [')']⟩]),
    j + byteSize [] + byteSize [')'], ?_, .group rfl rfl hts⟩
  rw [List.nil_append] at hs hc
  simp only [List.cons_append, List.append_assoc, List.nil_append]
  rw [ho, hs, hc]

theorem operator {l r : List Char} {llvl rlvl : Level} {x y : TagExpr} (hl : Prints l llvl x)
    (hr : Prints r rlvl y) (op : List Char) (hne : op ≠ []) (hop : ∀ c ∈ op, isWordChar c) (i : Nat)
    {g rest : List Char} (hg : ∀ c ∈ g, isBlank c)
    (hrest : ∀ c ∈ rest.head?, isWordChar c = false) :
    ∃ ts us t j, Token.scan i (g ++ (l ++ ' ' :: (op ++ ' ' :: (r ++ rest)))) =
      ts ++ t :: us ++ Token.scan j rest ∧ t.text = op ∧ Derives Token.leaf llvl ts x ∧
        Derives Token.leaf rlvl us y := by
  obtain ⟨ts, j, hs, hts⟩ := hl i g (' ' :: (op ++ ' ' :: (r ++ rest))) hg (by simp; decide)
  have ho := scan_word j (g := [' ']) (w := op) (r := ' ' :: (r ++ rest)) isBlank_space hne hop
    (by simp; decide)
  obtain ⟨us, k, hs', hus⟩ := hr (j + byteSize [' '] + byteSize op) [' '] rest isBlank_space hrest
  refine ⟨ts, us, ⟨[' '], j + byteSize [' '], op⟩, k, ?_, rfl, hts, hus⟩
  have hh := ho.trans (congrArg (_ :: ·) hs')
  rw [List.append_assoc, List.cons_append]
  exact hs.trans (congrArg (ts ++ ·) hh)

theorem and {l r : List Char} {x y : TagExpr} (hl : Prints l .conjunction x)
    (hr : Prints r .negation y) :
    Prints (l ++ ' ' :: (['a', 'n', 'd'] ++ ' ' :: r)) .conjunction (.and x y) := by
  intro i g rest hg hrest
  obtain ⟨ts, us, t, j, hs, ht, hts, hus⟩ :=
    hl.operator hr ['a', 'n', 'd'] (List.cons_ne_nil _ _) (List.all_eq_true.mp rfl) i hg hrest
  have hk : t.kind = .and := by rw [Token.kind, ht]; rfl
  exact ⟨ts ++ t :: us, j, by simpa using hs, .and hk hts hus⟩

theorem or {l r : List Char} {x y : TagExpr} (hl : Prints l .disjunction x)
    (hr : Prints r .conjunction y) :
    Prints (l ++ ' ' :: (['o', 'r'] ++ ' ' :: r)) .disjunction (.or x y) := by
  intro i g rest hg hrest
  obtain ⟨ts, us, t, j, hs, ht, hts, hus⟩ :=
    hl.operator hr ['o', 'r'] (List.cons_ne_nil _ _) (List.all_eq_true.mp rfl) i hg hrest
  have hk : t.kind = .or := by rw [Token.kind, ht]; rfl
  exact ⟨ts ++ t :: us, j, by simpa using hs, .or hk hts hus⟩

end Prints

theorem TagExpr.Canonical.prints {e : TagExpr} (h : e.Canonical) :
    Prints e.render.toList .negation e := by
  induction e with
  | tag v =>
    have hh := (Prints.leaf h).mono fun _ => .operand
    rwa [String.ofList_toList] at hh
  | and l r ihl ihr =>
    have hh := ((ihl h.1).mono fun _ => .conjunct).and (ihr h.2)
    have hg := ((hh.mono fun _ => .disjunct).group).mono fun _ => .operand
    simpa [render] using hg
  | or l r ihl ihr =>
    have hl := (ihl h.1).mono fun _ hd => .disjunct (.conjunct hd)
    have hh := hl.or ((ihr h.2).mono fun _ => .conjunct)
    have hg := hh.group.mono fun _ => .operand
    simpa [render] using hg
  | not e ih => simpa [render] using (ih h).not
  | unknown => exact h.elim

/-- A canonical expression is read back from its text. -/
theorem TagExpr.Canonical.parse_render {e : TagExpr} (h : e.Canonical) :
    Grammar.precedence.parse e.render = .ok (some e) := by
  obtain ⟨ts, j, hs, hts⟩ := h.prints 0 [] [] (by simp) (by simp)
  rw [List.nil_append, List.append_nil, scan_blank j (by simp), List.append_nil] at hs
  have hh := parseTokens_of_derives (.disjunct (.conjunct hts))
  rw [← hs] at hh
  exact hh

theorem Derives.canonical {leaf : List Token → String} {lvl : Level} {ts : List Token} {e : TagExpr}
    (h : Derives leaf lvl ts e)
    (hl : ∀ ws, ws ≠ [] → (∀ t ∈ ws, t.kind = .word) → ws <:+: ts →
      CanonicalLeaf (leaf ws).toList) :
    e.Canonical := by
  induction h with
  | @words ws hne hw => exact hl ws hne hw (List.infix_refl ws)
  | group _ _ _ ih => exact ih fun ws hne hw hws => hl ws hne hw (hws.trans (infix_group ..))
  | operand _ ih => exact ih hl
  | not _ _ ih => exact ih fun ws hne hw hws => hl ws hne hw (hws.trans (infix_not ..))
  | conjunct _ ih => exact ih hl
  | and _ _ _ ihl ihr | or _ _ _ ihl ihr =>
    exact ⟨ihl fun ws hne hw hws => hl ws hne hw (hws.trans (infix_left ..)),
      ihr fun ws hne hw hws => hl ws hne hw (hws.trans (infix_right ..))⟩
  | disjunct _ ih => exact ih hl

theorem Cut.canonicalLeaf {i : Nat} {s : List Char} {ts ws : List Token} (h : Cut i s ts)
    (hi : ws <:+: ts) (hne : ws ≠ []) (hw : ∀ t ∈ ws, t.kind = .word) :
    CanonicalLeaf (Token.spelling ws) := by
  obtain ⟨pre, post, rfl⟩ := hi
  rw [List.append_assoc] at h
  obtain ⟨j, r, hr⟩ := h.drop
  have hrun := hr.take
  obtain ⟨t, us, rfl⟩ := List.exists_cons_of_ne_nil hne
  obtain ⟨v, hv, hcut⟩ := hrun.indent (j + byteSize t.gap) (g := []) (by simp) (by simp [byteSize])
  have he : v = Token.spelling (t :: us) := by
    simpa [Token.extent, Token.spelling] using hv.symm
  subst he
  have ht := hrun.text_not_blank List.mem_cons_self
  obtain ⟨c, w, hc⟩ := List.exists_cons_of_ne_nil ht.1
  refine (canonicalLeaf_iff hcut).mpr ⟨List.cons_ne_nil _ _, ?_, ?_, ?_⟩
  · intro u hu
    rcases List.mem_cons.mp hu with rfl | hu
    · exact hw t List.mem_cons_self
    · exact hw u (List.mem_cons_of_mem _ hu)
  · simpa [Token.spelling, hc] using ht.2 c (by simp [hc])
  · have hl := hcut.last_not_blank
    simpa [Token.spelling, Token.extent] using hl

theorem canonical_of_parse {s : String} {e : TagExpr}
    (h : Grammar.precedence.parse s = .ok (some e)) : e.Canonical := by
  have hd := derives_of_parseTokens h
  refine hd.canonical fun ws hne hw hi => ?_
  rw [Token.leaf, String.toList_ofList]
  exact (scan_cut 0 s.toList).canonicalLeaf hi hne hw

/-- The expressions that are read back from their own texts are the canonical ones, and these are
all that the parser builds. So the text shown for an expression that has been read stands for it. -/
theorem parse_render_iff (e : TagExpr) :
    (Grammar.precedence.parse e.render = .ok (some e) ↔ e.Canonical) ∧
      ((∃ s, Grammar.precedence.parse s = .ok (some e)) ↔ e.Canonical) ∧
      ∀ s, Grammar.precedence.parse s = .ok (some e) →
        Grammar.precedence.parse e.render = .ok (some e) :=
  ⟨⟨canonical_of_parse, fun h => h.parse_render⟩,
    ⟨fun ⟨_, h⟩ => canonical_of_parse h, fun h => ⟨e.render, h.parse_render⟩⟩,
    fun _ h => (canonical_of_parse h).parse_render⟩

end SuitePlan
