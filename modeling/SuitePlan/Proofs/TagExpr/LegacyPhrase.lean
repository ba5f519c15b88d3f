import Mathlib.Data.List.Chain
import SuitePlan.Proofs.TagExpr.LegacyCut

/-! The legacy cuts on the phrases of the grammar. In a line whose operators stand apart a phrase is
cut at the first operator outside its groups, and it is taken as one group only when it is one. -/

namespace SuitePlan

/-- Blanks are on both sides of `and` and `or` and behind `not`, and no `not` follows an `and`. -/
structure Token.Apart (t u : Token) : Prop where
  before : u.kind = .and ∨ u.kind = .or → u.gap ≠ []
  behind : t.kind = .and ∨ t.kind = .or ∨ t.kind = .not → u.gap ≠ []
  noAndNot : t.kind = .and → u.kind ≠ .not

instance (t u : Token) : Decidable (t.Apart u) :=
  decidable_of_iff ((u.kind = .and ∨ u.kind = .or → u.gap ≠ []) ∧
      (t.kind = .and ∨ t.kind = .or ∨ t.kind = .not → u.gap ≠ []) ∧
      (t.kind = .and → u.kind ≠ .not))
    ⟨fun ⟨hb, hl, hn⟩ => ⟨hb, hl, hn⟩, fun h => ⟨h.before, h.behind, h.noAndNot⟩⟩

/-- Consecutive tokens of one line, each of them apart from the next. -/
structure Spaced (ts : List Token) : Prop where
  cut : ∃ i, Cut i (ts.flatMap Token.extent) ts
  line : '\n' ∉ ts.flatMap Token.extent
  apart : ts.IsChain Token.Apart

theorem Derives.ne_nil {leaf : List Token → String} {lvl : Level} {ts : List Token} {e : TagExpr}
    (h : Derives leaf lvl ts e) : ts ≠ [] := by
  induction h with
  | words hne _ => exact hne
  | operand _ ih | conjunct _ ih | disjunct _ ih => exact ih
  | group | not | and | or => simp

theorem opening_text {t : Token} (h : t.kind = .opening) : t.text = ['('] := by
  unfold Token.kind TokenKind.ofText at h
  split_ifs at h with ho
  exact ho

theorem closing_text {t : Token} (h : t.kind = .closing) : t.text = [')'] := by
  unfold Token.kind TokenKind.ofText at h
  split_ifs at h with ho hc
  exact hc

theorem not_text {t : Token} (h : t.kind = .not) : t.text = ['n', 'o', 't'] := by
  unfold Token.kind TokenKind.ofText at h
  split_ifs at h with ho hc ha hr hn
  exact hn

theorem Token.spelling_append {us : List Token} (hne : us ≠ []) (vs : List Token) :
    spelling (us ++ vs) = spelling us ++ vs.flatMap extent := by
  obtain ⟨u, us, rfl⟩ := List.exists_cons_of_ne_nil hne
  simp [spelling]

theorem Token.spelling_group {o c : Token} {ts : List Token} (ho : o.kind = .opening)
    (hc : c.kind = .closing) :
    spelling (o :: (ts ++ [c])) = '(' :: (ts.flatMap extent ++ c.gap ++ [')']) := by
  simp [spelling, extent, opening_text ho, closing_text hc]

namespace Spaced

variable {ts us vs pre post : List Token} {t u : Token}

theorem part (h : Spaced (pre ++ (ts ++ post))) : Spaced ts where
  cut := by
    obtain ⟨i, hcut⟩ := h.cut
    obtain ⟨j, r, hr⟩ := hcut.drop
    exact ⟨j, hr.take⟩
  line hm := by
    apply h.line
    simp only [List.flatMap_append, List.mem_append]
    exact .inr (.inl hm)
  apart := h.apart.right_of_append.left_of_append

theorem left (h : Spaced (us ++ vs)) : Spaced us := by
  have hh : Spaced ([] ++ (us ++ vs)) := h
  exact hh.part

theorem right (h : Spaced (us ++ vs)) : Spaced vs := by
  have hh : Spaced (us ++ (vs ++ [])) := by rwa [List.append_nil]
  exact hh.part

theorem tail (h : Spaced (t :: ts)) : Spaced ts := by
  have hh : Spaced ([t] ++ ts) := h
  exact hh.right

theorem gap_blank (h : Spaced ts) (ht : t ∈ ts) : ∀ c ∈ t.gap, isBlank c := by
  obtain ⟨i, hcut⟩ := h.cut
  exact hcut.gap_blank ht

theorem stands (h : Spaced (t :: post)) : Stands t.text (post.flatMap Token.extent) := by
  obtain ⟨i, hcut⟩ := h.cut
  refine ⟨hcut.text_formed List.mem_cons_self, fun hw => ?_⟩
  generalize hs : (t :: post).flatMap Token.extent = s at hcut
  cases hcut with
  | paren _ hc _ =>
    have hh := hw _ List.mem_cons_self
    rw [not_isWordChar_of_isParen hc] at hh
    cases hh
  | word _ _ _ hr _ =>
    simp only [List.flatMap_cons, Token.extent, List.append_assoc, List.append_cancel_left_eq] at hs
    rwa [hs]

theorem apart_next (h : Spaced (pre ++ t :: u :: post)) : t.Apart u :=
  (List.isChain_cons_cons.mp h.right.apart).1

theorem spelling_ne_nil (h : Spaced ts) (hne : ts ≠ []) : Token.spelling ts ≠ [] := by
  obtain ⟨t, ts, rfl⟩ := List.exists_cons_of_ne_nil hne
  simp [Token.spelling, h.stands.ne_nil]

theorem spelling_head (h : Spaced ts) : ∀ c ∈ (Token.spelling ts).head?, isBlank c = false := by
  cases ts with
  | nil => simp [Token.spelling]
  | cons t ts => exact h.stands.head_not_blank

theorem spelling_last (h : Spaced ts) : ∀ c ∈ (Token.spelling ts).getLast?, isBlank c = false := by
  cases ts with
  | nil => simp [Token.spelling]
  | cons t ts =>
    obtain ⟨i, hcut⟩ := h.cut
    have hlast := hcut.last_not_blank
    have hne := h.stands.ne_nil
    simpa [Token.spelling, Token.extent, List.getLast?_append, hne] using hlast

theorem trim_padded (h : Spaced ts) (hne : ts ≠ []) {g tail : List Char}
    (hg : ∀ c ∈ g, isBlank c) (htail : ∀ c ∈ tail, isBlank c) :
    trim (g ++ (Token.spelling ts ++ tail)) = Token.spelling ts :=
  SuitePlan.trim_padded (h.spelling_ne_nil hne) h.spelling_head h.spelling_last hg htail

theorem trim_spelling (h : Spaced ts) (hne : ts ≠ []) :
    trim (Token.spelling ts) = Token.spelling ts :=
  trim_eq_self (h.spelling_ne_nil hne) h.spelling_head h.spelling_last

theorem trim_extents (h : Spaced ts) (hne : ts ≠ []) {tail : List Char}
    (htail : ∀ c ∈ tail, isBlank c) :
    trim (ts.flatMap Token.extent ++ tail) = Token.spelling ts := by
  obtain ⟨t, ts, rfl⟩ := List.exists_cons_of_ne_nil hne
  have hh := h.trim_padded hne (h.gap_blank List.mem_cons_self) htail
  simpa [Token.spelling, Token.extent] using hh

/-- Behind blanks the next token begins. -/
theorem afterBlanks?_extents (h : Spaced (u :: us)) (hne : u.gap ≠ []) :
    Legacy.afterBlanks? ((u :: us).flatMap Token.extent) = some (Token.spelling (u :: us)) := by
  have hh := Legacy.afterBlanks?_append hne (h.gap_blank List.mem_cons_self) h.spelling_head
  simpa [Token.extent, Token.spelling] using hh

variable {word : List Char} {k : TokenKind}

theorem splitTop?_extents (hk : Spells word k) (h : Spaced (pre ++ post)) {d : Int}
    (hp : ∀ a u b, pre = a ++ u :: b → u.kind = k → d + depth a ≠ 0) :
    Legacy.splitTop? word d ((pre ++ post).flatMap Token.extent) =
      (Legacy.splitTop? word (d + depth pre) (post.flatMap Token.extent)).map
        (Legacy.prepend (pre.flatMap Token.extent)) := by
  induction pre generalizing d with
  | nil =>
    rw [List.nil_append, List.flatMap_nil, Legacy.prepend_nil, Option.map_id_fun, id_eq, depth,
      Int.add_zero]
  | cons t pre ih =>
    rw [List.cons_append] at h ⊢
    have hd : t.kind = k → d ≠ 0 := by simpa [depth] using hp [] t pre rfl
    have hgap := h.gap_blank (t := t) (by simp)
    have hrest := ih h.tail (d := d + t.kind.nesting) fun a u b he hu => by
      have hh := hp (t :: a) u b (by rw [he, List.cons_append]) hu
      rwa [depth, ← Int.add_assoc] at hh
    rw [List.flatMap_cons, Token.extent, List.append_assoc,
      Legacy.splitTop?_blanks h.stands hk hgap hd, Legacy.splitTop?_text h.stands, ← Token.kind,
      hrest, depth, ← Int.add_assoc]
    rw [List.flatMap_cons, Token.extent, Legacy.prepend_append, Legacy.prepend_append,
      Option.map_map, Option.map_map]

theorem splitTop?_spelling (hk : Spells word k) (h : Spaced (pre ++ post)) (hne : pre ≠ [])
    (hp : ∀ a u b, pre = a ++ u :: b → u.kind = k → depth a ≠ 0) :
    Legacy.splitTop? word 0 (Token.spelling (pre ++ post)) =
      (Legacy.splitTop? word (depth pre) (post.flatMap Token.extent)).map
        (Legacy.prepend (Token.spelling pre)) := by
  obtain ⟨t, pre, rfl⟩ := List.exists_cons_of_ne_nil hne
  rw [List.cons_append] at h ⊢
  have hrest := splitTop?_extents hk h.tail (d := t.kind.nesting) fun a u b he hu => by
    have hh := hp (t :: a) u b (by rw [he, List.cons_append]) hu
    rwa [depth] at hh
  rw [Token.spelling, Legacy.splitTop?_text h.stands, ← Token.kind, Int.zero_add,
    hrest, depth]
  rw [Token.spelling, Legacy.prepend_append, Option.map_map]

variable {leaf : List Token → String} {lvl : Level} {e : TagExpr}

/-- A phrase is not cut at an operator that its level does not admit. -/
theorem splitTop?_none (hk : Spells word k) (hop : k = .and ∨ k = .or) (h : Spaced ts)
    (hd : Derives leaf lvl ts e) (ha : lvl.admits k = false) :
    Legacy.splitTop? word 0 (Token.spelling ts) = none := by
  have hnil : Spaced (ts ++ []) := by rwa [List.append_nil]
  have hh := splitTop?_spelling hk hnil hd.ne_nil fun a u b he hu hz =>
    hd.not_split (by rwa [hu]) (by rwa [hu]) he hz
  rw [List.append_nil] at hh
  rw [hh]
  rfl

theorem gap_before (h : Spaced (us ++ t :: vs)) (hne : us ≠ [])
    (ht : t.kind = .and ∨ t.kind = .or) : t.gap ≠ [] := by
  obtain ⟨us', u, rfl⟩ := (List.eq_nil_or_concat us).resolve_left hne
  rw [List.concat_eq_append, List.append_assoc] at h
  exact h.apart_next.before ht

/-- A phrase is cut at the first operator that the level of what is before it does not admit. -/
theorem splitTop?_first (hk : Spells word k) (hop : k = .and ∨ k = .or)
    (h : Spaced (us ++ t :: vs)) (ht : t.kind = k) (hd : Derives leaf lvl us e)
    (ha : lvl.admits k = false) (hne : vs ≠ []) :
    Legacy.splitTop? word 0 (Token.spelling (us ++ t :: vs)) =
      some (Token.spelling us, Token.spelling vs) := by
  obtain ⟨v, vs, rfl⟩ := List.exists_cons_of_ne_nil hne
  have hgap := h.gap_before hd.ne_nil (ht ▸ hop)
  have hvgap : v.gap ≠ [] := h.apart_next.behind (by rcases hop with rfl | rfl <;> simp [ht])
  have hright : Spaced (t :: v :: vs) := h.right
  have hblank := hright.gap_blank List.mem_cons_self
  have hop' := Legacy.afterOperator?_this hright.stands hk hgap hblank ht
  rw [hright.tail.afterBlanks?_extents hvgap] at hop'
  have hhere : Legacy.splitTop? word 0 ((t :: v :: vs).flatMap Token.extent) =
      some ([], Token.spelling (v :: vs)) := by
    rw [List.flatMap_cons, Token.extent, List.append_assoc]
    obtain ⟨c, g, hg⟩ := List.exists_cons_of_ne_nil hgap
    have hc : Legacy.depthAfter 0 c = 0 :=
      Legacy.foldl_depthAfter_blank (g := [c]) (by simpa using hblank c (by simp [hg])) 0
    rw [hg, List.cons_append] at hop' ⊢
    simp only [Legacy.splitTop?, hc, if_true, hop']
  rw [splitTop?_spelling hk h hd.ne_nil fun a u b he hu hz =>
    hd.not_split (by rwa [hu]) (by rwa [hu]) he hz, hd.depth_eq, hhere]
  simp [Legacy.prepend]

theorem quiet_extents (h : Spaced ts) : Legacy.Quiet (ts.flatMap Token.extent) := by
  induction ts with
  | nil => exact .nil
  | cons t ts ih =>
    rw [List.flatMap_cons, Token.extent, List.append_assoc]
    refine .token h.stands (h.gap_blank List.mem_cons_self) (fun hand s hs => ?_) (ih h.tail)
    cases ts with
    | nil => cases hs
    | cons u ts =>
      have hapart : t.Apart u := (List.isChain_cons_cons.mp h.apart).1
      rw [h.tail.afterBlanks?_extents (hapart.behind (.inl hand))] at hs
      obtain rfl := Option.some.inj hs
      cases hn : Legacy.afterNot? (Token.spelling (u :: ts)) with
      | none => rfl
      | some operand =>
        exact (hapart.noAndNot hand (Legacy.afterNot?_stands h.tail.stands hn)).elim

/-- No `and not` is found, since none is spelled by two tokens. -/
theorem splitAndNot?_none (h : Spaced ts) : Legacy.splitAndNot? (Token.spelling ts) = none := by
  apply Legacy.splitAndNot?_eq_none
  cases ts with
  | nil => exact .nil
  | cons t ts => exact h.tail.quiet_extents.text h.stands

/-- Within a phrase, and in the blanks behind it, at least the groups are open that were open
before it. -/
theorem foldl_depthAfter_pos (h : Spaced (ts ++ post)) {g p q : List Char}
    (hg : ∀ c ∈ g, isBlank c) {d : Int} (hp : ∀ a b, ts = a ++ b → 0 < d + depth a)
    (he : p ++ q = ts.flatMap Token.extent ++ g) : 0 < p.foldl Legacy.depthAfter d := by
  induction ts generalizing p d with
  | nil =>
    have hd := hp [] [] rfl
    rw [depth, Int.add_zero] at hd
    rw [List.flatMap_nil, List.nil_append] at he
    have hblank : ∀ c ∈ p, isBlank c := fun c hc => hg c (by rw [← he]; exact List.mem_append_left q hc)
    rwa [Legacy.foldl_depthAfter_blank hblank]
  | cons t ts ih =>
    rw [List.cons_append] at h
    have hd : 0 < d := by simpa [depth] using hp [] (t :: ts) rfl
    have hgap := h.gap_blank List.mem_cons_self
    have hflat : ∀ v : List Char, v ⊆ t.gap → v.foldl Legacy.depthAfter d = d := fun v hv =>
      Legacy.foldl_depthAfter_blank (fun c hc => hgap c (hv hc)) d
    simp only [List.flatMap_cons, Token.extent, List.append_assoc] at he
    -- `p` ends in the blanks before the first token, behind its text, or inside it
    rcases List.append_eq_append_iff.mp he with ⟨m, hgm, -⟩ | ⟨m, rfl, hm⟩
    · rw [hflat p (by simp [hgm])]
      exact hd
    · rw [List.foldl_append, hflat t.gap (List.Subset.refl _)]
      rcases List.append_eq_append_iff.mp hm with ⟨n, rfl, hn⟩ | ⟨n, htext, -⟩
      · rw [List.foldl_append, Legacy.foldl_depthAfter_text h.stands]
        refine ih h.tail (fun a b hab => ?_) hn.symm
        have hh := hp (t :: a) b (by rw [hab, List.cons_append])
        rwa [depth, ← Int.add_assoc] at hh
      · by_cases hn : n = []
        · rw [hn, List.append_nil] at htext
          rw [← htext, Legacy.foldl_depthAfter_text h.stands]
          simpa [depth, Token.kind] using hp [t] ts rfl
        · -- a text that is cut in two is a word
          have hw : ∀ c ∈ m, isParen c = false := by
            rcases h.stands.formed with ⟨c, -, hc⟩ | ⟨-, hw⟩
            · rw [hc] at htext
              cases m with
              | nil => simp
              | cons a m => simp [hn] at htext
            · exact fun c hc =>
                not_isParen_of_isWordChar (hw c (by rw [htext]; exact List.mem_append_left n hc))
          rwa [Legacy.foldl_depthAfter_flat hw]

theorem foldl_depthAfter_spelling (h : Spaced ts) :
    (Token.spelling ts).foldl Legacy.depthAfter 0 = depth ts := by
  have hext : ∀ us, Spaced us → ∀ d : Int,
      (us.flatMap Token.extent).foldl Legacy.depthAfter d = d + depth us := by
    intro us hus
    induction us with
    | nil => simp [depth]
    | cons u us ih =>
      intro d
      have hgap := hus.gap_blank List.mem_cons_self
      rw [List.flatMap_cons, Token.extent, List.foldl_append, List.foldl_append,
        Legacy.foldl_depthAfter_blank hgap, Legacy.foldl_depthAfter_text hus.stands, ih hus.tail,
        depth, ← Int.add_assoc, Token.kind]
  cases ts with
  | nil => rfl
  | cons t ts =>
    rw [Token.spelling, List.foldl_append, Legacy.foldl_depthAfter_text h.stands, hext ts h.tail,
      Int.zero_add, depth, Token.kind]

/-- A group is taken as one. -/
theorem encloses_group {o c : Token} (h : Spaced (o :: (ts ++ [c]))) (ho : o.kind = .opening)
    (hc : c.kind = .closing) (hd : Derives leaf lvl ts e) :
    Legacy.encloses (Token.spelling (o :: (ts ++ [c]))) = true := by
  have hs : Token.spelling (o :: (ts ++ [c])) =
      '(' :: (ts.flatMap Token.extent ++ c.gap ++ [')']) := Token.spelling_group ho hc
  have hdepth : ∀ a b, ts = a ++ b → 0 < 1 + depth a := by
    intro a b hab
    have hle : 0 ≤ depth a := by
      cases b with
      | nil =>
        rw [List.append_nil] at hab
        rw [← hab]
        exact Int.le_of_eq hd.depth_eq.symm
      | cons t b => exact (hd.depth_before hab).1
    omega
  have hopen : Legacy.staysOpen 0 (Token.spelling (o :: (ts ++ [c]))) = true := by
    rw [Legacy.staysOpen_iff, hs]
    intro p q he hne hq
    obtain ⟨x, p, rfl⟩ := List.exists_cons_of_ne_nil hne
    obtain ⟨rfl, hrest⟩ := List.cons.inj he
    obtain ⟨q', y, rfl⟩ := (List.eq_nil_or_concat q).resolve_left (by rintro rfl; simp at hq)
    change ts.flatMap Token.extent ++ c.gap ++ [')'] = p ++ q'.concat y at hrest
    rw [List.concat_eq_append, ← List.append_assoc] at hrest
    have hp := h.tail.foldl_depthAfter_pos (h.gap_blank (t := c) (by simp)) hdepth
      (List.append_inj' hrest rfl).1.symm
    rw [List.foldl_cons]
    exact Int.ne_of_gt hp
  rw [Legacy.encloses, hopen, hs, ← List.cons_append, List.getLast?_concat]
  rfl

/-- A phrase with an operator outside its groups is not taken as a group. -/
theorem encloses_operator (h : Spaced (us ++ t :: vs)) (hd : Derives leaf lvl us e)
    (hgap : t.gap ≠ []) : Legacy.encloses (Token.spelling (us ++ t :: vs)) = false := by
  apply Bool.eq_false_iff.mpr
  intro henc
  rw [Legacy.encloses, Bool.and_eq_true, Legacy.staysOpen_iff] at henc
  have hright : Spaced (t :: vs) := h.right
  have htext := List.length_pos_of_ne_nil hright.stands.ne_nil
  have hlen := List.length_pos_of_ne_nil hgap
  refine henc.2 (Token.spelling us) ((t :: vs).flatMap Token.extent)
    (Token.spelling_append hd.ne_nil _) (h.left.spelling_ne_nil hd.ne_nil) ?_ ?_
  · simp only [List.flatMap_cons, Token.extent, List.length_append]
    omega
  · rw [h.left.foldl_depthAfter_spelling, hd.depth_eq]

theorem encloses_head (h : Spaced (t :: ts)) (ht : t.kind ≠ .opening) :
    Legacy.encloses (Token.spelling (t :: ts)) = false := by
  have hhead : (Token.spelling (t :: ts)).head? ≠ some '(' := by
    intro hh
    rcases h.stands.formed with ⟨c, -, hc⟩ | ⟨hne, hw⟩
    · rw [Token.spelling, hc, List.singleton_append, List.head?_cons, Option.some.injEq] at hh
      exact ht (by rw [Token.kind, hc, hh]; rfl)
    · obtain ⟨a, w, hw'⟩ := List.exists_cons_of_ne_nil hne
      simp only [Token.spelling, hw', List.cons_append, List.head?_cons, Option.some.injEq] at hh
      have ha := hw a (by simp [hw'])
      rw [hh] at ha
      cases ha
  simp [Legacy.encloses, hhead]

/-- The operand of a `not` is all that follows it. -/
theorem afterNot?_spelling (h : Spaced (t :: ts)) (ht : t.kind = .not) (hne : ts ≠ []) :
    Legacy.afterNot? (Token.spelling (t :: ts)) = some (Token.spelling ts) := by
  obtain ⟨u, us, rfl⟩ := List.exists_cons_of_ne_nil hne
  have hapart : t.Apart u := (List.isChain_cons_cons.mp h.apart).1
  have hword : Legacy.afterWord? ['n', 'o', 't'] (Token.spelling (t :: u :: us)) =
      some ((u :: us).flatMap Token.extent) := by
    simp [Legacy.afterWord?, Token.spelling, not_text ht]
  have hline : (Token.spelling (u :: us)).contains '\n' = false := by
    apply Bool.eq_false_iff.mpr
    intro hm
    apply h.line
    rw [List.contains_iff_mem] at hm
    simp only [Token.spelling, List.mem_append] at hm
    simp only [List.flatMap_cons, Token.extent, List.mem_append]
    tauto
  rw [Legacy.afterNot?, hword, Option.bind_some,
    h.tail.afterBlanks?_extents (hapart.behind (by simp [ht])), Option.bind_some, Legacy.line?,
    hline, List.isEmpty_eq_false_iff.mpr (h.tail.spelling_ne_nil hne)]
  rfl

end Spaced

end SuitePlan
