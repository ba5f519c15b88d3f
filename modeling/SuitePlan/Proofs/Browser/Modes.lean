import SuitePlan.Proofs.Browser.Mentions
import SuitePlan.Proofs.TagExpr.Grouping
import SuitePlan.Proofs.TagExpr.LegacyPhrase

/-! The two ways to look for the marker, on a text that is an expression. The search of the text finds
the words that name the marker, and a `not` before one of them unless a group follows it directly. -/

namespace SuitePlan

namespace Cut

variable {i : Nat} {s : List Char} {pre post ts : List Token} {t u : Token} {e : TagExpr}

theorem before_word (h : Cut i s (pre ++ t :: post))
    (hp : Precedence.parseTokens (pre ++ t :: post) = .ok (some e)) (ht : t.kind = .word) :
    ∀ c ∈ (pre.flatMap Token.extent ++ t.gap).getLast?, isBlank c ∨ c = '(' := by
  intro c hc
  rcases h.last_before c hc with hb | ⟨hgap, before, u, rfl, hu⟩
  · exact .inl hb
  · rw [List.append_assoc, List.singleton_append] at h hp
    rw [opening_text (h.opening_before_word hp ht hgap), List.getLast?_singleton,
      Option.mem_some] at hu
    exact .inr hu.symm

theorem after_word (h : Cut i s (pre ++ t :: post))
    (hp : Precedence.parseTokens (pre ++ t :: post) = .ok (some e)) (ht : t.kind = .word)
    {tail : List Char} (htail : ∀ c ∈ tail, isBlank c) :
    ∀ c ∈ (post.flatMap Token.extent ++ tail).head?, isBlank c ∨ c = ')' := by
  intro c hc
  rcases h.head_behind htail c hc with hb | ⟨u, us, rfl, hgap, hu⟩
  · exact .inl hb
  · rw [closing_text (h.closing_after_word hp ht hgap), List.head?_cons, Option.mem_some] at hu
    exact .inr hu.symm

variable {m : List Char}

/-- A word of an accepted text that names the marker is a place where the marker stands by itself. -/
theorem standsAlone_of_names (hm : IsMarker m) (h : Cut i s ts)
    (hp : Precedence.parseTokens ts = .ok (some e)) (ht : t ∈ ts) (hn : t.Names m) :
    Pattern.StandsAlone m s := by
  obtain ⟨pre, post, rfl⟩ := List.append_of_mem ht
  obtain ⟨tail, htail, hs⟩ := h.spelled
  have hbefore := h.before_word hp hn.1
  have hafter := h.after_word hp hn.1 htail
  obtain ⟨x, y, htext, hx, hy⟩ := (mem_pieces_iff fun c hc => by simp [hm.plain c hc]).mp hn.2
  -- on either side the marker reaches a comma or the edge of its word
  refine ⟨pre.flatMap Token.extent ++ t.gap ++ x, y ++ (post.flatMap Token.extent ++ tail),
    by simp [hs, Token.extent, htext], fun c hc => ?_, .inl fun c hc => ?_⟩
  · cases x using List.reverseRecOn with
    | nil =>
      rw [List.append_nil] at hc
      exact (hbefore c hc).imp_right .inr
    | append_singleton x d =>
      rw [← List.append_assoc, List.getLast?_concat, Option.mem_some] at hc
      exact .inr (.inl (by simpa [hc] using hx))
  · cases y with
    | nil => exact (hafter c hc).imp_right .inr
    | cons d y =>
      rw [List.cons_append, List.head?_cons, Option.mem_some] at hc
      exact .inr (.inl (by simpa [hc] using hy))

theorem exists_names_of_standsAlone (hm : IsMarker m) (h : Cut i s ts)
    (hglued : ¬ Pattern.Glued m s) (ha : Pattern.StandsAlone m s) :
    ∃ t ∈ ts, t.Names m := by
  obtain ⟨a, b, rfl, ha, hb⟩ := ha
  have hb := hb.resolve_right fun ho => hglued ⟨a, b, rfl, ho⟩
  refine (h.exists_names_iff hm).mp ((mem_pieces_iff hm.not_isSeparator).mpr ⟨a, b, rfl, ?_, ?_⟩)
  · intro c hc
    rcases ha c hc with hc | rfl | rfl
    · exact isSeparator_of_isBlank hc
    · rfl
    · rfl
  · intro c hc
    rcases hb c hc with hc | rfl | rfl
    · exact isSeparator_of_isBlank hc
    · rfl
    · rfl

/-- A `not` with a blank behind it negates what comes later on the line. -/
theorem negated_of_not (hm : IsMarker m) (h : Cut i s (pre ++ t :: u :: post)) (hline : '\n' ∉ s)
    (ht : t.kind = .not) (hgap : u.gap ≠ []) {r : List Char}
    (hr : s = (pre ++ [t]).flatMap Token.extent ++ r) (hi : m <:+: r) : Pattern.Negated m s := by
  obtain ⟨tail, -, hs⟩ := h.spelled
  obtain ⟨c, g, hg⟩ := List.exists_cons_of_ne_nil hgap
  have hc : isBlank c := h.gap_blank (t := u) (by simp) c (by simp [hg])
  obtain ⟨rest, rfl⟩ : ∃ rest, r = c :: rest := by
    refine ⟨g ++ (u.text ++ (post.flatMap Token.extent ++ tail)), ?_⟩
    refine List.append_cancel_left (hr.symm.trans (hs.trans ?_))
    simp [Token.extent, hg]
  rw [Pattern.negated_iff_of_line hline]
  refine ⟨pre.flatMap Token.extent ++ t.gap, c, rest, ?_, hc, ?_⟩
  · simp [hr, Token.extent, not_text ht]
  · -- the blank that the search takes is no part of the marker
    refine (List.infix_cons_iff.mp hi).resolve_left ?_
    obtain ⟨d, x, hx⟩ := List.exists_cons_of_ne_nil hm.nonempty
    rw [hx, List.cons_prefix_cons]
    rintro ⟨rfl, -⟩
    have hd := (hm.plain d (by simp [hx])).1
    rw [hc] at hd
    cases hd

end Cut

theorem TagExpr.browser_eq_electron_iff {marker : String} {e : TagExpr} :
    e.browser marker = .electron ↔ e.mentions marker false = false ∧ e.mentions marker true = true := by
  unfold TagExpr.browser
  cases e.mentions marker false <;> cases e.mentions marker true <;> simp

theorem Browser.eq_of_electron_iff {x y : Browser} (h : x = .electron ↔ y = .electron) : x = y := by
  cases x <;> cases y <;> simp_all

section Parsed

variable {marker s : String} {e : TagExpr}

theorem mentions_iff_standsAlone (hm : IsMarker marker.toList)
    (hs : Grammar.precedence.parse s = .ok (some e))
    (hglued : ¬ Pattern.Glued marker.toList s.toList) :
    e.mentions marker true = true ∨ e.mentions marker false = true ↔
      Pattern.StandsAlone marker.toList s.toList := by
  have hcut := tokensOf_cut s.toList
  rw [(derives_of_parseTokens hs).mentions_iff (leavesName_tokens hm _)]
  constructor
  · rintro ⟨t, ht, hn⟩
    exact hcut.standsAlone_of_names hm hs ht hn
  · exact hcut.exists_names_of_standsAlone hm hglued

/-- When blanks follow each `not`, the search of the text finds the one before a negated leaf. -/
theorem negated_of_mentions (hm : IsMarker marker.toList)
    (hs : Grammar.precedence.parse s = .ok (some e)) (hline : '\n' ∉ s.toList)
    (hnot : (tokensOf s.toList).IsChain fun t u => t.kind = .not → u.gap ≠ [])
    (hneg : e.mentions marker false = true) : Pattern.Negated marker.toList s.toList := by
  have hcut := tokensOf_cut s.toList
  obtain ⟨pre, t, post, hts, ht, u, hu, hn⟩ :=
    (derives_of_parseTokens hs).not_before_mention (leavesName_tokens hm _) hneg
  obtain ⟨v, vs, rfl⟩ := List.exists_cons_of_ne_nil (List.ne_nil_of_mem hu)
  rw [hts] at hcut hnot
  obtain ⟨tail, -, htext⟩ := hcut.spelled
  have hgap : v.gap ≠ [] := (List.isChain_append_cons_cons.mp hnot).2.1 ht
  refine hcut.negated_of_not hm hline ht hgap (r := (v :: vs).flatMap Token.extent ++ tail)
    (by simp [htext]) ?_
  obtain ⟨x, y, hxy, -, -⟩ := exists_of_mem_pieces hn.2
  obtain ⟨before, after, hmem⟩ := List.append_of_mem hu
  rw [hmem]
  exact ⟨before.flatMap Token.extent ++ (u.gap ++ x),
    y ++ (after.flatMap Token.extent ++ tail), by simp [Token.extent, hxy]⟩

end Parsed

namespace BrowserRule

variable {marker s : String} {r : Option TagExpr}

/-- Where blanks follow each `not` and no operator touches the marker, the search of the text is the
more careful of the two. It never chooses Electron alone, and without a `not` both choose the same. -/
theorem pattern_safe (g : Grammar) (hm : IsMarker marker.toList)
    (hs : Grammar.precedence.parse s = .ok r) (hline : '\n' ∉ s.toList)
    (hnot : (tokensOf s.toList).IsChain fun t u => t.kind = .not → u.gap ≠ [])
    (hglued : ¬ Pattern.Glued marker.toList s.toList) :
    ((⟨marker, .pattern, g⟩ : BrowserRule).select (some s) = some .electron →
        (⟨marker, .expression, .precedence⟩ : BrowserRule).select (some s) = some .electron) ∧
      ((∀ a c b, isBlank c → s.toList ≠ a ++ 'n' :: 'o' :: 't' :: c :: b) →
        (⟨marker, .pattern, g⟩ : BrowserRule).select (some s) =
          (⟨marker, .expression, .precedence⟩ : BrowserRule).select (some s)) := by
  cases hblank : isBlankText s with
  | true => simp [select, hblank]
  | false =>
    obtain ⟨e, rfl⟩ := exists_of_accepted hs hblank
    have halone := mentions_iff_standsAlone hm hs hglued
    have hneg := negated_of_mentions hm hs hline hnot
    have hexpr : (⟨marker, .expression, .precedence⟩ : BrowserRule).ofExpression s =
        e.browser marker := by
      rw [ofExpression, hs]
    simp only [select, hblank, Bool.false_eq_true, if_false, hexpr, Option.some.injEq]
    constructor
    · rw [Pattern.browser_eq_electron_iff, TagExpr.browser_eq_electron_iff]
      rintro ⟨hn, ha⟩
      have hfalse : ¬ e.mentions marker false = true := fun h => hn (hneg h)
      exact ⟨Bool.eq_false_iff.mpr hfalse, (halone.mpr ha).resolve_right hfalse⟩
    · intro hno
      have hn : ¬ Pattern.Negated marker.toList s.toList := by
        rw [Pattern.negated_iff_of_line hline]
        rintro ⟨a, c, b, htext, hc, -⟩
        exact hno a c b hc htext
      have hfalse : ¬ e.mentions marker false = true := fun h => hn (hneg h)
      apply Browser.eq_of_electron_iff
      rw [Pattern.browser_eq_electron_iff, TagExpr.browser_eq_electron_iff, and_iff_right hn,
        and_iff_right (Bool.eq_false_iff.mpr hfalse), ← halone, or_iff_left hfalse]

theorem pattern_safe_negation_elsewhere :
    IsMarker "@BE".toList ∧
      (⟨"@BE", .pattern, .legacy⟩ : BrowserRule).select (some "@X,@BE or (not @UI and b)") =
        some .electron ∧
      (⟨"@BE", .expression, .precedence⟩ : BrowserRule).select (some "@X,@BE or (not @UI and b)") =
        some .electron := by
  have hs : Grammar.precedence.parse "@X,@BE or (not @UI and b)" =
      .ok (some (.or (.tag "@X,@BE") (.and (.not (.tag "@UI")) (.tag "b")))) := by decide +kernel
  have hpattern : (⟨"@BE", .pattern, .legacy⟩ : BrowserRule).select
      (some "@X,@BE or (not @UI and b)") = some .electron := by decide +kernel
  have hsafe := pattern_safe .legacy isMarker_default hs (by decide) (by decide +kernel)
    (by decide +kernel)
  exact ⟨isMarker_default, hpattern, hsafe.1 hpattern⟩

end BrowserRule

end SuitePlan
