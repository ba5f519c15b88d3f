import SuitePlan.Proofs.Browser.Modes

/-! A `not` before the marker in the search of the text. The search needs a blank directly behind the
`not`, and a group needs none to follow. -/

namespace SuitePlan

variable {s : String}

theorem isBlankText_eq_false {c : Char} (hc : c ∈ s.toList) (hb : isBlank c = false) :
    isBlankText s = false := by
  rw [isBlankText, List.all_eq_false]
  exact ⟨c, hc, by simp [hb]⟩

/-- The text behind a token is where an occurrence lies that begins no earlier. -/
theorem Cut.infix_behind {s m a b : List Char} {pre post : List Token} {t : Token}
    (h : Cut 0 s (pre ++ t :: post)) (hab : s = a ++ (m ++ b)) (hbefore : t.stop ≤ byteSize a) :
    ∃ r, s = (pre ++ [t]).flatMap Token.extent ++ r ∧ m <:+: r := by
  obtain ⟨tail, -, hs⟩ := h.spelled
  have hspan : s = (pre ++ [t]).flatMap Token.extent ++ (post.flatMap Token.extent ++ tail) := by
    simp [hs]
  rw [h.stop_eq, Nat.zero_add] at hbefore
  obtain ⟨x, rfl⟩ := prefix_of_byteSize_le (hspan.symm.trans hab) hbefore
  rw [List.append_assoc] at hab
  exact ⟨x ++ (m ++ b), hab, x, b, List.append_assoc x m b⟩

namespace BrowserRule

variable {marker : String} {r : Option TagExpr} {pre post : List Token} {t : Token} {a b : List Char}

/-- A `not` before the marker leads to Chrome if a blank follows it. Otherwise a group does, and then it
takes another `not`, with a blank, or a marker that nowhere stands by itself. -/
theorem pattern_behind_not (g : Grammar) (hm : IsMarker marker.toList)
    (hs : Grammar.precedence.parse s = .ok r) (hline : '\n' ∉ s.toList)
    (hts : tokensOf s.toList = pre ++ t :: post) (ht : t.kind = .not)
    (hab : s.toList = a ++ (marker.toList ++ b)) (hbefore : t.stop ≤ byteSize a) :
    ∃ u us, post = u :: us ∧ (u.gap ≠ [] ∨ u.kind = .opening) ∧
      (u.gap ≠ [] → (⟨marker, .pattern, g⟩ : BrowserRule).select (some s) = some .chrome) ∧
      ((⟨marker, .pattern, g⟩ : BrowserRule).select (some s) = some .chrome ↔
        (∃ a c b, s.toList = a ++ 'n' :: 'o' :: 't' :: c :: b ∧ isBlank c ∧ marker.toList <:+: b) ∨
          ¬ Pattern.StandsAlone marker.toList s.toList) := by
  have hcut := tokensOf_cut s.toList
  rw [hts] at hcut
  obtain ⟨d, x, hd⟩ := List.exists_cons_of_ne_nil hm.nonempty
  have hblank : isBlankText s = false :=
    isBlankText_eq_false (c := d) (by simp [hab, hd]) (hm.plain d (by simp [hd])).1
  obtain ⟨e, rfl⟩ := exists_of_accepted hs hblank
  have hparse : Precedence.parseTokens (pre ++ t :: post) = .ok (some e) := hts ▸ hs
  obtain ⟨u, us, rfl, hgroup⟩ := hcut.exists_after_not hparse ht
  have hchrome : (⟨marker, .pattern, g⟩ : BrowserRule).select (some s) = some .chrome ↔
      Pattern.Negated marker.toList s.toList ∨ ¬ Pattern.StandsAlone marker.toList s.toList := by
    simp only [select, hblank, Bool.false_eq_true, if_false, Option.some.injEq,
      Pattern.browser_eq_chrome_iff]
  refine ⟨u, us, rfl, or_iff_not_imp_left.mpr fun hgap => hgroup (not_not.mp hgap), fun hgap => ?_, ?_⟩
  · obtain ⟨rest, hrest, hi⟩ := hcut.infix_behind hab hbefore
    exact hchrome.mpr (.inl (hcut.negated_of_not hm hline ht hgap hrest hi))
  · rw [hchrome, Pattern.negated_iff_of_line hline]

theorem pattern_behind_not_group :
    (⟨"@BE", .pattern, .precedence⟩ : BrowserRule).select (some "not (@X or @BE)") =
      some .chrome := by
  have hs : Grammar.precedence.parse "not (@X or @BE)" =
      .ok (some (.not (.or (.tag "@X") (.tag "@BE")))) := by decide +kernel
  have hts : tokensOf "not (@X or @BE)".toList = [] ++ ⟨[], 0, "not".toList⟩ ::
      [⟨[' '], 4, ['(']⟩, ⟨[], 5, "@X".toList⟩, ⟨[' '], 8, "or".toList⟩,
        ⟨[' '], 11, "@BE".toList⟩, ⟨[], 14, [')']⟩] := by decide +kernel
  obtain ⟨u, us, hpost, -, hchrome, -⟩ := pattern_behind_not (a := "not (@X or ".toList) (b := [')'])
    .precedence isMarker_default hs (by decide) hts (by decide) (by decide) (by decide)
  obtain ⟨rfl, -⟩ := List.cons.inj hpost
  exact hchrome (by decide)

/-- A group that touches its `not` hides the `not` from the search of the text. -/
theorem glued_not_overlooked :
    IsMarker "@BE".toList ∧ '\n' ∉ "not(@BE)".toList ∧
      Grammar.precedence.parse "not(@BE)" = .ok (some (.not (.tag "@BE"))) ∧
      (∃ t ∈ tokensOf "not(@BE)".toList, t.kind = .not ∧ t.stop ≤ byteSize "not(".toList) ∧
      "not(@BE)".toList = "not(".toList ++ ("@BE".toList ++ [')']) ∧
      (⟨"@BE", .pattern, .precedence⟩ : BrowserRule).select (some "not(@BE)") = some .electron ∧
      (⟨"@BE", .expression, .precedence⟩ : BrowserRule).select (some "not(@BE)") = some .chrome := by
  refine ⟨isMarker_default, ?_⟩
  decide +kernel

end BrowserRule

end SuitePlan
