import SuitePlan.Proofs.Browser.Modes
import SuitePlan.Proofs.TagExpr.LegacyMeaning

/-! What the choice of the browser means for the tags. A leaf under an even number of negations can only
gain by another tag, and a leaf under an odd number can only lose. Electron is chosen where the marker
has leaves of the first kind alone, so the marker never stands in the way of a feature that matched. -/

namespace SuitePlan

/-- The tags of `more` are those of `tags` and the marker. -/
def AddsTag (marker : Tag) (tags more : List Tag) : Prop := ∀ t, t ∈ more ↔ t = marker ∨ t ∈ tags

namespace AddsTag

variable {marker : Tag} {tags more : List Tag} {v : String}

theorem any_same (h : AddsTag marker tags more) (ht : tags.any (Tag.same · v) = true) :
    more.any (Tag.same · v) = true := by
  obtain ⟨t, ht, hs⟩ := List.any_eq_true.mp ht
  exact List.any_eq_true.mpr ⟨t, (h t).mpr (.inr ht), hs⟩

/-- Another tag does not decide about a leaf. -/
theorem any_same_of_ne (h : AddsTag marker tags more) (hv : Tag.same marker v = false)
    (hm : more.any (Tag.same · v) = true) : tags.any (Tag.same · v) = true := by
  obtain ⟨t, ht, hs⟩ := List.any_eq_true.mp hm
  rcases (h t).mp ht with rfl | ht
  · rw [hv] at hs
    cases hs
  · exact List.any_eq_true.mpr ⟨t, ht, hs⟩

end AddsTag

/-- A text that has an expression is not blank. -/
theorem Grammar.isBlankText_of_parse {g : Grammar} {s : String} {e : TagExpr}
    (h : g.parse s = .ok (some e)) : isBlankText s = false := by
  cases g with
  | precedence => exact isBlankText_of_accepted h
  | legacy =>
    refine Bool.eq_false_iff.mpr fun hb => ?_
    have hempty := (Legacy.trim_isEmpty_iff s.toList).mpr (List.all_eq_true.mp hb)
    have hnone : Legacy.parse s.toList = none := by rw [Legacy.parse_eq, hempty, if_pos rfl]
    cases (congrArg Except.ok hnone).symm.trans h

namespace TagExpr

variable {marker : String} {e : TagExpr} {even : Bool} {tags more : List Tag}

theorem exists_leaf_of_mentions (h : e.mentions marker even = true) :
    ∃ v ∈ e.leaves, names marker v = true := by
  induction e generalizing even with
  | tag v =>
    rw [mentions, Bool.and_eq_true] at h
    exact ⟨v, List.mem_singleton_self v, h.2⟩
  | and l r ihl ihr | or l r ihl ihr =>
    rw [mentions, Bool.or_eq_true] at h
    rcases h with h | h
    · obtain ⟨v, hv, hn⟩ := ihl h
      exact ⟨v, List.mem_append_left _ hv, hn⟩
    · obtain ⟨v, hv, hn⟩ := ihr h
      exact ⟨v, List.mem_append_right _ hv, hn⟩
  | not e ih => exact ih h
  | unknown => cases h

/-- Where each leaf that may be the marker names it, adding the marker keeps an expression true that does
not negate it, and keeps an expression false that nowhere affirms it. -/
theorem eval_adds (hadd : AddsTag marker tags more)
    (hleaf : ∀ v ∈ e.leaves, names marker v = true ∨ Tag.same marker v = false) :
    (e.mentions marker false = false → e.eval tags = true → e.eval more = true) ∧
      (e.mentions marker true = false → e.eval more = true → e.eval tags = true) := by
  induction e with
  | tag v =>
    refine ⟨fun _ => hadd.any_same, fun hn => hadd.any_same_of_ne ?_⟩
    rw [mentions, Bool.true_and] at hn
    exact (hleaf v (List.mem_singleton_self v)).resolve_left (by simp [hn])
  | and l r ihl ihr =>
    have hl := ihl fun v hv => hleaf v (List.mem_append_left _ hv)
    have hr := ihr fun v hv => hleaf v (List.mem_append_right _ hv)
    simp only [mentions, eval, Bool.or_eq_false_iff, Bool.and_eq_true]
    exact ⟨fun hn he => ⟨hl.1 hn.1 he.1, hr.1 hn.2 he.2⟩,
      fun hn he => ⟨hl.2 hn.1 he.1, hr.2 hn.2 he.2⟩⟩
  | or l r ihl ihr =>
    have hl := ihl fun v hv => hleaf v (List.mem_append_left _ hv)
    have hr := ihr fun v hv => hleaf v (List.mem_append_right _ hv)
    simp only [mentions, eval, Bool.or_eq_false_iff, Bool.or_eq_true]
    exact ⟨fun hn => Or.imp (hl.1 hn.1) (hr.1 hn.2), fun hn => Or.imp (hl.2 hn.1) (hr.2 hn.2)⟩
  | not e ih =>
    -- below a negation what keeps the expression true keeps the operand false
    have he := ih hleaf
    simp only [mentions, eval, Bool.not_false, Bool.not_true, Bool.not_eq_true']
    refine ⟨fun hn hf => ?_, fun hn hf => ?_⟩
    · exact Bool.eq_false_iff.mpr fun ht => Bool.eq_false_iff.mp hf (he.2 hn ht)
    · exact Bool.eq_false_iff.mpr fun ht => Bool.eq_false_iff.mp hf (he.1 hn ht)
  | unknown => exact ⟨fun _ h => h, fun _ h => h⟩

end TagExpr

namespace BrowserRule

variable {marker s : String} {e : TagExpr}

theorem select_expression {g : Grammar} (hs : g.parse s = .ok (some e)) :
    (⟨marker, .expression, g⟩ : BrowserRule).select (some s) = some (e.browser marker) := by
  simp only [select, Grammar.isBlankText_of_parse hs, Bool.false_eq_true, if_false, ofExpression, hs]

/-- Let each leaf be the marker or not name it and be another tag. Electron is chosen only if the marker
is a leaf and a feature that satisfies the expression still does so with the marker added. If the marker
is no leaf, it is Chrome, and the marker makes no difference to any feature. -/
theorem browser_fits_meaning {g : Grammar} (hs : g.parse s = .ok (some e))
    (hleaves : ∀ v ∈ e.leaves, v = marker ∨ (names marker v = false ∧ Tag.same marker v = false)) :
    ((⟨marker, .expression, g⟩ : BrowserRule).select (some s) = some .electron →
        marker ∈ e.leaves ∧
          ∀ tags more, AddsTag marker tags more → e.eval tags = true → e.eval more = true) ∧
      (marker ∉ e.leaves →
        (⟨marker, .expression, g⟩ : BrowserRule).select (some s) = some .chrome ∧
          ∀ tags more, AddsTag marker tags more → e.eval more = e.eval tags) := by
  rw [select_expression hs, Option.some.injEq, Option.some.injEq, TagExpr.browser_eq_electron_iff]
  constructor
  · rintro ⟨hneg, hpos⟩
    -- some leaf names the marker, and only the marker itself does
    obtain ⟨v, hv, hn⟩ := TagExpr.exists_leaf_of_mentions hpos
    have hvm : v = marker := (hleaves v hv).resolve_right (by simp [hn])
    subst hvm
    refine ⟨hv, fun tags more hadd => (TagExpr.eval_adds hadd fun w hw => ?_).1 hneg⟩
    rcases hleaves w hw with rfl | hw
    · exact .inl hn
    · exact .inr hw.2
  · intro hno
    have hother : ∀ v ∈ e.leaves, names marker v = false ∧ Tag.same marker v = false := fun v hv =>
      (hleaves v hv).resolve_left fun h => hno (h ▸ hv)
    have hmentions : ∀ even, e.mentions marker even = false := by
      intro even
      refine Bool.eq_false_iff.mpr fun h => ?_
      obtain ⟨v, hv, hn⟩ := TagExpr.exists_leaf_of_mentions h
      exact Bool.eq_false_iff.mp (hother v hv).1 hn
    refine ⟨?_, fun tags more hadd => ?_⟩
    · rw [TagExpr.browser, hmentions false, hmentions true]
      rfl
    · have hboth := TagExpr.eval_adds hadd fun v hv => .inr (hother v hv).2
      exact Bool.eq_iff_iff.mpr ⟨hboth.2 (hmentions true), hboth.1 (hmentions false)⟩

theorem browser_fits_meaning_twice_negated :
    let s := "@SLOW and not (@UI and not @BE)"
    let e : TagExpr := .and (.tag "@SLOW") (.not (.and (.tag "@UI") (.not (.tag "@BE"))))
    Grammar.precedence.parse s = .ok (some e) ∧
      (⟨"@BE", .expression, .precedence⟩ : BrowserRule).select (some s) = some .electron ∧
      e.eval ["@slow", "@BE"] = true ∧
      (⟨"@FE", .expression, .precedence⟩ : BrowserRule).select (some s) = some .chrome ∧
      e.eval ["@FE", "@ui"] = e.eval ["@ui"] := by
  intro s e
  have hs : Grammar.precedence.parse s = .ok (some e) := by decide +kernel
  have helectron : (⟨"@BE", .expression, .precedence⟩ : BrowserRule).select (some s) =
      some .electron := by decide +kernel
  obtain ⟨hbe, -⟩ := @browser_fits_meaning "@BE" s e _ hs (by decide +kernel)
  obtain ⟨-, hfe⟩ := @browser_fits_meaning "@FE" s e _ hs (by decide +kernel)
  obtain ⟨hchrome, hsame⟩ := hfe (by decide)
  refine ⟨hs, helectron, (hbe helectron).2 ["@slow"] _ ?_ (by decide +kernel), hchrome, hsame _ _ ?_⟩
  · simp [AddsTag, or_comm]
  · simp [AddsTag]

end BrowserRule

end SuitePlan
