import SuitePlan.Proofs.TagExpr.Grouping
import SuitePlan.Proofs.TagExpr.LegacyPhrase

/-! Both grammars on the same line. The precedence grammar joins the last operator outside the
groups first and the legacy grammar the first, so their trees differ only in how operators of one
kind are associated. -/

namespace SuitePlan

namespace TagExpr

/-- The leaves from left to right, each with its polarity under the negations around it. -/
def signedLeaves (positive : Bool) : TagExpr → List (String × Bool)
  | tag value => [(value, positive)]
  | and left right => left.signedLeaves positive ++ right.signedLeaves positive
  | or left right => left.signedLeaves positive ++ right.signedLeaves positive
  | not operand => operand.signedLeaves !positive
  | unknown => []

/-- The same leaves with the same polarities, and the same truth for all tags. -/
structure Agrees (e f : TagExpr) : Prop where
  leaves : ∀ positive, e.signedLeaves positive = f.signedLeaves positive
  eval : ∀ tags, e.eval tags = f.eval tags

namespace Agrees

variable {e f g l l' r r' : TagExpr}

theorem refl (e : TagExpr) : e.Agrees e := ⟨fun _ => rfl, fun _ => rfl⟩

theorem trans (h : e.Agrees f) (h' : f.Agrees g) : e.Agrees g :=
  ⟨fun b => (h.leaves b).trans (h'.leaves b), fun tags => (h.eval tags).trans (h'.eval tags)⟩

theorem and (hl : l.Agrees l') (hr : r.Agrees r') : (TagExpr.and l r).Agrees (.and l' r') :=
  ⟨fun b => by simp only [signedLeaves, hl.leaves, hr.leaves],
    fun tags => by simp only [TagExpr.eval, hl.eval, hr.eval]⟩

theorem or (hl : l.Agrees l') (hr : r.Agrees r') : (TagExpr.or l r).Agrees (.or l' r') :=
  ⟨fun b => by simp only [signedLeaves, hl.leaves, hr.leaves],
    fun tags => by simp only [TagExpr.eval, hl.eval, hr.eval]⟩

theorem not (h : e.Agrees f) : (TagExpr.not e).Agrees (.not f) :=
  ⟨fun b => by simp only [signedLeaves, h.leaves], fun tags => by simp only [TagExpr.eval, h.eval]⟩

theorem and_assoc (e f g : TagExpr) :
    (TagExpr.and e (.and f g)).Agrees (.and (.and e f) g) :=
  ⟨fun b => by simp only [signedLeaves, List.append_assoc],
    fun tags => by simp only [TagExpr.eval, Bool.and_assoc]⟩

theorem or_assoc (e f g : TagExpr) : (TagExpr.or e (.or f g)).Agrees (.or (.or e f) g) :=
  ⟨fun b => by simp only [signedLeaves, List.append_assoc],
    fun tags => by simp only [TagExpr.eval, Bool.or_assoc]⟩

end Agrees

end TagExpr

open TagExpr (Agrees)

namespace Derives

variable {leaf : List Token → String} {ts : List Token} {e : TagExpr}

/-- A disjunction can be taken apart at its first operator instead of its last. -/
theorem first_or (h : Derives leaf .disjunction ts e) :
    Derives leaf .conjunction ts e ∨ ∃ us t vs l r, ts = us ++ t :: vs ∧ t.kind = .or ∧
      Derives leaf .conjunction us l ∧ Derives leaf .disjunction vs r ∧
      (TagExpr.or l r).Agrees e := by
  generalize hlvl : Level.disjunction = lvl at h
  induction h with
  | words | group | operand | not | conjunct | and => cases hlvl
  | disjunct h => exact .inl h
  | @or t ts us l r ht _ hr ihl _ =>
    rcases ihl rfl with hl | ⟨vs, t', ws, x, y, rfl, ht', hx, hy, ha⟩
    · exact .inr ⟨ts, t, us, l, r, rfl, ht, hl, .disjunct hr, .refl _⟩
    · refine .inr ⟨vs, t', ws ++ t :: us, x, .or y r, by simp, ht', hx, .or ht hy hr, ?_⟩
      exact (Agrees.or_assoc x y r).trans (ha.or (.refl r))

theorem first_and (h : Derives leaf .conjunction ts e) :
    Derives leaf .negation ts e ∨ ∃ us t vs l r, ts = us ++ t :: vs ∧ t.kind = .and ∧
      Derives leaf .negation us l ∧ Derives leaf .conjunction vs r ∧
      (TagExpr.and l r).Agrees e := by
  generalize hlvl : Level.conjunction = lvl at h
  induction h with
  | words | group | operand | not | disjunct | or => cases hlvl
  | conjunct h => exact .inl h
  | @and t ts us l r ht _ hr ihl _ =>
    rcases ihl rfl with hl | ⟨vs, t', ws, x, y, rfl, ht', hx, hy, ha⟩
    · exact .inr ⟨ts, t, us, l, r, rfl, ht, hl, .conjunct hr, .refl _⟩
    · refine .inr ⟨vs, t', ws ++ t :: us, x, .and y r, by simp, ht', hx, .and ht hy hr, ?_⟩
      exact (Agrees.and_assoc x y r).trans (ha.and (.refl r))

end Derives

/-- Every text that is the line of these tokens when trimmed has an expression that agrees with
`e`. -/
def LegacyReads (ts : List Token) (e : TagExpr) : Prop :=
  ∀ s, trim s = Token.spelling ts → ∃ f, Legacy.parse s = some f ∧ f.Agrees e

namespace LegacyReads

variable {ts us vs : List Token} {t : Token} {e l r : TagExpr}

theorem mono {f : TagExpr} (h : LegacyReads ts e) (ha : e.Agrees f) : LegacyReads ts f := by
  intro s hs
  obtain ⟨x, hx, hxe⟩ := h s hs
  exact ⟨x, hx, hxe.trans ha⟩

theorem spelled (h : LegacyReads ts e) (hs : Spaced ts) (hne : ts ≠ []) :
    ∃ f, Legacy.parse (Token.spelling ts) = some f ∧ f.Agrees e :=
  h _ (hs.trim_spelling hne)

theorem or (h : Spaced (us ++ t :: vs)) (ht : t.kind = .or)
    (hd : Derives Token.leaf .conjunction us l) (hne : vs ≠ []) (hl : LegacyReads us l)
    (hr : LegacyReads vs r) : LegacyReads (us ++ t :: vs) (.or l r) := by
  intro s hs
  have hright : Spaced (t :: vs) := h.right
  obtain ⟨x, hx, hxl⟩ := hl.spelled h.left hd.ne_nil
  obtain ⟨y, hy, hyr⟩ := hr.spelled hright.tail hne
  have hnil := List.isEmpty_eq_false_iff.mpr (h.spelling_ne_nil (by simp))
  have henc := h.encloses_operator hd (h.gap_before hd.ne_nil (.inr ht))
  have hcut := h.splitTop?_first spells_or (.inr rfl) ht hd rfl hne
  refine ⟨.or x y, ?_, hxl.or hyr⟩
  rw [Legacy.parse_eq, hs, hnil, henc, h.splitAndNot?_none, hcut]
  simp [hx, hy, Legacy.either]

theorem and (h : Spaced (us ++ t :: vs)) (ht : t.kind = .and)
    (hd : Derives Token.leaf .negation us l)
    (hall : Derives Token.leaf .conjunction (us ++ t :: vs) e) (hne : vs ≠ [])
    (hl : LegacyReads us l) (hr : LegacyReads vs r) :
    LegacyReads (us ++ t :: vs) (.and l r) := by
  intro s hs
  have hright : Spaced (t :: vs) := h.right
  obtain ⟨x, hx, hxl⟩ := hl.spelled h.left hd.ne_nil
  obtain ⟨y, hy, hyr⟩ := hr.spelled hright.tail hne
  have hnil := List.isEmpty_eq_false_iff.mpr (h.spelling_ne_nil (by simp))
  have henc := h.encloses_operator hd (h.gap_before hd.ne_nil (.inl ht))
  have hor := h.splitTop?_none spells_or (.inr rfl) hall rfl
  have hcut := h.splitTop?_first spells_and (.inl rfl) ht hd rfl hne
  refine ⟨.and x y, ?_, hxl.and hyr⟩
  rw [Legacy.parse_eq, hs, hnil, henc, h.splitAndNot?_none, hor, hcut]
  simp [hx, hy, Legacy.both]

theorem not (h : Spaced (t :: ts)) (ht : t.kind = .not) (hd : Derives Token.leaf .negation ts e)
    (he : LegacyReads ts e) : LegacyReads (t :: ts) (.not e) := by
  intro s hs
  obtain ⟨x, hx, hxe⟩ := he.spelled h.tail hd.ne_nil
  have hall : Derives Token.leaf .negation (t :: ts) (.not e) := .not ht hd
  have hnil := List.isEmpty_eq_false_iff.mpr (h.spelling_ne_nil (List.cons_ne_nil t ts))
  have henc := h.encloses_head (by simp [ht])
  have hor := h.splitTop?_none spells_or (.inr rfl) hall rfl
  have hand := h.splitTop?_none spells_and (.inl rfl) hall rfl
  have hnot := h.afterNot?_spelling ht hd.ne_nil
  refine ⟨.not x, ?_, hxe.not⟩
  rw [Legacy.parse_eq, hs, hnil, henc, h.splitAndNot?_none, hor, hand, hnot]
  simp [hx, Legacy.negation]

theorem group {o c : Token} (h : Spaced (o :: (ts ++ [c]))) (ho : o.kind = .opening)
    (hc : c.kind = .closing) (hd : Derives Token.leaf .disjunction ts e) (he : LegacyReads ts e) :
    LegacyReads (o :: (ts ++ [c])) e := by
  intro s hs
  have hts : Spaced ts := h.tail.left
  have hnil := List.isEmpty_eq_false_iff.mpr (h.spelling_ne_nil (List.cons_ne_nil o _))
  have henc := h.encloses_group ho hc hd
  have hinside : trim (Legacy.inside (Token.spelling (o :: (ts ++ [c])))) = Token.spelling ts := by
    have hcut : Legacy.inside (Token.spelling (o :: (ts ++ [c]))) =
        ts.flatMap Token.extent ++ c.gap := by
      rw [Token.spelling_group ho hc, Legacy.inside, List.tail_cons, List.dropLast_concat]
    rw [hcut]
    exact hts.trim_extents hd.ne_nil (h.gap_blank (t := c) (by simp))
  obtain ⟨x, hx, hxe⟩ := he _ hinside
  refine ⟨x, ?_, hxe⟩
  rw [Legacy.parse_eq, hs, hnil, henc]
  simp [hx]

theorem words (h : Spaced ts) (hne : ts ≠ []) (hw : ∀ t ∈ ts, t.kind = .word) :
    LegacyReads ts (.tag (Token.leaf ts)) := by
  intro s hs
  have hall : Derives Token.leaf .primary ts (.tag (Token.leaf ts)) := .words hne hw
  have hnil := List.isEmpty_eq_false_iff.mpr (h.spelling_ne_nil hne)
  have hor := h.splitTop?_none spells_or (.inr rfl) hall rfl
  have hand := h.splitTop?_none spells_and (.inl rfl) hall rfl
  obtain ⟨t, ts, rfl⟩ := List.exists_cons_of_ne_nil hne
  have ht := hw t List.mem_cons_self
  have henc := h.encloses_head (by simp [ht])
  have hnot : Legacy.afterNot? (Token.spelling (t :: ts)) = none := by
    cases hn : Legacy.afterNot? (Token.spelling (t :: ts)) with
    | none => rfl
    | some operand =>
      have hk := Legacy.afterNot?_stands h.stands hn
      rw [← Token.kind, ht] at hk
      cases hk
  refine ⟨.tag (Token.leaf (t :: ts)), ?_, .refl _⟩
  rw [Legacy.parse_eq, hs, hnil, henc, h.splitAndNot?_none, hor, hand, hnot]
  rfl

end LegacyReads

theorem length_parts (us : List Token) (t : Token) (vs : List Token) :
    us.length < (us ++ t :: vs).length ∧ vs.length < (us ++ t :: vs).length := by
  simp only [List.length_append, List.length_cons]
  omega

theorem Derives.legacyReads {ts : List Token} {e : TagExpr} (hs : Spaced ts)
    (h : Derives Token.leaf .disjunction ts e) : LegacyReads ts e := by
  -- on the number of tokens, since the parts beside the first operator are no parts of `h`
  induction hn : ts.length using Nat.strong_induction_on generalizing ts e with
  | _ n ih =>
    subst hn
    rcases h.first_or with hc | ⟨us, t, vs, l, r, rfl, ht, hl, hr, ha⟩
    · rcases hc.first_and with hneg | ⟨us, t, vs, l, r, rfl, ht, hl, hr, ha⟩
      · cases hneg with
        | operand hp =>
          cases hp with
          | words hne hw => exact .words hs hne hw
          | @group o c us _ ho hcl hd =>
            have hlt : us.length < (o :: (us ++ [c])).length := by
              simp only [List.length_cons, List.length_append]
              omega
            exact .group hs ho hcl hd (ih _ hlt hs.tail.left hd rfl)
        | @not t us e ht hneg =>
          exact .not hs ht hneg (ih _ (Nat.lt_succ_self _) hs.tail (.disjunct (.conjunct hneg)) rfl)
      · have hright : Spaced (t :: vs) := hs.right
        have hlt := length_parts us t vs
        have hreads := LegacyReads.and hs ht hl hc hr.ne_nil
          (ih _ hlt.1 hs.left (.disjunct (.conjunct hl)) rfl)
          (ih _ hlt.2 hright.tail (.disjunct hr) rfl)
        exact hreads.mono ha
    · have hright : Spaced (t :: vs) := hs.right
      have hlt := length_parts us t vs
      have hreads := LegacyReads.or hs ht hl hr.ne_nil
        (ih _ hlt.1 hs.left (.disjunct hl) rfl) (ih _ hlt.2 hright.tail hr rfl)
      exact hreads.mono ha

/-- On one line whose operators stand apart, with no `not` directly behind an `and`, both grammars
read the same leaves with the same polarities, and what they read holds of the same tags. -/
theorem legacy_parse_agrees {s : String} {p : Option TagExpr} (hline : '\n' ∉ s.toList)
    (hapart : (tokensOf s.toList).IsChain Token.Apart) (h : Grammar.precedence.parse s = .ok p) :
    ∃ q, Grammar.legacy.parse s = .ok q ∧
      q.map (TagExpr.signedLeaves true) = p.map (TagExpr.signedLeaves true) ∧
      ∀ tags, holds q tags = holds p tags := by
  refine ⟨Legacy.parse s.toList, rfl, ?_⟩
  have hcut := scan_cut 0 s.toList
  cases p with
  | none =>
    have hblank := (tokensOf_eq_nil_iff s).mp (parseTokens_eq_none_iff.mp h)
    have htrim : trim s.toList = [] := by
      rw [isBlankText, List.all_eq_true] at hblank
      rw [trim, trimStart, List.dropWhile_eq_nil_iff.mpr hblank]
      rfl
    rw [Legacy.parse_eq, htrim]
    exact ⟨rfl, fun _ => rfl⟩
  | some e =>
    have hd : Derives Token.leaf .disjunction (tokensOf s.toList) e := derives_of_parseTokens h
    rw [← tokensOf] at hcut
    generalize tokensOf s.toList = ts at hcut hd hapart
    obtain ⟨tail, htail, hspelled⟩ := hcut.spelled
    have hs : Spaced ts := by
      refine ⟨⟨0, (List.append_nil ts ▸ hcut).take⟩, fun hm => hline ?_, hapart⟩
      rw [hspelled]
      exact List.mem_append_left tail hm
    have htrim : trim s.toList = Token.spelling ts := by
      rw [hspelled]
      exact hs.trim_extents hd.ne_nil htail
    obtain ⟨f, hf, ha⟩ := hd.legacyReads hs _ htrim
    rw [hf]
    exact ⟨congrArg some (ha.leaves true), ha.eval⟩

theorem legacy_parse_agrees_nested :
    '\n' ∉ "a and (not b or  C) AND d".toList ∧
      (tokensOf "a and (not b or  C) AND d".toList).IsChain Token.Apart ∧
      Grammar.precedence.parse "a and (not b or  C) AND d" =
        .ok (some (.and (.and (.tag "a") (.or (.not (.tag "b")) (.tag "C"))) (.tag "d"))) ∧
      ∃ q, Grammar.legacy.parse "a and (not b or  C) AND d" = .ok q ∧
        q.map (TagExpr.signedLeaves true) =
          some [("a", true), ("b", false), ("C", true), ("d", true)] ∧
        ∀ tags, holds q tags =
          holds (some (.and (.and (.tag "a") (.or (.not (.tag "b")) (.tag "C"))) (.tag "d")))
            tags := by
  have hline : '\n' ∉ "a and (not b or  C) AND d".toList := by decide
  have hapart : (tokensOf "a and (not b or  C) AND d".toList).IsChain Token.Apart := by
    decide +kernel
  have hparse : Grammar.precedence.parse "a and (not b or  C) AND d" =
      .ok (some (.and (.and (.tag "a") (.or (.not (.tag "b")) (.tag "C"))) (.tag "d"))) := by
    decide +kernel
  exact ⟨hline, hapart, hparse, legacy_parse_agrees hline hapart hparse⟩

end SuitePlan
