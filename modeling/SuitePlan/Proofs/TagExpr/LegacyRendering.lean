import SuitePlan.Proofs.TagExpr.LegacyOperand

/-! The legacy grammar on the texts that expressions are shown as. A negated right side of a
conjunction shows the `and not` that this grammar cuts at first, so it may stand only where that cut
is the right one. -/

namespace SuitePlan

open Legacy

namespace TagExpr

/-- No conjunction has a negation on its right, and no node is of unknown kind. -/
def Plain : TagExpr → Prop
  | tag _ => True
  | and left right => left.Plain ∧ right.Plain ∧ ∀ e, right ≠ .not e
  | or left right => left.Plain ∧ right.Plain
  | not operand => operand.Plain
  | unknown => False

/-- A plain expression with any number of plain ones taken away from it, one after another. -/
inductive WellFormed : TagExpr → Prop
  | plain {e : TagExpr} (h : e.Plain) : e.WellFormed
  | andNot {l x : TagExpr} (hl : l.WellFormed) (hx : x.Plain) : (TagExpr.and l (.not x)).WellFormed

variable {e l r : TagExpr}

theorem toList_render_and (l r : TagExpr) :
    (and l r).render.toList = grouped (joined ['a', 'n', 'd'] l.render.toList r.render.toList) := by
  simp [render, grouped, joined]

theorem toList_render_or (l r : TagExpr) :
    (or l r).render.toList = grouped (joined ['o', 'r'] l.render.toList r.render.toList) := by
  simp [render, grouped, joined]

theorem toList_render_not (e : TagExpr) : (not e).render.toList = negated e.render.toList := by
  simp [render, negated]

/-- The leaves are canonical and have no line end in them, and no node is of unknown kind. -/
structure OneLine (e : TagExpr) : Prop where
  canonical : e.Canonical
  line : ∀ v ∈ e.leaves, '\n' ∉ v.toList

namespace OneLine

theorem of_and (h : (TagExpr.and l r).OneLine) : l.OneLine ∧ r.OneLine :=
  ⟨⟨h.canonical.1, fun v hv => h.line v (List.mem_append_left _ hv)⟩,
    ⟨h.canonical.2, fun v hv => h.line v (List.mem_append_right _ hv)⟩⟩

theorem of_or (h : (TagExpr.or l r).OneLine) : l.OneLine ∧ r.OneLine :=
  ⟨⟨h.canonical.1, fun v hv => h.line v (List.mem_append_left _ hv)⟩,
    ⟨h.canonical.2, fun v hv => h.line v (List.mem_append_right _ hv)⟩⟩

theorem of_not (h : (TagExpr.not e).OneLine) : e.OneLine := ⟨h.canonical, h.line⟩

theorem shown (h : e.OneLine) : Shown e.render.toList := by
  induction e with
  | tag v => exact .leaf h.canonical (h.line v List.mem_cons_self)
  | and l r ihl ihr =>
    rw [toList_render_and]
    exact (ihl h.of_and.1).group_joined (ihr h.of_and.2) spells_and.wordChars
  | or l r ihl ihr =>
    rw [toList_render_or]
    exact (ihl h.of_or.1).group_joined (ihr h.of_or.2) spells_or.wordChars
  | not e ih =>
    rw [toList_render_not]
    exact (ih h.of_not).not
  | unknown => exact h.canonical.elim

theorem affirms (h : e.OneLine) (hn : ∀ x, e ≠ .not x) : Affirms e.render.toList := by
  cases e with
  | tag v => exact .leaf h.canonical
  | and l r =>
    rw [toList_render_and]
    exact .group _
  | or l r =>
    rw [toList_render_or]
    exact .group _
  | not x => exact absurd rfl (hn x)
  | unknown => exact h.canonical.elim

end OneLine

namespace Plain

theorem calm (h : e.Plain) (hv : e.OneLine) : Calm e.render.toList := by
  induction e with
  | tag v => exact .leaf hv.canonical
  | and l r ihl ihr =>
    obtain ⟨hl, hr⟩ := hv.of_and
    rw [toList_render_and]
    exact ((ihl h.1 hl).joined (ihr h.2.1 hr) hr.shown spells_and.nonempty spells_and.wordChars
      fun _ => hr.affirms h.2.2).group
  | or l r ihl ihr =>
    obtain ⟨hl, hr⟩ := hv.of_or
    rw [toList_render_or]
    exact ((ihl h.1 hl).joined (ihr h.2 hr) hr.shown spells_or.nonempty spells_or.wordChars
      fun hand => by cases hand).group
  | not e ih =>
    rw [toList_render_not]
    exact (ih h hv.of_not).not
  | unknown => exact h.elim

theorem parse_eq (h : e.Plain) (hv : e.OneLine) : Legacy.parse e.render.toList = some e := by
  induction e with
  | tag v =>
    have hh := parse_leaf hv.canonical (hv.line v List.mem_cons_self)
    rwa [String.ofList_toList] at hh
  | and l r ihl ihr =>
    obtain ⟨hl, hr⟩ := hv.of_and
    rw [toList_render_and, parse_grouped hl.shown hr.shown spells_and.wordChars,
      parse_and hl.shown hr.shown (h.1.calm hl) (h.2.1.calm hr) (hr.affirms h.2.2),
      ihl h.1 hl, ihr h.2.1 hr]
    rfl
  | or l r ihl ihr =>
    obtain ⟨hl, hr⟩ := hv.of_or
    rw [toList_render_or, parse_grouped hl.shown hr.shown spells_or.wordChars,
      parse_or hl.shown hr.shown (h.1.calm hl) (h.2.calm hr), ihl h.1 hl, ihr h.2 hr]
    rfl
  | not e ih =>
    rw [toList_render_not, parse_negated hv.of_not.shown (calm h hv.of_not), ih h hv.of_not]
    rfl
  | unknown => exact h.elim

end Plain

theorem WellFormed.parse_eq (h : e.WellFormed) (hv : e.OneLine) :
    Legacy.parse e.render.toList = some e := by
  induction h with
  | plain h => exact h.parse_eq hv
  | andNot _ hx ih =>
    obtain ⟨hl, hr⟩ := hv.of_and
    rw [toList_render_and, parse_grouped hl.shown hr.shown spells_and.wordChars, toList_render_not,
      parse_and_negated hl.shown hr.of_not.shown (hx.calm hr.of_not), ih hl, hx.parse_eq hr.of_not]
    rfl

end TagExpr

/-- The text of a well-formed expression is read back by both grammars. -/
theorem legacy_parse_render {e : TagExpr} (hc : e.Canonical)
    (hline : ∀ v ∈ e.leaves, '\n' ∉ v.toList) (h : e.WellFormed) :
    Grammar.legacy.parse e.render = .ok (some e) ∧
      Grammar.precedence.parse e.render = .ok (some e) :=
  ⟨congrArg Except.ok (h.parse_eq ⟨hc, hline⟩), hc.parse_render⟩

theorem legacy_parse_render_chain :
    Grammar.legacy.parse "((a and not b) and not (not C d or not e))" =
        .ok (some (.and (.and (.tag "a") (.not (.tag "b")))
          (.not (.or (.not (.tag "C d")) (.not (.tag "e")))))) ∧
      Grammar.precedence.parse "((a and not b) and not (not C d or not e))" =
        .ok (some (.and (.and (.tag "a") (.not (.tag "b")))
          (.not (.or (.not (.tag "C d")) (.not (.tag "e")))))) := by
  have hread : Grammar.precedence.parse "((a and not b) and not (not C d or not e))" =
      .ok (some (.and (.and (.tag "a") (.not (.tag "b")))
        (.not (.or (.not (.tag "C d")) (.not (.tag "e")))))) := by
    decide +kernel
  exact legacy_parse_render (canonical_of_parse hread) (by decide)
    (.andNot (.andNot (.plain trivial) trivial) ⟨trivial, trivial⟩)

end SuitePlan
