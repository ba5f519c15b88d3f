import Mathlib.Logic.Relation
import SuitePlan.Proofs.Selection.Header

/-! How a header is laid out. The tags of a text put together from lines are those of its parts, and
neither the form of the line ends nor lines that are blank or comments have a part in them. -/

namespace SuitePlan

section Header

/-- The tags on the lines above the first feature line. -/
def headerOf (ls : List (List Char)) : List Tag :=
  (ls.takeWhile (!isFeatureLine ·)).flatMap lineTags

variable {l l' : List Char} {ls ms ms' : List (List Char)}

theorem headerTags_eq (s : List Char) : headerTags s = headerOf (lines (dropByteOrderMark s)) := rfl

theorem headerOf_of_isFeatureLine (h : isFeatureLine l) (ls : List (List Char)) :
    headerOf (l :: ls) = [] := by
  rw [headerOf, List.takeWhile_cons_of_neg (by simp [h]), List.flatMap_nil]

theorem headerOf_cons (h : isFeatureLine l = false) (ls : List (List Char)) :
    headerOf (l :: ls) = lineTags l ++ headerOf ls := by
  rw [headerOf, List.takeWhile_cons_of_pos (by simp [h]), List.flatMap_cons, headerOf]

theorem headerOf_append (h : ∀ l ∈ ls, isFeatureLine l = false) (ms : List (List Char)) :
    headerOf (ls ++ ms) = headerOf ls ++ headerOf ms := by
  induction ls with
  | nil => rfl
  | cons l ls ih =>
    obtain ⟨hl, hls⟩ := List.forall_mem_cons.mp h
    rw [List.cons_append, headerOf_cons hl, headerOf_cons hl, ih hls, List.append_assoc]

theorem headerOf_append_congr (h : headerOf ms = headerOf ms') (ls : List (List Char)) :
    headerOf (ls ++ ms) = headerOf (ls ++ ms') := by
  induction ls with
  | nil => exact h
  | cons l ls ih =>
    by_cases hl : isFeatureLine l = true
    · rw [List.cons_append, List.cons_append, headerOf_of_isFeatureLine hl,
        headerOf_of_isFeatureLine hl]
    · have hl' := Bool.eq_false_iff.mpr hl
      rw [List.cons_append, List.cons_append, headerOf_cons hl', headerOf_cons hl', ih]

theorem headerOf_cons_congr (h : trim l = trim l') (ls : List (List Char)) :
    headerOf (l :: ls) = headerOf (l' :: ls) := by
  have htags : lineTags l = lineTags l' := by
    simp only [lineTags, h]
  have hfeature : isFeatureLine l = isFeatureLine l' := by
    simp only [isFeatureLine, h]
  by_cases hl : isFeatureLine l' = true
  · rw [headerOf_of_isFeatureLine (hfeature.trans hl), headerOf_of_isFeatureLine hl]
  · have hl' := Bool.eq_false_iff.mpr hl
    rw [headerOf_cons (hfeature.trans hl'), headerOf_cons hl', htags]

theorem headerOf_remark (h : IsRemark (trim l)) (ls : List (List Char)) :
    headerOf (l :: ls) = headerOf ls := by
  have htags : lineTags l = [] := by
    apply lineTags_eq_nil
    intro hat
    have hc := h '@' hat
    cases hc
  have hfeature : isFeatureLine l = false := by
    apply Bool.eq_false_iff.mpr
    intro hf
    have hc := h 'F' (head?_of_isFeatureLine hf)
    cases hc
  rw [headerOf_cons hfeature, htags, List.nil_append]

end Header

/-- One change to the layout of a text: a carriage return before one of its line ends, or a line that
is blank or a comment at its start or behind a line end. -/
inductive Relaid : List Char → List Char → Prop
  | carriageReturn (a b : List Char) : Relaid (a ++ '\n' :: b) (a ++ '\r' :: '\n' :: b)
  | remark {a l : List Char} (b : List Char) (ha : EndsLine a)
      (hb : a = [] → b.head? ≠ some '\uFEFF') (hl : '\n' ∉ l) (hr : IsRemark (trim l)) :
      Relaid (a ++ b) (a ++ (l ++ '\n' :: b))

/-- A text with all its line feeds turned into carriage returns and line feeds. -/
def withCarriageReturns (s : String) : String :=
  String.ofList (s.toList.flatMap fun c => if c = '\n' then ['\r', '\n'] else [c])

theorem exists_line_trim {x : List Char} (hx : '\n' ∉ x) :
    ∃ y, trim y = trim x ∧ ∀ s, lines (x ++ '\n' :: s) = y :: lines s := by
  obtain ⟨y, hy, hlines⟩ := exists_line hx
  refine ⟨y, ?_, hlines⟩
  rcases hy with rfl | rfl
  · rfl
  · exact (trim_append_carriageReturn y).symm

theorem headerOf_carriageReturn (a b : List Char) :
    headerOf (lines (a ++ '\r' :: '\n' :: b)) = headerOf (lines (a ++ '\n' :: b)) := by
  obtain ⟨h, x, rfl, hend, hx⟩ := exists_lastLine a
  have hx' : '\n' ∉ x ++ ['\r'] := by simpa using hx
  obtain ⟨y, hy, hlines⟩ := exists_line_trim hx
  obtain ⟨y', hy', hlines'⟩ := exists_line_trim hx'
  have hline := hlines' b
  rw [List.append_assoc, List.singleton_append] at hline
  rw [List.append_assoc, List.append_assoc, lines_append_of_endsLine hend,
    lines_append_of_endsLine hend, hline, hlines]
  apply headerOf_append_congr
  apply headerOf_cons_congr
  rw [hy', hy, trim_append_carriageReturn]

theorem headerOf_insert {a l : List Char} (ha : EndsLine a) (hl : '\n' ∉ l)
    (hr : IsRemark (trim l)) (b : List Char) :
    headerOf (lines (a ++ (l ++ '\n' :: b))) = headerOf (lines (a ++ b)) := by
  obtain ⟨y, hy, hlines⟩ := exists_line_trim hl
  rw [lines_append_of_endsLine ha, lines_append_of_endsLine ha, hlines]
  apply headerOf_append_congr
  exact headerOf_remark (hy ▸ hr) _

namespace Relaid

theorem headerTags_eq {s s' : List Char} (h : Relaid s s') : headerTags s' = headerTags s := by
  cases h with
  | carriageReturn a b =>
    rw [SuitePlan.headerTags_eq, SuitePlan.headerTags_eq]
    by_cases ha : a = []
    · subst ha
      exact headerOf_carriageReturn [] b
    · rw [dropByteOrderMark_append ha, dropByteOrderMark_append ha]
      exact headerOf_carriageReturn _ b
  | @remark a l b ha hb hl hr =>
    rw [SuitePlan.headerTags_eq, SuitePlan.headerTags_eq]
    by_cases hnil : a = []
    · -- the inserted line is now the first one, and it does not begin with a byte order mark
      subst hnil
      have hfirst : (l ++ '\n' :: b).head? ≠ some '\uFEFF' := by
        intro hc
        cases l with
        | nil => cases hc
        | cons c l =>
          have hc' : c = '\uFEFF' := Option.some.inj hc
          subst hc'
          have hhead : (trim ('\uFEFF' :: l)).head? = some '\uFEFF' := by
            rw [head?_trim, List.dropWhile_cons_of_neg (by decide), List.head?_cons]
          have hmark := hr _ hhead
          cases hmark
      rw [List.nil_append, List.nil_append, dropByteOrderMark_of_head? hfirst,
        dropByteOrderMark_of_head? (hb rfl)]
      exact headerOf_insert ha hl hr b
    · rw [dropByteOrderMark_append hnil, dropByteOrderMark_append hnil]
      exact headerOf_insert ha.dropByteOrderMark hl hr b

theorem headerTags_eq_of_reflTransGen {s s' : List Char} (h : Relation.ReflTransGen Relaid s s') :
    headerTags s' = headerTags s := by
  induction h with
  | refl => rfl
  | tail _ hstep ih => rw [hstep.headerTags_eq, ih]

theorem reflTransGen_carriageReturns (a s : List Char) :
    Relation.ReflTransGen Relaid (a ++ s)
      (a ++ s.flatMap fun c => if c = '\n' then ['\r', '\n'] else [c]) := by
  -- `a` holds the line ends that have been changed already
  induction s generalizing a with
  | nil => exact .refl
  | cons c s ih =>
    by_cases hc : c = '\n'
    · subst hc
      have hrest := ih (a ++ ['\r', '\n'])
      rw [List.append_assoc, List.append_assoc] at hrest
      exact .head (.carriageReturn a s) hrest
    · have hrest := ih (a ++ [c])
      rw [List.append_assoc, List.append_assoc] at hrest
      rw [List.flatMap_cons, if_neg hc]
      exact hrest

end Relaid

/-- The tags of whole lines without a feature line stand before those of the text below them, and
that text has none if it begins with a feature line. Line ends with carriage returns, and lines that
are blank or comments, make no difference. -/
theorem declaredTags_layout {h r : String} (hend : EndsLine h.toList)
    (hfeature : ∀ l ∈ lines (dropByteOrderMark h.toList), isFeatureLine l = false)
    (hmark : r.toList.head? ≠ some '\uFEFF') :
    declaredTags (h ++ r) = declaredTags h ++ declaredTags r ∧
      ((∃ l ∈ (lines r.toList).head?, isFeatureLine l) → declaredTags (h ++ r) = declaredTags h) ∧
      (∀ s, declaredTags (withCarriageReturns s) = declaredTags s) ∧
      ∀ s s' : String, Relation.ReflTransGen Relaid s.toList s'.toList →
        declaredTags s' = declaredTags s := by
  have hr : declaredTags r = headerOf (lines r.toList) := by
    rw [declaredTags, headerTags_eq, dropByteOrderMark_of_head? hmark]
  have happend : declaredTags (h ++ r) = declaredTags h ++ declaredTags r := by
    rw [hr, declaredTags, declaredTags, String.toList_append, headerTags_eq, headerTags_eq]
    by_cases hnil : h.toList = []
    · rw [hnil, List.nil_append, dropByteOrderMark_of_head? hmark]
      rfl
    · rw [dropByteOrderMark_append hnil, lines_append_of_endsLine hend.dropByteOrderMark,
        headerOf_append hfeature]
  refine ⟨happend, ?_, ?_, ?_⟩
  · rintro ⟨l, hl, hf⟩
    obtain ⟨ls, hls⟩ := List.head?_eq_some_iff.mp hl
    rw [happend, hr, hls, headerOf_of_isFeatureLine hf, List.append_nil]
  · intro s
    have hrelaid := Relaid.reflTransGen_carriageReturns [] s.toList
    rw [declaredTags, withCarriageReturns, String.toList_ofList]
    exact Relaid.headerTags_eq_of_reflTransGen hrelaid
  · intro s s' hrelaid
    exact Relaid.headerTags_eq_of_reflTransGen hrelaid

theorem declaredTags_layout_of_marked_header :
    EndsLine "\uFEFF@A #b\n@C\n".toList ∧
      (∀ l ∈ lines (dropByteOrderMark "\uFEFF@A #b\n@C\n".toList), isFeatureLine l = false) ∧
      "  Feature: f\n@D\n".toList.head? ≠ some '\uFEFF' ∧
      declaredTags ("\uFEFF@A #b\n@C\n" ++ "  Feature: f\n@D\n") =
        declaredTags "\uFEFF@A #b\n@C\n" ++ declaredTags "  Feature: f\n@D\n" ∧
      declaredTags "\uFEFF@A #b\n@C\n" = ["@A", "@C"] ∧
      declaredTags ("\uFEFF@A #b\n@C\n" ++ "  Feature: f\n@D\n") = ["@A", "@C"] ∧
      declaredTags "@A\n \r\n@B\n" = declaredTags "@A\n@B\n" := by
  have hend : EndsLine "\uFEFF@A #b\n@C\n".toList := by decide +kernel
  have hfeature : ∀ l ∈ lines (dropByteOrderMark "\uFEFF@A #b\n@C\n".toList),
      isFeatureLine l = false := by decide +kernel
  have hmark : "  Feature: f\n@D\n".toList.head? ≠ some '\uFEFF' := by decide
  have htags : declaredTags "\uFEFF@A #b\n@C\n" = ["@A", "@C"] := by decide +kernel
  have hline : ∃ l ∈ (lines "  Feature: f\n@D\n".toList).head?, isFeatureLine l :=
    ⟨"  Feature: f".toList, by decide +kernel, by decide +kernel⟩
  have hblank : Relaid ("@A\n".toList ++ "@B\n".toList)
      ("@A\n".toList ++ (" \r".toList ++ '\n' :: "@B\n".toList)) :=
    .remark _ (by decide) (by decide) (by decide)
      (by simp [IsRemark, trim, trimStart, trimEnd, isBlank])
  obtain ⟨happend, hfirst, -, hrelaid⟩ := declaredTags_layout hend hfeature hmark
  exact ⟨hend, hfeature, hmark, happend, htags, (hfirst hline).trans htags,
    hrelaid "@A\n@B\n" "@A\n \r\n@B\n" (.single hblank)⟩

end SuitePlan
