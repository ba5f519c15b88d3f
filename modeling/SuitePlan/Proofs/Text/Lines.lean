import SuitePlan.Gherkin.Grammar
import SuitePlan.Proofs.TagExpr.Rendering

/-! The lines and the words of a text that is put together from pieces. Lines end exactly where the
grammar of feature documents sees a line end. -/

namespace SuitePlan

open Gherkin (newlines afterNewline?)

theorem afterNewline?_eq_some {s u : List Char} (h : afterNewline? s = some u) :
    s = '\n' :: u ∨ s = '\r' :: '\n' :: u := by
  unfold afterNewline? at h
  split at h
  · cases h
    exact .inl rfl
  · cases h
    exact .inr rfl
  · cases h

theorem not_newline_of_not_blank {c : Char} (h : isBlank c = false) : c ≠ '\n' ∧ c ≠ '\r' := by
  constructor
  · rintro rfl
    cases h
  · rintro rfl
    cases h

theorem lines_of_newline {s u : List Char} (h : afterNewline? s = some u) :
    lines s = [] :: lines u := by
  rcases afterNewline?_eq_some h with rfl | rfl
  · rfl
  · rfl

theorem lines_cons {c : Char} {s : List Char} (h : afterNewline? (c :: s) = none) :
    lines (c :: s) = (c :: (lines s).headD []) :: (lines s).tail := by
  have hn : c ≠ '\n' := by
    rintro rfl
    cases h
  have hr : ∀ u, c = '\r' → s = '\n' :: u → False := by
    rintro u rfl rfl
    cases h
  rw [lines.eq_4 c s hn hr]
  cases lines s with
  | nil => rfl
  | cons l ls => rfl

theorem afterNewline?_eq_none {s : List Char} (hn : ∀ u, s ≠ '\n' :: u)
    (hr : ∀ u, s ≠ '\r' :: '\n' :: u) : afterNewline? s = none := by
  cases hs : afterNewline? s with
  | none => rfl
  | some u =>
    rcases afterNewline?_eq_some hs with he | he
    · exact (hn u he).elim
    · exact (hr u he).elim

theorem afterNewline?_of_visible {c : Char} (hn : c ≠ '\n') (hr : c ≠ '\r') (s : List Char) :
    afterNewline? (c :: s) = none := by
  apply afterNewline?_eq_none
  · exact fun u he => hn (List.cons.inj he).1
  · exact fun u he => hr (List.cons.inj he).1

/-- The one line that a line end completes. It is what stands before the line end, or that without
the carriage return at its end. -/
theorem exists_line {x : List Char} (hx : '\n' ∉ x) :
    ∃ y, (x = y ∨ x = y ++ ['\r']) ∧ ∀ s, lines (x ++ '\n' :: s) = y :: lines s := by
  induction x with
  | nil => exact ⟨[], .inl rfl, fun _ => rfl⟩
  | cons c x ih =>
    have hc : c ≠ '\n' := fun he => hx (by simp [he])
    have hx' : '\n' ∉ x := fun hm => hx (List.mem_cons_of_mem c hm)
    by_cases hend : c = '\r' ∧ x = []
    · obtain ⟨rfl, rfl⟩ := hend
      exact ⟨[], .inr rfl, fun _ => rfl⟩
    · obtain ⟨y, hy, hlines⟩ := ih hx'
      refine ⟨c :: y, hy.imp (congrArg (c :: ·)) (congrArg (c :: ·)), fun s => ?_⟩
      have hnone : afterNewline? (c :: (x ++ '\n' :: s)) = none := by
        apply afterNewline?_eq_none
        · exact fun u he => hc (List.cons.inj he).1
        · intro u he
          obtain ⟨hr, hnext⟩ := List.cons.inj he
          cases x with
          | nil => exact hend ⟨hr, rfl⟩
          | cons d x =>
            have hd : d = '\n' := (List.cons.inj hnext).1
            exact hx' (hd ▸ List.mem_cons_self)
      rw [List.cons_append, lines_cons hnone, hlines]
      rfl

theorem lines_append_newline {x : List Char} (hx : '\n' ∉ x) (s : List Char) :
    ∃ y, lines (x ++ '\n' :: s) = y :: lines s := by
  obtain ⟨y, -, hlines⟩ := exists_line hx
  exact ⟨y, hlines s⟩

theorem head?_of_lines {s l : List Char} {ls : List (List Char)} (h : lines s = l :: ls) :
    ∀ c ∈ l.head?, c ∈ s.head? := by
  cases s with
  | nil => cases h
  | cons d s =>
    cases hs : afterNewline? (d :: s) with
    | some u =>
      rw [lines_of_newline hs] at h
      cases h
      simp
    | none =>
      rw [lines_cons hs] at h
      cases h
      simp

theorem lines_append {w s l : List Char} {ls : List (List Char)}
    (hw : ∀ c ∈ w, c ≠ '\n' ∧ c ≠ '\r') (h : lines s = l :: ls) :
    lines (w ++ s) = (w ++ l) :: ls := by
  induction w with
  | nil => exact h
  | cons c w ih =>
    have hc := hw c List.mem_cons_self
    have hws := ih fun d hd => hw d (List.mem_cons_of_mem c hd)
    rw [List.cons_append, lines_cons (afterNewline?_of_visible hc.1 hc.2 _), hws]
    rfl

theorem newlines_append {w : List Char} (hw : ∀ c ∈ w, c ≠ '\n' ∧ c ≠ '\r') (s : List Char) :
    newlines (w ++ s) = newlines s := by
  have hz : w.count '\n' = 0 := List.count_eq_zero.mpr fun hm => (hw _ hm).1 rfl
  rw [newlines, List.count_append, hz, Nat.zero_add]
  rfl

theorem words_append_blank (s : List Char) {g : List Char} (hg : ∀ c ∈ g, isBlank c) :
    words (s ++ g) = words s := by
  induction s using words.induct with
  | case1 => simpa [words_nil] using words_blank hg []
  | case2 c r hc ih => rw [List.cons_append, words_cons, if_pos hc, words_cons, if_pos hc, ih]
  | case3 c r hc ih =>
    have hc' : isBlank c = false := by simpa using hc
    have hr : r = r.takeWhile (!isBlank ·) ++ r.dropWhile (!isBlank ·) :=
      List.takeWhile_append_dropWhile.symm
    have hw : ∀ d ∈ c :: r.takeWhile (!isBlank ·), isBlank d = false := by
      intro d hd
      rcases List.mem_cons.mp hd with rfl | hd
      · exact hc'
      · simpa using List.mem_takeWhile_imp hd
    have hend : ∀ d ∈ (r.dropWhile (!isBlank ·)).head?, isBlank d := by
      intro d hd
      simpa using head?_dropWhile_eq_false (!isBlank ·) r d hd
    have hend' : ∀ d ∈ (r.dropWhile (!isBlank ·) ++ g).head?, isBlank d := by
      intro d hd
      rw [List.head?_append] at hd
      rcases Option.or_eq_some_iff.mp hd with hd | ⟨-, hd⟩
      · exact hend d hd
      · exact hg d (List.mem_of_mem_head? hd)
    have hlong := words_word (List.cons_ne_nil c _) hw hend'
    have hshort := words_word (List.cons_ne_nil c _) hw hend
    rw [← List.append_assoc, List.cons_append, ← hr] at hlong
    rw [List.cons_append, ← hr] at hshort
    rw [hlong, hshort, ih]

theorem words_trim (s : List Char) : words (trim s) = words s := by
  obtain ⟨g, tail, hg, htail, hs⟩ := exists_trim s
  rw [← words_append_blank (trim s) htail, ← words_blank hg, ← hs]

/-- A text that consists of whole lines. -/
def EndsLine (s : List Char) : Prop := s = [] ∨ s.getLast? = some '\n'

instance (s : List Char) : Decidable (EndsLine s) := inferInstanceAs (Decidable (_ ∨ _))

theorem EndsLine.append_newline (s : List Char) : EndsLine (s ++ ['\n']) := by
  apply Or.inr
  simp

theorem EndsLine.tail {c : Char} {s : List Char} (h : EndsLine (c :: s)) : EndsLine s := by
  rcases h with h | h
  · cases h
  · cases s with
    | nil => exact .inl rfl
    | cons d s => exact .inr (by rwa [List.getLast?_cons_cons] at h)

theorem EndsLine.ne_nil {c : Char} {s : List Char} (h : EndsLine (c :: s)) (hc : c ≠ '\n') :
    s ≠ [] := by
  rintro rfl
  rcases h with h | h
  · cases h
  · exact hc (Option.some.inj h)

theorem lines_ne_nil {s : List Char} (h : s ≠ []) : lines s ≠ [] := by
  obtain ⟨c, s, rfl⟩ := List.exists_cons_of_ne_nil h
  cases hs : afterNewline? (c :: s) with
  | none => simp [lines_cons hs]
  | some u => simp [lines_of_newline hs]

theorem lines_append_of_endsLine {h : List Char} (hend : EndsLine h) (r : List Char) :
    lines (h ++ r) = lines h ++ lines r := by
  have hgo : ∀ c h, EndsLine (c :: h) → c ≠ '\n' → (∀ u, c = '\r' → h = '\n' :: u → False) →
      lines (h ++ r) = lines h ++ lines r → lines (c :: h ++ r) = lines (c :: h) ++ lines r := by
    intro c h hend hn hr ih
    obtain ⟨d, h, rfl⟩ := List.exists_cons_of_ne_nil (hend.ne_nil hn)
    -- what stands behind these two characters does not matter
    have hnone : ∀ v, afterNewline? (c :: d :: v) = none := by
      intro v
      apply afterNewline?_eq_none
      · exact fun u he => hn (List.cons.inj he).1
      · intro u he
        obtain ⟨hc, he⟩ := List.cons.inj he
        exact hr h hc (congrArg (· :: h) (List.cons.inj he).1)
    obtain ⟨l, ls, hl⟩ := List.exists_cons_of_ne_nil (lines_ne_nil (List.cons_ne_nil d h))
    rw [List.cons_append, List.cons_append, lines_cons (hnone (h ++ r)), lines_cons (hnone h),
      ← List.cons_append, ih, hl]
    rfl
  induction h using lines.induct with
  | case1 => rfl
  | case2 h ih => exact congrArg ([] :: ·) (ih hend.tail)
  | case3 h ih => exact congrArg ([] :: ·) (ih hend.tail.tail)
  | case4 c h hn hr _ ih => exact hgo c h hend hn hr (ih hend.tail)
  | case5 c h hn hr _ _ _ ih => exact hgo c h hend hn hr (ih hend.tail)

/-- The line on which a text ends, and the whole lines above it. -/
theorem exists_lastLine (s : List Char) : ∃ h x, s = h ++ x ∧ EndsLine h ∧ '\n' ∉ x := by
  induction s using List.reverseRecOn with
  | nil => exact ⟨[], [], rfl, .inl rfl, List.not_mem_nil⟩
  | append_singleton s c ih =>
    by_cases hc : c = '\n'
    · subst hc
      exact ⟨s ++ ['\n'], [], by simp, .append_newline s, List.not_mem_nil⟩
    · obtain ⟨h, x, rfl, hend, hx⟩ := ih
      refine ⟨h, x ++ [c], by simp, hend, ?_⟩
      simpa [Ne.symm hc] using hx

theorem dropByteOrderMark_append {s : List Char} (hs : s ≠ []) (r : List Char) :
    dropByteOrderMark (s ++ r) = dropByteOrderMark s ++ r := by
  obtain ⟨c, s, rfl⟩ := List.exists_cons_of_ne_nil hs
  by_cases hc : c = '\uFEFF'
  · subst hc
    rfl
  · have hkeep : ∀ u, dropByteOrderMark (c :: u) = c :: u := by
      intro u
      unfold dropByteOrderMark
      split
      · next he => exact (hc (List.cons.inj he).1).elim
      · rfl
    rw [List.cons_append, hkeep, hkeep, List.cons_append]

theorem dropByteOrderMark_of_head? {s : List Char} (h : s.head? ≠ some '\uFEFF') :
    dropByteOrderMark s = s := by
  unfold dropByteOrderMark
  split
  · exact (h rfl).elim
  · rfl

theorem EndsLine.dropByteOrderMark {s : List Char} (h : EndsLine s) :
    EndsLine (dropByteOrderMark s) := by
  unfold SuitePlan.dropByteOrderMark
  split
  · exact h.tail
  · exact h

end SuitePlan
