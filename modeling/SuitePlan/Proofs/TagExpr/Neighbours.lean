import SuitePlan.Proofs.TagExpr.Completion

/-! Which tokens stand side by side in a text that is accepted, and what is between them. Where two
tokens touch, one of them is a parenthesis. -/

namespace SuitePlan

/-- What a token leaves of the operand at the current depth. -/
def TokenKind.place : TokenKind → Place
  | word => .words
  | closing => .closed
  | _ => .missing

/-- The kinds of tokens that can stand behind an operand in this state. -/
def Place.admits : Place → TokenKind → Bool
  | missing, .not | missing, .opening | missing, .word => true
  | words, .word | words, .and | words, .or | words, .closing => true
  | closed, .and | closed, .or | closed, .closing => true
  | _, _ => false

theorem Outline.step_eq_some {o o' : Outline} {k : TokenKind} (h : o.step k = some o') :
    o.place.admits k ∧ o'.place = k.place := by
  obtain ⟨p, n⟩ := o
  cases p <;> cases k <;> cases n <;> simp only [Outline.step] at h <;> cases h <;> exact ⟨rfl, rfl⟩

/-- In a text that is accepted each token admits the next, and the last one ends an operand. -/
theorem admits_of_parseTokens {ts : List Token} {e : TagExpr}
    (h : Precedence.parseTokens ts = .ok (some e)) {pre post : List Token} {t : Token}
    (hts : ts = pre ++ t :: post) :
    (∀ u us, post = u :: us → t.kind.place.admits u.kind) ∧ (post = [] → t.kind.place ≠ .missing) := by
  obtain ⟨o, hrun, hc⟩ := (accepted_iff ts).mp ⟨e, h⟩
  rw [hts, List.map_append, Outline.run_append, List.map_cons] at hrun
  obtain ⟨p, -, hrun⟩ := Option.bind_eq_some_iff.mp hrun
  rw [Outline.run_cons] at hrun
  obtain ⟨q, hq, hrun⟩ := Option.bind_eq_some_iff.mp hrun
  rw [← (Outline.step_eq_some hq).2]
  constructor
  · rintro u us rfl
    rw [List.map_cons, Outline.run_cons] at hrun
    obtain ⟨r, hr, -⟩ := Option.bind_eq_some_iff.mp hrun
    exact (Outline.step_eq_some hr).1
  · rintro rfl
    cases hrun
    exact hc.1

namespace Cut

variable {i : Nat} {s : List Char} {pre post : List Token} {t u : Token}

/-- Between two tokens that are no parentheses stand blanks. -/
theorem touching (h : Cut i s (pre ++ t :: u :: post)) (hgap : u.gap = []) :
    (t.kind = .opening ∨ t.kind = .closing) ∨ u.kind = .opening ∨ u.kind = .closing := by
  have hparen : ∀ c, isParen c → TokenKind.ofText [c] = .opening ∨ TokenKind.ofText [c] = .closing := by
    intro c hc
    simp only [isParen, Bool.or_eq_true, decide_eq_true_eq] at hc
    rcases hc with rfl | rfl
    · exact .inl rfl
    · exact .inr rfl
  obtain ⟨j, r, h⟩ := h.drop
  cases h with
  | paren _ hc _ => exact .inl (hparen _ hc)
  | word _ _ _ hr h =>
    cases h with
    | paren _ hc _ => exact .inr (hparen _ hc)
    | @word _ g w r _ _ hne hw _ _ =>
      change g = [] at hgap
      obtain ⟨c, w, rfl⟩ := List.exists_cons_of_ne_nil hne
      have hc := hr c (by simp [hgap])
      rw [hw c List.mem_cons_self] at hc
      cases hc

/-- Before a token stands a blank or, if it touches one, the token before it. -/
theorem last_before (h : Cut i s (pre ++ t :: post)) :
    ∀ c ∈ (pre.flatMap Token.extent ++ t.gap).getLast?, isBlank c ∨
      t.gap = [] ∧ ∃ before u, pre = before ++ [u] ∧ c ∈ u.text.getLast? := by
  have hblank := h.gap_blank (t := t) (by simp)
  intro c hc
  cases hgap : t.gap using List.reverseRecOn with
  | append_singleton g d =>
    rw [hgap, ← List.append_assoc, List.getLast?_concat, Option.mem_some] at hc
    exact .inl (hblank c (by simp [hgap, hc]))
  | nil =>
    rw [hgap, List.append_nil] at hc
    cases pre using List.reverseRecOn with
    | nil => simp at hc
    | append_singleton before u =>
      have hne := (h.text_not_blank (t := u) (by simp)).1
      rw [List.flatMap_append, List.flatMap_singleton, Token.extent, ← List.append_assoc,
        List.getLast?_append, List.getLast?_eq_some_getLast hne, Option.some_or,
        ← List.getLast?_eq_some_getLast hne] at hc
      exact .inr ⟨rfl, before, u, rfl, hc⟩

theorem head_behind (h : Cut i s (pre ++ t :: post)) {tail : List Char}
    (htail : ∀ c ∈ tail, isBlank c) :
    ∀ c ∈ (post.flatMap Token.extent ++ tail).head?, isBlank c ∨
      ∃ u us, post = u :: us ∧ u.gap = [] ∧ c ∈ u.text.head? := by
  intro c hc
  cases post with
  | nil => exact .inl (htail c (List.mem_of_mem_head? hc))
  | cons u us =>
    have hblank := h.gap_blank (t := u) (by simp)
    cases hgap : u.gap with
    | cons d g =>
      simp only [List.flatMap_cons, Token.extent, hgap, List.cons_append, List.head?_cons,
        Option.mem_some] at hc
      exact .inl (hblank c (by simp [hgap, hc]))
    | nil =>
      have hne := (h.text_not_blank (t := u) (by simp)).1
      rw [List.flatMap_cons, Token.extent, hgap, List.nil_append, List.append_assoc,
        List.head?_append, List.head?_eq_some_head hne, Option.some_or,
        ← List.head?_eq_some_head hne] at hc
      exact .inr ⟨u, us, rfl, hgap, hc⟩

variable {e : TagExpr}

/-- Behind a `not` comes a blank or, directly, a group. -/
theorem exists_after_not (h : Cut i s (pre ++ t :: post))
    (hp : Precedence.parseTokens (pre ++ t :: post) = .ok (some e)) (ht : t.kind = .not) :
    ∃ u us, post = u :: us ∧ (u.gap = [] → u.kind = .opening) := by
  obtain ⟨hnext, hlast⟩ := admits_of_parseTokens hp rfl
  rw [ht] at hnext hlast
  cases post with
  | nil => exact absurd rfl (hlast rfl)
  | cons u us =>
    refine ⟨u, us, rfl, fun hgap => ?_⟩
    have hadmits := hnext u us rfl
    rcases h.touching hgap with hk | hk | hk
    · simp [ht] at hk
    · exact hk
    · rw [hk] at hadmits
      cases hadmits

/-- Nothing but an opening parenthesis touches a word from before. -/
theorem opening_before_word (h : Cut i s (pre ++ t :: u :: post))
    (hp : Precedence.parseTokens (pre ++ t :: u :: post) = .ok (some e)) (hu : u.kind = .word)
    (hgap : u.gap = []) : t.kind = .opening := by
  have hadmits := (admits_of_parseTokens hp rfl).1 u post rfl
  rcases h.touching hgap with (hk | hk) | hk
  · exact hk
  · rw [hk, hu] at hadmits
    cases hadmits
  · simp [hu] at hk

/-- Nothing but a closing parenthesis touches a word from behind. -/
theorem closing_after_word (h : Cut i s (pre ++ t :: u :: post))
    (hp : Precedence.parseTokens (pre ++ t :: u :: post) = .ok (some e)) (ht : t.kind = .word)
    (hgap : u.gap = []) : u.kind = .closing := by
  have hadmits := (admits_of_parseTokens hp rfl).1 u post rfl
  rcases h.touching hgap with hk | hk | hk
  · simp [ht] at hk
  · rw [hk, ht] at hadmits
    cases hadmits
  · exact hk

end Cut

end SuitePlan
