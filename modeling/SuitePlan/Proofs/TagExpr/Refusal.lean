import SuitePlan.Proofs.TagExpr.Precedence

/-! Where the precedence parser stops in a text that it refuses. What it reports there is fixed by
the operand that it has read and by the innermost group that is open. -/

namespace SuitePlan

namespace Parse

theorem beginOperand_error {p : Pending} {gs : List Group} {t : Token} {err : TagExprError}
    (h : beginOperand p gs t = .error err) : err = atToken t := by
  cases ht : t.kind <;> simp only [beginOperand, ht] at h <;> cases h <;> rfl

theorem afterOperand_error {e : TagExpr} {p : Pending} {gs : List Group} {t : Token}
    {err : TagExprError} (h : afterOperand e p gs t = .error err) :
    (gs = [] ∧ t.kind = .closing ∧ err = .unpairedParen t.start) ∨
      (t.kind = .not ∨ t.kind = .opening ∨ t.kind = .word) ∧
        ((gs = [] ∧ err = atToken t) ∨
          ∃ g outer, gs = g :: outer ∧ err = .unpairedParen g.position) := by
  cases gs <;> cases ht : t.kind <;> simp only [afterOperand, misplaced, ht] at h <;> cases h <;>
    simp

theorem step_error {s : Parse} {t : Token} {err : TagExprError} (h : step s t = .error err) :
    (s.operand = .missing ∧ beginOperand s.pending s.groups t = .error err) ∨
      ∃ e, s.operand.expr? = some e ∧ afterOperand e s.pending s.groups t = .error err := by
  obtain ⟨o, p, gs⟩ := s
  cases o with
  | missing => exact .inl ⟨rfl, h⟩
  | closed e => exact .inr ⟨e, rfl, h⟩
  | words text =>
    by_cases ht : t.kind = .word
    · simp [step, ht] at h
    · rw [step_after rfl p gs ht] at h
      exact .inr ⟨_, rfl, h⟩

theorem finish_error {s : Parse} {err : TagExprError} (h : s.finish = .error err) :
    (s.operand = .missing ∧ err = .missingOperand) ∨
      ∃ e g outer, s.operand.expr? = some e ∧ s.groups = g :: outer ∧
        err = .unpairedParen g.position := by
  obtain ⟨o, p, gs⟩ := s
  cases o <;> cases gs <;> simp only [finish, Operand.expr?] at h <;> cases h <;>
    simp [Operand.expr?]

end Parse

theorem Cut.slice_eq {s : List Char} {pre post : List Token} {t : Token}
    (h : Cut 0 s (pre ++ t :: post)) : slice s t.start t.stop = t.text := by
  have hcut : Cut 0 s (pre ++ [t] ++ post) := by simpa using h
  have hs := hcut.sourceOf_eq (List.cons_ne_nil t [])
  rw [Token.sourceOf, String.ofList_inj] at hs
  simpa [Token.spelling] using hs

theorem tokensOf_cut (s : List Char) : Cut 0 s (tokensOf s) := scan_cut 0 s

open Parse

/-- Why tokens are refused: one does not fit where it stands, a closing parenthesis has no group to
close, a group is neither closed nor gone on with, or the operand at the end is missing. -/
inductive RefusedFor (ts : List Token) : TagExprError → Prop
  | misplaced {pre post : List Token} {t : Token} {s : Parse} (hts : ts = pre ++ t :: post)
      (hr : Reads {} pre s) (hs : step s t = .error (atToken t)) :
      RefusedFor ts (.misplacedToken t.content t.start)
  | unopened {pre post : List Token} {t : Token} {s : Parse} {e : TagExpr}
      (hts : ts = pre ++ t :: post) (hr : Reads {} pre s) (he : s.operand.expr? = some e)
      (hg : s.groups = []) (ht : t.kind = .closing) : RefusedFor ts (.unpairedParen t.start)
  | unclosed {pre rest : List Token} {s : Parse} {e : TagExpr} {g : Group} {outer : List Group}
      (hts : ts = pre ++ rest) (hr : Reads {} pre s) (he : s.operand.expr? = some e)
      (hg : s.groups = g :: outer)
      (hrest : ∀ u ∈ rest.head?, u.kind = .not ∨ u.kind = .opening ∨ u.kind = .word) :
      RefusedFor ts (.unpairedParen g.position)
  | unfinished {s : Parse} (hr : Reads {} ts s) (ho : s.operand = .missing) :
      RefusedFor ts .missingOperand

theorem RefusedFor.of_step {ts pre post : List Token} {t : Token} {s : Parse} {err : TagExprError}
    (hts : ts = pre ++ t :: post) (hr : Reads {} pre s) (hs : step s t = .error err) :
    RefusedFor ts err := by
  rcases step_error hs with ⟨-, hb⟩ | ⟨e, he, ha⟩
  · rw [beginOperand_error hb] at hs ⊢
    exact .misplaced hts hr hs
  · rcases afterOperand_error ha with ⟨hg, ht, rfl⟩ | ⟨ht, ⟨-, rfl⟩ | ⟨g, outer, hg, rfl⟩⟩
    · exact .unopened hts hr he hg ht
    · exact .misplaced hts hr hs
    · exact .unclosed hts hr he hg (by simpa using ht)

theorem RefusedFor.of_finish {ts : List Token} {s : Parse} {err : TagExprError} (hr : Reads {} ts s)
    (hf : s.finish = .error err) : RefusedFor ts err := by
  rcases finish_error hf with ⟨ho, rfl⟩ | ⟨e, g, outer, he, hg, rfl⟩
  · exact .unfinished hr ho
  · exact .unclosed (List.append_nil ts).symm hr he hg (by simp)

theorem refused_of_parseTokens {ts : List Token} {err : TagExprError}
    (h : Precedence.parseTokens ts = .error err) : RefusedFor ts err := by
  have hne : ts ≠ [] := by
    rintro rfl
    cases h
  rcases Parse.reads_cases {} ts with ⟨s, hr⟩ | ⟨pre, t, post, s, err', hts, hr, hs, hfold⟩
  · rw [parseTokens_of_reads hne hr] at h
    cases hf : s.finish with
    | error err' =>
      rw [hf] at h
      cases h
      exact .of_finish hr hf
    | ok e =>
      rw [hf] at h
      cases h
  · rw [parseTokens_of_refused hne hfold] at h
    cases h
    exact .of_step hts hr hs

end SuitePlan
