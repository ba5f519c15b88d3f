import SuitePlan.Proofs.TagExpr.Cut
import SuitePlan.Proofs.TagExpr.Derivation
import SuitePlan.TagExpr.Grammar

/-! One pass over the tokens with what is pending at each depth finds exactly the derivations of
the grammar. What has been read is at all times the text of the open groups, of what is pending and
of the current operand. -/

namespace SuitePlan

/-- The value of a run of words that carry the blanks between them. -/
def Token.leaf (ws : List Token) : String := String.ofList (Token.spelling ws)

namespace Parse

def Reads (s : Parse) (ts : List Token) (s' : Parse) : Prop := ts.foldlM step s = .ok s'

theorem Reads.append {s u v : Parse} {ts us : List Token} (h : Reads s ts u) (h' : Reads u us v) :
    Reads s (ts ++ us) v := by
  rw [Reads, List.foldlM_append, h]
  exact h'

theorem Reads.cons {s u v : Parse} {t : Token} {ts : List Token} (h : step s t = .ok u)
    (h' : Reads u ts v) : Reads s (t :: ts) v := by
  rw [Reads, List.foldlM_cons, h]
  exact h'

theorem step_after {o : Operand} {e : TagExpr} (ho : o.expr? = some e) (p : Pending)
    (gs : List Group) {t : Token} (ht : t.kind ≠ .word) :
    step ⟨o, p, gs⟩ t = afterOperand e p gs t := by
  cases o with
  | missing => cases ho
  | words text =>
    cases ho
    simp only [step, if_neg ht]
  | closed f =>
    cases ho
    rfl

theorem reads_words {ws : List Token} (hw : ∀ t ∈ ws, t.kind = .word) (text : List Char)
    (p : Pending) (gs : List Group) :
    Reads ⟨.words text, p, gs⟩ ws ⟨.words (text ++ ws.flatMap Token.extent), p, gs⟩ := by
  induction ws generalizing text with
  | nil => simp [Reads, pure, Except.pure]
  | cons t ws ih =>
    have ht := hw t List.mem_cons_self
    have hh := ih (fun u hu => hw u (List.mem_cons_of_mem _ hu)) (text ++ t.gap ++ t.text)
    refine Reads.cons (u := ⟨.words (text ++ t.gap ++ t.text), p, gs⟩) (by simp [step, ht]) ?_
    simpa [Token.extent] using hh

/-- Where `p` is pending, reading `ts` ends behind the operand `e` with `q` pending. -/
def ReadsOperand (p : Pending) (ts : List Token) (q : Pending) (e : TagExpr) : Prop :=
  ∀ gs, ∃ o : Operand, o.expr? = some e ∧ Reads ⟨.missing, p, gs⟩ ts ⟨o, q, gs⟩

end Parse

/-- What reading a phrase of a level adds to what is pending. -/
def Level.ReadAs : Level → List Token → TagExpr → Prop
  | primary, ts, e => ∀ p, Parse.ReadsOperand p ts p e
  | negation, ts, e => ∃ n x, Pending.negate n x = e ∧
      ∀ d c k, Parse.ReadsOperand ⟨d, c, k⟩ ts ⟨d, c, k + n⟩ x
  | conjunction, ts, e => ∀ d, ∃ c n x, (⟨d, c, n⟩ : Pending).conjoin x = e ∧
      Parse.ReadsOperand ⟨d, none, 0⟩ ts ⟨d, c, n⟩ x
  | disjunction, ts, e => ∃ p x, p.disjoin x = e ∧ Parse.ReadsOperand {} ts p x

theorem Derives.readAs {lvl : Level} {ts : List Token} {e : TagExpr}
    (h : Derives Token.leaf lvl ts e) : lvl.ReadAs ts e := by
  induction h with
  | @words ws hne hw =>
    intro p gs
    obtain ⟨t, us, rfl⟩ := List.exists_cons_of_ne_nil hne
    have ht := hw t List.mem_cons_self
    have hus := Parse.reads_words (fun u hu => hw u (List.mem_cons_of_mem _ hu)) t.text p gs
    exact ⟨.words (Token.spelling (t :: us)), rfl,
      .cons (by simp [Parse.step, Parse.beginOperand, ht]) hus⟩
  | @group o c us f ho hc _ ih =>
    intro p gs
    obtain ⟨q, x, rfl, hread⟩ := ih
    obtain ⟨b, hb, hus⟩ := hread (⟨o.start, p⟩ :: gs)
    refine ⟨.closed (q.disjoin x), rfl, .cons (u := ⟨.missing, {}, ⟨o.start, p⟩ :: gs⟩) ?_ ?_⟩
    · simp [Parse.step, Parse.beginOperand, ho]
    · refine hus.append (.cons (u := ⟨.closed (q.disjoin x), p, gs⟩) ?_ rfl)
      rw [Parse.step_after hb q _ (by simp [hc])]
      simp [Parse.afterOperand, hc]
  | operand _ ih => exact ⟨0, _, rfl, fun d c k => ih ⟨d, c, k⟩⟩
  | @not t us f ht _ ih =>
    obtain ⟨n, x, rfl, hread⟩ := ih
    refine ⟨n + 1, x, rfl, fun d c k gs => ?_⟩
    obtain ⟨b, hb, hus⟩ := hread d c (k + 1) gs
    rw [Nat.add_assoc, Nat.add_comm 1] at hus
    exact ⟨b, hb, .cons (by simp [Parse.step, Parse.beginOperand, ht]) hus⟩
  | conjunct _ ih =>
    intro d
    obtain ⟨n, x, rfl, hread⟩ := ih
    exact ⟨none, n, x, rfl, by simpa using hread d none 0⟩
  | @and t us vs l r ht _ _ ihl ihr =>
    intro d
    obtain ⟨c, n, x, rfl, hl⟩ := ihl d
    obtain ⟨m, y, rfl, hr⟩ := ihr
    refine ⟨some ((⟨d, c, n⟩ : Pending).conjoin x), m, y, rfl, fun gs => ?_⟩
    obtain ⟨a, ha, hus⟩ := hl gs
    obtain ⟨b, hb, hvs⟩ := hr d (some ((⟨d, c, n⟩ : Pending).conjoin x)) 0 gs
    rw [Nat.zero_add] at hvs
    refine ⟨b, hb, hus.append (.cons ?_ hvs)⟩
    rw [Parse.step_after ha _ gs (by simp [ht])]
    simp [Parse.afterOperand, ht]
  | disjunct _ ih =>
    obtain ⟨c, n, x, rfl, hread⟩ := ih none
    exact ⟨⟨none, c, n⟩, x, rfl, hread⟩
  | @or t us vs l r ht _ _ ihl ihr =>
    obtain ⟨p, x, rfl, hl⟩ := ihl
    obtain ⟨c, n, y, rfl, hr⟩ := ihr (some (p.disjoin x))
    refine ⟨⟨some (p.disjoin x), c, n⟩, y, rfl, fun gs => ?_⟩
    obtain ⟨a, ha, hus⟩ := hl gs
    obtain ⟨b, hb, hvs⟩ := hr gs
    refine ⟨b, hb, hus.append (.cons ?_ hvs)⟩
    rw [Parse.step_after ha p gs (by simp [ht])]
    simp [Parse.afterOperand, ht]

/-- A sequence of tokens is read to its end, or up to the first token that is refused. -/
theorem Parse.reads_cases (s : Parse) (ts : List Token) :
    (∃ s', Reads s ts s') ∨ ∃ pre t post s' err, ts = pre ++ t :: post ∧ Reads s pre s' ∧
      step s' t = .error err ∧ ts.foldlM step s = .error err := by
  induction ts generalizing s with
  | nil => exact .inl ⟨s, rfl⟩
  | cons t ts ih =>
    cases ht : step s t with
    | error err =>
      have hfold : (t :: ts).foldlM step s = .error err := by
        rw [List.foldlM_cons, ht]
        rfl
      exact .inr ⟨[], t, ts, s, err, rfl, rfl, ht, hfold⟩
    | ok u =>
      rcases ih u with ⟨s', hr⟩ | ⟨pre, t', post, s', err, rfl, hr, hs, hfold⟩
      · exact .inl ⟨s', hr.cons ht⟩
      · refine .inr ⟨t :: pre, t', post, s', err, rfl, hr.cons ht, hs, ?_⟩
        rw [List.foldlM_cons, ht]
        exact hfold

theorem parseTokens_of_reads {ts : List Token} {s : Parse} (hne : ts ≠ [])
    (h : Parse.Reads {} ts s) : Precedence.parseTokens ts = s.finish.map some := by
  rw [Precedence.parseTokens, List.isEmpty_eq_false_iff.mpr hne, if_neg Bool.false_ne_true, h]
  rfl

theorem parseTokens_of_refused {ts : List Token} {err : TagExprError} (hne : ts ≠ [])
    (h : ts.foldlM Parse.step {} = .error err) : Precedence.parseTokens ts = .error err := by
  rw [Precedence.parseTokens, List.isEmpty_eq_false_iff.mpr hne, if_neg Bool.false_ne_true, h]
  rfl

theorem parseTokens_of_derives {ts : List Token} {e : TagExpr}
    (h : Derives Token.leaf .disjunction ts e) : Precedence.parseTokens ts = .ok (some e) := by
  obtain ⟨p, x, rfl, hread⟩ := h.readAs
  obtain ⟨o, ho, hts⟩ := hread []
  have hne : ts ≠ [] := by
    rintro rfl
    cases hts
    cases ho
  have hf : Parse.finish ⟨o, p, []⟩ = .ok (p.disjoin x) := by simp [Parse.finish, ho]
  rw [parseTokens_of_reads hne hts, hf]
  rfl

/-- The text of what an operator of kind `k` has on its left, with the operator. -/
inductive LeftSide (lvl : Level) (k : TokenKind) : Option TagExpr → List Token → Prop
  | absent : LeftSide lvl k none []
  | present {t : Token} {ts : List Token} {e : TagExpr} (h : Derives Token.leaf lvl ts e)
      (ht : t.kind = k) : LeftSide lvl k (some e) (ts ++ [t])

/-- The tokens behind what is pending. -/
def Pending.Covers (p : Pending) (ts : List Token) : Prop :=
  ∃ a b c, ts = a ++ (b ++ c) ∧ LeftSide .disjunction .or p.disjunct a ∧
    LeftSide .conjunction .and p.conjunct b ∧ (∀ t ∈ c, t.kind = .not) ∧ c.length = p.negations

/-- The tokens up to the last group that is still open. -/
inductive Opened : List Group → List Token → Prop
  | none : Opened [] []
  | group {g : Group} {gs : List Group} {ts us : List Token} {o : Token} (h : Opened gs ts)
      (hp : g.outside.Covers us) (ho : o.kind = .opening) (hs : g.position = o.start) :
      Opened (g :: gs) (ts ++ (us ++ [o]))

/-- The tokens of the current operand. -/
inductive Operand.Covers : Operand → List Token → Prop
  | missing : Covers .missing []
  | words {ws : List Token} (hne : ws ≠ []) (hw : ∀ t ∈ ws, t.kind = .word) :
      Covers (.words (Token.spelling ws)) ws
  | closed {ts : List Token} {e : TagExpr} (h : Derives Token.leaf .primary ts e) :
      Covers (.closed e) ts

/-- The state `s` accounts for all the tokens read so far. -/
def Parse.Covers (s : Parse) (ts : List Token) : Prop :=
  ∃ a b c, ts = a ++ (b ++ c) ∧ Opened s.groups a ∧ s.pending.Covers b ∧ s.operand.Covers c

theorem Operand.Covers.derives {o : Operand} {ts : List Token} {e : TagExpr} (h : o.Covers ts)
    (he : o.expr? = some e) : Derives Token.leaf .primary ts e := by
  cases h with
  | missing => cases he
  | words hne hw =>
    cases he
    exact .words hne hw
  | closed h =>
    cases he
    exact h

theorem derives_negate {ts us : List Token} {e : TagExpr} (hn : ∀ t ∈ us, t.kind = .not)
    (h : Derives Token.leaf .negation ts e) :
    Derives Token.leaf .negation (us ++ ts) (Pending.negate us.length e) := by
  induction us with
  | nil => exact h
  | cons t us ih =>
    exact .not (hn t List.mem_cons_self) (ih fun u hu => hn u (List.mem_cons_of_mem _ hu))

namespace Pending.Covers

variable {p : Pending} {ts us : List Token} {e : TagExpr}

theorem empty : ({} : Pending).Covers [] :=
  ⟨[], [], [], rfl, .absent, .absent, by simp, rfl⟩

theorem negate (h : p.Covers ts) {t : Token} (ht : t.kind = .not) :
    Pending.Covers ⟨p.disjunct, p.conjunct, p.negations + 1⟩ (ts ++ [t]) := by
  obtain ⟨a, b, c, rfl, ha, hb, hc, hlen⟩ := h
  refine ⟨a, b, c ++ [t], by simp, ha, hb, ?_, by simp [hlen]⟩
  intro u hu
  rcases List.mem_append.mp hu with hu | hu
  · exact hc u hu
  · rw [List.mem_singleton.mp hu, ht]

theorem conjoin (h : p.Covers ts) (he : Derives Token.leaf .primary us e) :
    ∃ a b, ts ++ us = a ++ b ∧ LeftSide .disjunction .or p.disjunct a ∧
      Derives Token.leaf .conjunction b (p.conjoin e) := by
  obtain ⟨a, b, c, rfl, ha, hb, hc, hlen⟩ := h
  refine ⟨a, b ++ (c ++ us), by simp, ha, ?_⟩
  have hn := derives_negate hc (.operand he)
  rw [hlen] at hn
  obtain ⟨d, l, k⟩ := p
  cases hb with
  | absent => exact .conjunct hn
  | present hl ht => simpa [conjoin] using Derives.and ht hl hn

theorem disjoin (h : p.Covers ts) (he : Derives Token.leaf .primary us e) :
    Derives Token.leaf .disjunction (ts ++ us) (p.disjoin e) := by
  obtain ⟨a, b, hts, ha, hb⟩ := h.conjoin he
  rw [hts]
  obtain ⟨d, l, k⟩ := p
  cases ha with
  | absent => exact .disjunct hb
  | present hl ht => simpa [disjoin] using Derives.or ht hl hb

end Pending.Covers

namespace Parse

theorem beginOperand_cases {p : Pending} {gs : List Group} {t : Token} {s : Parse}
    (h : beginOperand p gs t = .ok s) :
    (t.kind = .not ∧ s = ⟨.missing, ⟨p.disjunct, p.conjunct, p.negations + 1⟩, gs⟩) ∨
      (t.kind = .opening ∧ s = ⟨.missing, {}, ⟨t.start, p⟩ :: gs⟩) ∨
      (t.kind = .word ∧ s = ⟨.words t.text, p, gs⟩) := by
  cases ht : t.kind <;> simp only [beginOperand, ht] at h <;> cases h <;> simp

theorem afterOperand_cases {e : TagExpr} {p : Pending} {gs : List Group} {t : Token} {s : Parse}
    (h : afterOperand e p gs t = .ok s) :
    (t.kind = .and ∧ s = ⟨.missing, ⟨p.disjunct, some (p.conjoin e), 0⟩, gs⟩) ∨
      (t.kind = .or ∧ s = ⟨.missing, ⟨some (p.disjoin e), none, 0⟩, gs⟩) ∨
      ∃ g outer, gs = g :: outer ∧ t.kind = .closing ∧
        s = ⟨.closed (p.disjoin e), g.outside, outer⟩ := by
  cases gs <;> cases ht : t.kind <;> simp only [afterOperand, ht] at h <;> cases h <;> simp

theorem Covers.beginOperand {p : Pending} {gs : List Group} {ts : List Token} {t : Token}
    {s : Parse} (h : Covers ⟨.missing, p, gs⟩ ts) (hs : beginOperand p gs t = .ok s) :
    s.Covers (ts ++ [t]) := by
  obtain ⟨a, b, c, rfl, ha, hb, hc⟩ := h
  cases hc
  rcases beginOperand_cases hs with ⟨ht, rfl⟩ | ⟨ht, rfl⟩ | ⟨ht, rfl⟩
  · exact ⟨a, b ++ [t], [], by simp, ha, hb.negate ht, .missing⟩
  · exact ⟨a ++ (b ++ [t]), [], [], by simp, .group ha hb ht rfl, .empty, .missing⟩
  · have hw : Operand.Covers (.words (Token.spelling [t])) [t] := .words (by simp) (by simp [ht])
    exact ⟨a, b, [t], by simp, ha, hb, by simpa [Token.spelling] using hw⟩

theorem Covers.afterOperand {o : Operand} {p : Pending} {gs : List Group} {ts : List Token}
    {t : Token} {e : TagExpr} {s : Parse} (h : Covers ⟨o, p, gs⟩ ts) (ho : o.expr? = some e)
    (hs : afterOperand e p gs t = .ok s) : s.Covers (ts ++ [t]) := by
  obtain ⟨a, b, c, rfl, ha, hb, hc⟩ := h
  have he := hc.derives ho
  rcases afterOperand_cases hs with ⟨ht, rfl⟩ | ⟨ht, rfl⟩ | ⟨g, outer, rfl, ht, rfl⟩
  · obtain ⟨d, f, hbc, hd, hf⟩ := hb.conjoin he
    refine ⟨a, d ++ (f ++ [t]), [], by simp [hbc], ha, ?_, .missing⟩
    exact ⟨d, f ++ [t], [], by simp, hd, .present hf ht, by simp, rfl⟩
  · refine ⟨a, b ++ c ++ [t], [], by simp, ha, ?_, .missing⟩
    exact ⟨b ++ c ++ [t], [], [], by simp, .present (hb.disjoin he) ht, .absent, by simp, rfl⟩
  · cases ha with
    | @group _ _ us vs u hus hvs hu _ =>
      refine ⟨us, vs, u :: (b ++ c ++ [t]), by simp, hus, hvs, .closed ?_⟩
      exact .group hu ht (hb.disjoin he)

theorem Covers.step {s s' : Parse} {ts : List Token} {t : Token} (h : s.Covers ts)
    (hs : step s t = .ok s') : s'.Covers (ts ++ [t]) := by
  obtain ⟨o, p, gs⟩ := s
  cases o with
  | missing => exact h.beginOperand hs
  | closed e => exact h.afterOperand rfl hs
  | words text =>
    by_cases ht : t.kind = .word
    · simp only [Parse.step, if_pos ht] at hs
      cases hs
      obtain ⟨a, b, c, rfl, ha, hb, hc⟩ := h
      refine ⟨a, b, c ++ [t], by simp, ha, hb, ?_⟩
      cases hc with
      | words hne hw =>
        have hh : Operand.Covers (.words (Token.spelling (c ++ [t]))) (c ++ [t]) := by
          refine .words (by simp) fun u hu => ?_
          rcases List.mem_append.mp hu with hu | hu
          · exact hw u hu
          · rw [List.mem_singleton.mp hu, ht]
        simpa [Token.spelling_append_singleton hne, Token.extent] using hh
    · rw [step_after rfl p gs ht] at hs
      exact h.afterOperand rfl hs

theorem Covers.reads {s s' : Parse} {ts us : List Token} (h : s.Covers ts) (hr : Reads s us s') :
    s'.Covers (ts ++ us) := by
  induction us generalizing s ts with
  | nil =>
    cases hr
    simpa using h
  | cons t us ih =>
    cases ht : Parse.step s t with
    | error err =>
      rw [Reads, List.foldlM_cons, ht] at hr
      cases hr
    | ok s'' =>
      rw [Reads, List.foldlM_cons, ht] at hr
      simpa using ih (h.step ht) hr

theorem covers_initial : Covers {} [] :=
  ⟨[], [], [], rfl, .none, .empty, .missing⟩

end Parse

theorem Parse.finish_cases {s : Parse} {e : TagExpr} (h : s.finish = .ok e) :
    ∃ x, s.operand.expr? = some x ∧ s.groups = [] ∧ e = s.pending.disjoin x := by
  obtain ⟨o, p, gs⟩ := s
  cases ho : o.expr? with
  | none => simp [finish, ho] at h
  | some x =>
    cases gs with
    | nil =>
      simp only [finish, ho] at h
      cases h
      exact ⟨x, rfl, rfl, rfl⟩
    | cons g gs => simp [finish, ho] at h

/-- A text that is accepted is read to its end. -/
theorem exists_reads_of_parseTokens {ts : List Token} {e : TagExpr}
    (h : Precedence.parseTokens ts = .ok (some e)) :
    ∃ s, Parse.Reads {} ts s ∧ s.finish = .ok e := by
  have hne : ts ≠ [] := by
    rintro rfl
    cases h
  rcases Parse.reads_cases {} ts with ⟨s, hr⟩ | ⟨_, _, _, _, err, -, -, -, hfold⟩
  · refine ⟨s, hr, ?_⟩
    rw [parseTokens_of_reads hne hr] at h
    cases hf : s.finish with
    | error err =>
      rw [hf] at h
      cases h
    | ok f =>
      rw [hf] at h
      cases h
      rfl
  · rw [parseTokens_of_refused hne hfold] at h
    cases h

theorem derives_of_parseTokens {ts : List Token} {e : TagExpr}
    (h : Precedence.parseTokens ts = .ok (some e)) : Derives Token.leaf .disjunction ts e := by
  obtain ⟨s, hr, hf⟩ := exists_reads_of_parseTokens h
  obtain ⟨x, ho, hg, rfl⟩ := Parse.finish_cases hf
  obtain ⟨a, b, c, hts, ha, hb, hc⟩ := Parse.covers_initial.reads hr
  rw [hg] at ha
  cases ha
  rw [List.nil_append, List.nil_append] at hts
  rw [hts]
  exact hb.disjoin (hc.derives ho)

theorem parseTokens_eq_some_iff {ts : List Token} {e : TagExpr} :
    Precedence.parseTokens ts = .ok (some e) ↔ Derives Token.leaf .disjunction ts e :=
  ⟨derives_of_parseTokens, parseTokens_of_derives⟩

theorem parseTokens_eq_none_iff {ts : List Token} :
    Precedence.parseTokens ts = .ok none ↔ ts = [] := by
  cases ts with
  | nil => simp [Precedence.parseTokens]
  | cons t ts =>
    simp only [Precedence.parseTokens, List.isEmpty_cons, Bool.false_eq_true, if_false, reduceCtorEq,
      iff_false]
    intro h
    cases hr : (t :: ts).foldlM Parse.step {} >>= Parse.finish with
    | error err =>
      rw [hr] at h
      cases h
    | ok e =>
      rw [hr] at h
      cases h

/-- The tokens of a text hold the slices of the text that they stand for. -/
theorem derives_source_iff (s : List Char) (e : TagExpr) :
    Derives (Token.sourceOf s) .disjunction (tokensOf s) e ↔
      Derives Token.leaf .disjunction (tokensOf s) e := by
  have hl : ∀ ws, ws ≠ [] → ws <:+: tokensOf s → Token.sourceOf s ws = Token.leaf ws := by
    rintro ws hne ⟨pre, post, he⟩
    have hcut := scan_cut 0 s
    rw [← tokensOf, ← he] at hcut
    exact hcut.sourceOf_eq hne
  exact ⟨fun h => h.congr_leaf hl, fun h => h.congr_leaf fun ws hne hi => (hl ws hne hi).symm⟩

/-- The parser accepts the texts without tokens and the texts whose tokens derive from the grammar,
each with its only tree, whose leaves are slices of the text. It refuses every other text. -/
theorem parse_precedence_iff (s : String) :
    Cut 0 s.toList (tokensOf s.toList) ∧
      (Grammar.precedence.parse s = .ok none ↔ tokensOf s.toList = []) ∧
      (∀ e, Grammar.precedence.parse s = .ok (some e) ↔
        Derives (Token.sourceOf s.toList) .disjunction (tokensOf s.toList) e) ∧
      (∀ ts e f, Derives (Token.sourceOf s.toList) .disjunction ts e →
        Derives (Token.sourceOf s.toList) .disjunction ts f → e = f) ∧
      (tokensOf s.toList ≠ [] →
        (∀ e, ¬ Derives (Token.sourceOf s.toList) .disjunction (tokensOf s.toList) e) →
        ∃ err, Grammar.precedence.parse s = .error err) := by
  have hnone : Grammar.precedence.parse s = .ok none ↔ tokensOf s.toList = [] :=
    parseTokens_eq_none_iff
  have hsome : ∀ e, Grammar.precedence.parse s = .ok (some e) ↔
      Derives (Token.sourceOf s.toList) .disjunction (tokensOf s.toList) e :=
    fun e => parseTokens_eq_some_iff.trans (derives_source_iff s.toList e).symm
  refine ⟨scan_cut 0 s.toList, hnone, hsome, fun _ _ _ h h' => h.unique h', fun hne hno => ?_⟩
  cases hp : Grammar.precedence.parse s with
  | error err => exact ⟨err, rfl⟩
  | ok r =>
    cases r with
    | none => exact absurd (hnone.mp hp) hne
    | some e => exact absurd ((hsome e).mp hp) (hno e)

end SuitePlan
