import SuitePlan.Proofs.TagExpr.Refusal

/-! How a text that is refused could have gone on. The kinds of the tokens alone decide how far a text
can be read, and every part of a text that can be read is the beginning of one that is accepted. -/

namespace SuitePlan

/-- The operand at the current depth: still to come, a run of words, or a finished group. -/
inductive Place where
  | missing
  | words
  | closed
deriving DecidableEq

def Operand.place : Operand → Place
  | missing => .missing
  | words _ => .words
  | closed _ => .closed

/-- What decides which token can come next: the state of the operand and the number of open groups. -/
structure Outline where
  place : Place
  groups : Nat
deriving DecidableEq

def Parse.outline (s : Parse) : Outline := ⟨s.operand.place, s.groups.length⟩

namespace Outline

def step (o : Outline) (k : TokenKind) : Option Outline :=
  match o.place, k, o.groups with
  | .missing, .not, n => some ⟨.missing, n⟩
  | .missing, .opening, n => some ⟨.missing, n + 1⟩
  | .missing, .word, n => some ⟨.words, n⟩
  | .missing, _, _ => none
  | .words, .word, n => some ⟨.words, n⟩
  | _, .and, n => some ⟨.missing, n⟩
  | _, .or, n => some ⟨.missing, n⟩
  | _, .closing, n + 1 => some ⟨.closed, n⟩
  | _, _, _ => none

def run (o : Outline) (ks : List TokenKind) : Option Outline := ks.foldlM step o

def Complete (o : Outline) : Prop := o.place ≠ .missing ∧ o.groups = 0

theorem run_cons (o : Outline) (k : TokenKind) (ks : List TokenKind) :
    o.run (k :: ks) = (o.step k).bind (run · ks) := rfl

theorem run_append (o : Outline) (ks js : List TokenKind) :
    o.run (ks ++ js) = (o.run ks).bind (run · js) := by
  rw [run, List.foldlM_append]
  rfl

end Outline

namespace Parse

theorem outline_step (s : Parse) (t : Token) :
    (step s t).toOption.map outline = s.outline.step t.kind := by
  obtain ⟨o, p, gs⟩ := s
  cases o <;> cases gs <;> cases hk : t.kind <;>
    simp [step, beginOperand, afterOperand, outline, Outline.step, Operand.place, hk,
      Except.toOption]

theorem outline_of_step {s s' : Parse} {t : Token} (h : step s t = .ok s') :
    s.outline.step t.kind = some s'.outline := by
  rw [← outline_step, h]
  rfl

theorem outline_of_step_error {s : Parse} {t : Token} {err : TagExprError}
    (h : step s t = .error err) : s.outline.step t.kind = none := by
  rw [← outline_step, h]
  rfl

theorem Reads.outline {s s' : Parse} {ts : List Token} (h : Reads s ts s') :
    s.outline.run (ts.map Token.kind) = some s'.outline := by
  induction ts generalizing s with
  | nil =>
    cases h
    rfl
  | cons t ts ih =>
    cases ht : Parse.step s t with
    | error err =>
      rw [Reads, List.foldlM_cons, ht] at h
      cases h
    | ok u =>
      rw [Reads, List.foldlM_cons, ht] at h
      rw [List.map_cons, Outline.run_cons, outline_of_step ht, Option.bind_some]
      exact ih h

theorem exists_reads {s : Parse} {ts : List Token} {o : Outline}
    (h : s.outline.run (ts.map Token.kind) = some o) : ∃ s', Reads s ts s' ∧ s'.outline = o := by
  induction ts generalizing s with
  | nil =>
    cases h
    exact ⟨s, rfl, rfl⟩
  | cons t ts ih =>
    rw [List.map_cons, Outline.run_cons] at h
    cases ht : Parse.step s t with
    | error err =>
      rw [outline_of_step_error ht] at h
      cases h
    | ok u =>
      rw [outline_of_step ht, Option.bind_some] at h
      obtain ⟨s', hr, hs'⟩ := ih h
      exact ⟨s', .cons ht hr, hs'⟩

end Parse

def Outline.initial : Outline := ⟨.missing, 0⟩

theorem Parse.finish_isOk_iff (s : Parse) : (∃ e, s.finish = .ok e) ↔ s.outline.Complete := by
  obtain ⟨o, p, gs⟩ := s
  cases o <;> cases gs <;>
    simp [finish, Operand.expr?, outline, Operand.place, Outline.Complete]

theorem accepted_iff (ts : List Token) :
    (∃ e, Precedence.parseTokens ts = .ok (some e)) ↔
      ∃ o, Outline.initial.run (ts.map Token.kind) = some o ∧ o.Complete := by
  constructor
  · rintro ⟨e, h⟩
    obtain ⟨s, hr, hf⟩ := exists_reads_of_parseTokens h
    exact ⟨s.outline, hr.outline, s.finish_isOk_iff.mp ⟨e, hf⟩⟩
  · rintro ⟨o, ho, hc⟩
    obtain ⟨s, hr, rfl⟩ := Parse.exists_reads (s := {}) ho
    obtain ⟨e, he⟩ := s.finish_isOk_iff.mpr hc
    have hne : ts ≠ [] := by
      rintro rfl
      cases hr
      exact hc.1 rfl
    refine ⟨e, ?_⟩
    rw [parseTokens_of_reads hne hr, he]
    rfl

namespace Outline

/-- The kinds of the tokens that complete a text: an operand if one is missing, else a further one,
and the closing parentheses of the open groups. -/
def rest (o : Outline) : List TokenKind :=
  (if o.place = .missing then [.word] else [.and, .word]) ++ List.replicate o.groups .closing

theorem run_closing {p : Place} (hp : p ≠ .missing) (n : Nat) :
    ∃ o, (⟨p, n⟩ : Outline).run (List.replicate n .closing) = some o ∧ o.Complete := by
  induction n generalizing p with
  | zero => exact ⟨⟨p, 0⟩, rfl, hp, rfl⟩
  | succ n ih =>
    have hs : (⟨p, n + 1⟩ : Outline).step .closing = some ⟨.closed, n⟩ := by
      cases p with
      | missing => exact absurd rfl hp
      | words => rfl
      | closed => rfl
    rw [List.replicate_succ, run_cons, hs, Option.bind_some]
    exact ih Place.noConfusion

theorem run_rest (o : Outline) : ∃ o', o.run o.rest = some o' ∧ o'.Complete := by
  obtain ⟨p, n⟩ := o
  cases p with
  | missing | words | closed => exact run_closing (p := .words) Place.noConfusion n

/-- A text that completes what has been read. -/
def restText (o : Outline) : List Char :=
  (if o.place = .missing then [' ', 'a'] else [' ', 'a', 'n', 'd', ' ', 'a']) ++
    List.replicate o.groups ')'

theorem cut_closing (i n : Nat) : ∃ ts, Cut i (List.replicate n ')') ts ∧
    ts.map Token.kind = List.replicate n .closing := by
  induction n generalizing i with
  | zero => exact ⟨[], .blank (by simp), rfl⟩
  | succ n ih =>
    obtain ⟨ts, hcut, hk⟩ := ih (i + byteSize [] + byteSize [')'])
    have hh := Cut.paren (g := []) (by simp) rfl hcut
    exact ⟨_, hh, congrArg (TokenKind.closing :: ·) hk⟩

theorem cut_operand (i n : Nat) : ∃ ts, Cut i (' ' :: 'a' :: List.replicate n ')') ts ∧
    ts.map Token.kind = .word :: List.replicate n .closing := by
  obtain ⟨ts, hcut, hk⟩ := cut_closing (i + byteSize [' '] + byteSize ['a']) n
  have hend : ∀ c ∈ (List.replicate n ')').head?, isWordChar c = false := by
    intro c hc
    rw [List.eq_of_mem_replicate (List.mem_of_mem_head? hc)]
    rfl
  have hh := Cut.word isBlank_space (List.cons_ne_nil 'a' []) (List.all_eq_true.mp rfl) hend hcut
  exact ⟨_, hh, congrArg (TokenKind.word :: ·) hk⟩

theorem cut_restText (o : Outline) (i : Nat) :
    ∃ ts, Cut i o.restText ts ∧ ts.map Token.kind = o.rest := by
  by_cases hp : o.place = .missing
  · rw [restText, rest, if_pos hp, if_pos hp]
    exact cut_operand i o.groups
  · rw [restText, rest, if_neg hp, if_neg hp]
    obtain ⟨ts, hcut, hk⟩ := cut_operand (i + byteSize [' '] + byteSize ['a', 'n', 'd']) o.groups
    have hh := Cut.word isBlank_space (List.cons_ne_nil 'a' ['n', 'd']) (List.all_eq_true.mp rfl)
      (by simp; decide) hcut
    exact ⟨_, hh, congrArg (TokenKind.and :: ·) hk⟩

theorem head?_restText (o : Outline) : o.restText.head? = some ' ' := by
  unfold restText
  split <;> rfl

theorem rest_ne_nil (o : Outline) : o.rest ≠ [] := by
  unfold rest
  split <;> simp

end Outline

/-- An accepted text begins with the tokens `ts` and has more of them. -/
def Viable (ts : List Token) : Prop :=
  ∃ s e us, Grammar.precedence.parse s = .ok (some e) ∧ tokensOf s.toList = ts ++ us ∧ us ≠ []

/-- An accepted text has tokens of these kinds. -/
def AcceptedKinds (ks : List TokenKind) : Prop :=
  ∃ s r, Grammar.precedence.parse s = .ok r ∧ (tokensOf s.toList).map Token.kind = ks

/-- Whatever has been read without an error is the beginning of an accepted text. -/
theorem Parse.Reads.viable {s : List Char} {ts post : List Token} {st : Parse}
    (h : Reads {} ts st) (hs : tokensOf s = ts ++ post) : Viable ts := by
  have hcut := tokensOf_cut s
  rw [hs] at hcut
  have hread : Cut 0 (ts.flatMap Token.extent) ts := hcut.take
  obtain ⟨us, hus, hk⟩ := st.outline.cut_restText (0 + byteSize (ts.flatMap Token.extent))
  have hb : Boundary (ts.flatMap Token.extent) st.outline.restText := by
    intro c hc
    refine ⟨hread.last_not_blank c hc, fun _ d hd => ?_⟩
    rw [st.outline.head?_restText] at hd
    cases hd
    rfl
  have hall : tokensOf (ts.flatMap Token.extent ++ st.outline.restText) = ts ++ us :=
    (hread.append hb hus).eq_scan
  obtain ⟨o, ho, hc⟩ := st.outline.run_rest
  have hacc : ∃ e, Precedence.parseTokens (ts ++ us) = .ok (some e) := by
    refine (accepted_iff _).mpr ⟨o, ?_, hc⟩
    rw [List.map_append, Outline.run_append, ← ho, ← hk]
    exact congrArg (Option.bind · _) h.outline
  obtain ⟨e, he⟩ := hacc
  -- the text up to the last token that has been read, and one that completes it
  refine ⟨String.ofList (ts.flatMap Token.extent ++ st.outline.restText), e, us, ?_, ?_, ?_⟩
  · rw [Grammar.parse, String.toList_ofList, Precedence.parse, hall, he]
  · rw [String.toList_ofList, hall]
  · rintro rfl
    exact st.outline.rest_ne_nil hk.symm

theorem AcceptedKinds.run {ks : List TokenKind} (h : AcceptedKinds ks) :
    ks = [] ∨ ∃ o, Outline.initial.run ks = some o ∧ o.Complete := by
  obtain ⟨s, r, hr, rfl⟩ := h
  cases r with
  | none =>
    have hnil : tokensOf s.toList = [] := parseTokens_eq_none_iff.mp hr
    exact .inl (by rw [hnil, List.map_nil])
  | some e => exact .inr ((accepted_iff _).mp ⟨e, hr⟩)

theorem AcceptedKinds.run_append {ks js : List TokenKind} {o : Outline}
    (h : AcceptedKinds (ks ++ js)) (hne : ks ≠ []) (ho : Outline.initial.run ks = some o) :
    ∃ o', o.run js = some o' ∧ o'.Complete := by
  rcases h.run with hnil | ⟨o', ho', hc⟩
  · exact absurd (List.append_eq_nil_iff.mp hnil).1 hne
  · rw [Outline.run_append, ho, Option.bind_some] at ho'
    exact ⟨o', ho', hc⟩

theorem Outline.starts_of_step {o o' : Outline} {k : TokenKind} (hp : o.place = .missing)
    (h : o.step k = some o') : k = .word ∨ k = .opening ∨ k = .not := by
  obtain ⟨p, n⟩ := o
  subst hp
  cases k <;> simp [step] at h ⊢

theorem Parse.Reads.not_acceptedKinds {ts : List Token} {st : Parse} {k : TokenKind}
    (h : Reads {} ts st) (hk : st.outline.step k = none) (ks : List TokenKind) :
    ¬ AcceptedKinds (ts.map Token.kind ++ k :: ks) := by
  intro hacc
  rcases hacc.run with hnil | ⟨o, ho, -⟩
  · cases (List.append_eq_nil_iff.mp hnil).2
  · have hrun : Outline.initial.run (ts.map Token.kind) = some st.outline := h.outline
    rw [Outline.run_append, hrun, Option.bind_some, Outline.run_cons, hk] at ho
    cases ho

/-- What has been read up to a token that is refused is the beginning of an accepted text, but no
accepted text has a token of that kind there. Where the text ends too early it is such a beginning
itself, and every accepted text that begins so goes on with an operand. -/
theorem parse_error_viable (s : String) :
    (∀ token position, Grammar.precedence.parse s = .error (.misplacedToken token position) →
      ∃ pre t post, tokensOf s.toList = pre ++ t :: post ∧ t.start = position ∧
        t.content = token ∧
        slice s.toList position (position + byteSize token.toList) = token.toList ∧
        Viable pre ∧ ∀ ks, ¬ AcceptedKinds (pre.map Token.kind ++ t.kind :: ks)) ∧
      (Grammar.precedence.parse s = .error .missingOperand →
        Viable (tokensOf s.toList) ∧
        ∀ ks, AcceptedKinds ((tokensOf s.toList).map Token.kind ++ ks) →
          ∃ k rest, ks = k :: rest ∧ (k = .word ∨ k = .opening ∨ k = .not)) := by
  have hcut := tokensOf_cut s.toList
  refine ⟨fun token position h => ?_, fun h => ?_⟩
  · cases refused_of_parseTokens h with
    | @misplaced pre post t st hts hr hs =>
      have hk := Parse.outline_of_step_error hs
      rw [hts] at hcut
      have hslice := hcut.slice_eq
      rw [Token.stop] at hslice
      refine ⟨pre, t, post, hts, rfl, rfl, ?_, hr.viable hts, hr.not_acceptedKinds hk⟩
      rw [Token.content, String.toList_ofList]
      exact hslice
  · cases refused_of_parseTokens h with
    | @unfinished st hr ho =>
      refine ⟨hr.viable (List.append_nil _).symm, fun ks hacc => ?_⟩
      have hplace : st.outline.place = .missing := by rw [Parse.outline, ho, Operand.place]
      have hne : (tokensOf s.toList).map Token.kind ≠ [] := by
        intro hnil
        rw [List.map_eq_nil_iff] at hnil
        rw [Grammar.parse, Precedence.parse, hnil] at h
        cases h
      obtain ⟨o, hrun, hc⟩ := hacc.run_append hne hr.outline
      cases ks with
      | nil =>
        cases hrun
        exact absurd hplace hc.1
      | cons k ks =>
        rw [Outline.run_cons] at hrun
        obtain ⟨o', hk, -⟩ := Option.bind_eq_some_iff.mp hrun
        exact ⟨k, ks, rfl, Outline.starts_of_step hplace hk⟩

theorem parse_error_viable_grouped :
    Grammar.precedence.parse "(é and ) x" = .error (.misplacedToken ")" 8) ∧
      (∃ pre t post, tokensOf "(é and ) x".toList = pre ++ t :: post ∧ t.start = 8 ∧
        t.content = ")" ∧ Viable pre ∧
        ∀ ks, ¬ AcceptedKinds (pre.map Token.kind ++ t.kind :: ks)) ∧
      Grammar.precedence.parse "a or (not" = .error .missingOperand ∧
      Viable (tokensOf "a or (not".toList) := by
  have hmisplaced : Grammar.precedence.parse "(é and ) x" = .error (.misplacedToken ")" 8) := by
    decide +kernel
  have hmissing : Grammar.precedence.parse "a or (not" = .error .missingOperand := by
    decide +kernel
  obtain ⟨pre, t, post, hts, hstart, hcontent, -, hviable, hno⟩ :=
    (parse_error_viable "(é and ) x").1 _ _ hmisplaced
  exact ⟨hmisplaced, ⟨pre, t, post, hts, hstart, hcontent, hviable, hno⟩, hmissing,
    ((parse_error_viable "a or (not").2 hmissing).1⟩

end SuitePlan
