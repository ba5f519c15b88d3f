import SuitePlan.Proofs.TagExpr.LegacyPhrase
import SuitePlan.Proofs.TagExpr.Refusal

/-! Parentheses paired from left to right, and the one that the precedence parser reports. A group in
which a token does not fit is reported as if it were never closed. -/

namespace SuitePlan

/-- The byte offsets of the parentheses without a partner in a text that begins at byte `start`. A
closing one is the partner of the last of those in `opened`, which wait for theirs. -/
def unpaired (start : Nat) (opened : List Nat) : List Char → List Nat
  | [] => opened
  | c :: s =>
    if c = '(' then unpaired (start + c.utf8Size) (start :: opened) s
    else if c = ')' then
      match opened with
      | [] => start :: unpaired (start + c.utf8Size) [] s
      | _ :: outer => unpaired (start + c.utf8Size) outer s
    else unpaired (start + c.utf8Size) opened s

theorem unpaired_flat {g : List Char} (hg : ∀ c ∈ g, isParen c = false) (i : Nat)
    (opened : List Nat) (r : List Char) :
    unpaired i opened (g ++ r) = unpaired (i + byteSize g) opened r := by
  induction g generalizing i with
  | nil => rfl
  | cons c g ih =>
    have hc : c ≠ '(' ∧ c ≠ ')' := by simpa [isParen] using hg c List.mem_cons_self
    simp only [List.cons_append, unpaired, hc.1, hc.2, if_false, byteSize]
    rw [ih fun a ha => hg a (List.mem_cons_of_mem _ ha), Nat.add_assoc]

namespace Token

/-- The starts of the parentheses without a partner in a sequence of tokens. -/
def unpaired (opened : List Nat) : List Token → List Nat
  | [] => opened
  | t :: ts =>
    match t.kind, opened with
    | .opening, opened => unpaired (t.start :: opened) ts
    | .closing, [] => t.start :: unpaired [] ts
    | .closing, _ :: outer => unpaired outer ts
    | _, opened => unpaired opened ts

variable {opened : List Nat} {t : Token} {ts : List Token}

theorem unpaired_opening (h : t.kind = .opening) :
    unpaired opened (t :: ts) = unpaired (t.start :: opened) ts := by
  simp only [unpaired, h]

theorem unpaired_closing {i : Nat} (h : t.kind = .closing) :
    unpaired (i :: opened) (t :: ts) = unpaired opened ts := by
  simp only [unpaired, h]

theorem unpaired_closing_nil (h : t.kind = .closing) :
    unpaired [] (t :: ts) = t.start :: unpaired [] ts := by
  simp only [unpaired, h]

theorem unpaired_other (ho : t.kind ≠ .opening) (hc : t.kind ≠ .closing) :
    unpaired opened (t :: ts) = unpaired opened ts := by
  cases hk : t.kind <;> simp_all [unpaired]

theorem unpaired_all_other {us : List Token}
    (h : ∀ u ∈ us, u.kind ≠ .opening ∧ u.kind ≠ .closing) :
    unpaired opened (us ++ ts) = unpaired opened ts := by
  induction us with
  | nil => rfl
  | cons u us ih =>
    have hu := h u List.mem_cons_self
    rw [List.cons_append, unpaired_other hu.1 hu.2]
    exact ih fun v hv => h v (List.mem_cons_of_mem _ hv)

end Token

theorem Cut.unpaired_eq {i : Nat} {s : List Char} {ts : List Token} (h : Cut i s ts)
    (opened : List Nat) : unpaired i opened s = Token.unpaired opened ts := by
  induction h generalizing opened with
  | @blank i g hg =>
    have hh := unpaired_flat (fun c hc => not_isParen_of_isBlank (hg c hc)) i opened []
    rwa [List.append_nil] at hh
  | @paren i g r c ts hg hc _ ih =>
    rw [unpaired_flat fun c hc => not_isParen_of_isBlank (hg c hc)]
    have hsize : byteSize [c] = c.utf8Size := rfl
    rw [hsize] at ih
    simp only [isParen, Bool.or_eq_true, decide_eq_true_eq] at hc
    rcases hc with rfl | rfl
    · rw [Token.unpaired_opening rfl, ← ih]
      rfl
    · cases opened with
      | nil =>
        rw [Token.unpaired_closing_nil rfl, ← ih]
        rfl
      | cons o outer =>
        rw [Token.unpaired_closing rfl, ← ih]
        rfl
  | @word i g w r ts hg hne hw hr _ ih =>
    have hn : (⟨g, i + byteSize g, w⟩ : Token).kind.nesting = 0 := Legacy.nesting_word hw
    rw [unpaired_flat fun c hc => not_isParen_of_isBlank (hg c hc),
      unpaired_flat fun c hc => not_isParen_of_isWordChar (hw c hc), ih, Token.unpaired_other]
    · intro hk
      simp [hk, TokenKind.nesting] at hn
    · intro hk
      simp [hk, TokenKind.nesting] at hn

theorem Derives.unpaired_append {leaf : List Token → String} {lvl : Level} {ts : List Token}
    {e : TagExpr} (h : Derives leaf lvl ts e) (opened : List Nat) (rest : List Token) :
    Token.unpaired opened (ts ++ rest) = Token.unpaired opened rest := by
  induction h generalizing opened rest with
  | words _ hw => exact Token.unpaired_all_other fun u hu => by simp [hw u hu]
  | @group o c ts e ho hc _ ih =>
    rw [List.cons_append, Token.unpaired_opening ho, List.append_assoc, ih, List.singleton_append,
      Token.unpaired_closing hc]
  | operand _ ih | conjunct _ ih | disjunct _ ih => exact ih opened rest
  | @not t ts e ht _ ih =>
    rw [List.cons_append, Token.unpaired_other (by simp [ht]) (by simp [ht]), ih]
  | @and t ts us l r ht _ _ ihl ihr | @or t ts us l r ht _ _ ihl ihr =>
    rw [List.append_assoc, ihl, List.cons_append,
      Token.unpaired_other (by simp [ht]) (by simp [ht]), ihr]

theorem Cut.le_start {i : Nat} {s : List Char} {ts : List Token} (h : Cut i s ts) :
    ∀ t ∈ ts, i ≤ t.start := by
  induction h with
  | blank => simp
  | paren _ _ _ ih | word _ _ _ _ _ ih =>
    intro t ht
    rcases List.mem_cons.mp ht with rfl | ht
    · exact Nat.le_add_right _ _
    · have hh := ih t ht
      omega

theorem Cut.pairwise_start {i : Nat} {s : List Char} {ts : List Token} (h : Cut i s ts) :
    ts.Pairwise fun t u => t.start < u.start := by
  induction h with
  | blank => exact .nil
  | @paren i g r c ts _ _ h ih =>
    refine .cons (fun u hu => ?_) ih
    have hh := h.le_start u hu
    have hc := c.utf8Size_pos
    simp only [byteSize] at hh
    simp only
    omega
  | @word i g w r ts _ hne _ _ h ih =>
    refine .cons (fun u hu => ?_) ih
    obtain ⟨c, w, rfl⟩ := List.exists_cons_of_ne_nil hne
    have hh := h.le_start u hu
    have hc := c.utf8Size_pos
    simp only [byteSize] at hh
    simp only
    omega

theorem forall_prefix_cons (n : Int) (hn : 0 ≤ n) (t : Token) (ts : List Token) :
    (∀ a, a <+: t :: ts → 0 ≤ n + depth a) ↔
      ∀ a, a <+: ts → 0 ≤ n + t.kind.nesting + depth a := by
  constructor
  · intro h a ha
    have hh := h (t :: a) (List.cons_prefix_cons.mpr ⟨rfl, ha⟩)
    rwa [depth, ← Int.add_assoc] at hh
  · intro h a ha
    rcases List.prefix_cons_iff.mp ha with rfl | ⟨b, rfl, hb⟩
    · rwa [depth, Int.add_zero]
    · rw [depth, ← Int.add_assoc]
      exact h b hb

namespace Token

variable {p : Nat} {opened outer : List Nat} {ts : List Token}

/-- Tokens that start elsewhere do not decide whether `p` has a partner. -/
theorem mem_unpaired_append (ho : p ∉ opened) (hts : ∀ t ∈ ts, p ≠ t.start) (us : List Token) :
    ∃ waiting, p ∉ waiting ∧ (p ∈ unpaired opened (ts ++ us) ↔ p ∈ unpaired waiting us) := by
  induction ts generalizing opened with
  | nil => exact ⟨opened, ho, Iff.rfl⟩
  | cons t ts ih =>
    have ht := hts t List.mem_cons_self
    have hrest : ∀ u ∈ ts, p ≠ u.start := fun u hu => hts u (List.mem_cons_of_mem _ hu)
    rw [List.cons_append]
    by_cases hopen : t.kind = .opening
    · rw [unpaired_opening hopen]
      exact ih (List.not_mem_cons_of_ne_of_not_mem ht ho) hrest
    · by_cases hclose : t.kind = .closing
      · cases opened with
        | nil =>
          rw [unpaired_closing_nil hclose, List.mem_cons, or_iff_right ht]
          exact ih ho hrest
        | cons i opened =>
          rw [unpaired_closing hclose]
          exact ih (List.not_mem_of_not_mem_cons ho) hrest
      · rw [unpaired_other hopen hclose]
        exact ih ho hrest

theorem notMem_unpaired (ho : p ∉ opened) (hts : ∀ t ∈ ts, p ≠ t.start) :
    p ∉ unpaired opened ts := by
  obtain ⟨waiting, hw, hiff⟩ := mem_unpaired_append ho hts []
  rw [List.append_nil] at hiff
  exact fun h => hw (hiff.mp h)

/-- A parenthesis stays without a partner when nowhere behind it more groups are closed than have
been opened since. -/
theorem mem_unpaired_iff (inner : List Nat) (ho : p ∉ outer) (hts : ∀ t ∈ ts, p ≠ t.start) :
    p ∈ unpaired (inner ++ p :: outer) ts ↔ ∀ a, a <+: ts → 0 ≤ inner.length + depth a := by
  induction ts generalizing inner with
  | nil => simp [unpaired, depth]
  | cons t ts ih =>
    have hrest : ∀ u ∈ ts, p ≠ u.start := fun u hu => hts u (List.mem_cons_of_mem _ hu)
    rw [forall_prefix_cons _ (Int.natCast_nonneg _)]
    by_cases hopen : t.kind = .opening
    · have hh := ih (t.start :: inner) hrest
      rw [unpaired_opening hopen, hopen]
      simpa [TokenKind.nesting] using hh
    · by_cases hclose : t.kind = .closing
      · rw [hclose]
        cases inner with
        | nil =>
          rw [List.nil_append, unpaired_closing hclose]
          refine iff_of_false (notMem_unpaired ho hrest) fun hall => ?_
          have hh := hall [] List.nil_prefix
          simp [TokenKind.nesting, depth] at hh
        | cons i inner =>
          have hn : ((i :: inner).length : Int) + TokenKind.closing.nesting = inner.length := by
            simp only [List.length_cons, TokenKind.nesting]
            omega
          rw [List.cons_append, unpaired_closing hclose, ih inner hrest, hn]
      · have hn : t.kind.nesting = 0 := by
          cases hk : t.kind <;> simp_all [TokenKind.nesting]
        rw [unpaired_other hopen hclose, ih inner hrest, hn, Int.add_zero]

end Token

/-- A closing parenthesis at byte `p` stands behind a complete expression that begins the text. -/
def ClosesNothing (s : List Char) (p : Nat) : Prop :=
  ∃ pre t post e, tokensOf s = pre ++ t :: post ∧ t.start = p ∧ t.kind = .closing ∧
    Derives Token.leaf .disjunction pre e

/-- Behind the opening parenthesis at byte `p` stands a complete expression, and behind that `rest`,
which is the end or begins with a token that fits there in no group. -/
def Interrupted (s : List Char) (p : Nat) (rest : List Token) : Prop :=
  ∃ pre t us e, tokensOf s = pre ++ t :: (us ++ rest) ∧ t.start = p ∧ t.kind = .opening ∧
    Derives Token.leaf .disjunction us e ∧
    ∀ u ∈ rest.head?, u.kind = .not ∨ u.kind = .opening ∨ u.kind = .word

variable {s : List Char} {p : Nat} {rest : List Token}

theorem slice_of_start {pre post : List Token} {t : Token}
    (h : tokensOf s = pre ++ t :: post) {c : Char} (ht : t.text = [c]) (hc : isParen c) :
    slice s t.start (t.start + 1) = [c] := by
  have hcut := tokensOf_cut s
  rw [h] at hcut
  have hs := hcut.slice_eq
  rw [Token.stop, ht] at hs
  simp only [isParen, Bool.or_eq_true, decide_eq_true_eq] at hc
  rcases hc with rfl | rfl
  · exact hs
  · exact hs

theorem ClosesNothing.slice_eq (h : ClosesNothing s p) : slice s p (p + 1) = [')'] := by
  obtain ⟨pre, t, post, e, hts, rfl, ht, -⟩ := h
  exact slice_of_start hts (closing_text ht) rfl

theorem ClosesNothing.unpaired (h : ClosesNothing s p) : p ∈ unpaired 0 [] s := by
  obtain ⟨pre, t, post, e, hts, rfl, ht, hd⟩ := h
  rw [(tokensOf_cut s).unpaired_eq, hts, hd.unpaired_append, Token.unpaired_closing_nil ht]
  exact List.mem_cons_self

theorem Interrupted.slice_eq (h : Interrupted s p rest) : slice s p (p + 1) = ['('] := by
  obtain ⟨pre, t, us, e, hts, rfl, ht, -⟩ := h
  exact slice_of_start hts (opening_text ht) rfl

/-- The parenthesis has a partner if what follows the expression closes the group. -/
theorem Interrupted.unpaired_iff (h : Interrupted s p rest) :
    p ∈ unpaired 0 [] s ↔ ∀ a, a <+: rest → 0 ≤ depth a := by
  obtain ⟨pre, t, us, e, hts, rfl, ht, hd, -⟩ := h
  have hcut := tokensOf_cut s
  have hpairs := hcut.pairwise_start
  rw [hts, List.pairwise_append] at hpairs
  obtain ⟨-, hback, hpre⟩ := hpairs
  have hbefore : ∀ u ∈ pre, t.start ≠ u.start := fun u hu =>
    Nat.ne_of_gt (hpre u hu t List.mem_cons_self)
  have hbehind : ∀ u ∈ rest, t.start ≠ u.start := fun u hu =>
    Nat.ne_of_lt (List.rel_of_pairwise_cons hback (List.mem_append_right us hu))
  obtain ⟨waiting, hwait, hiff⟩ := Token.mem_unpaired_append List.not_mem_nil hbefore
    (t :: (us ++ rest))
  rw [hcut.unpaired_eq, hts, hiff, Token.unpaired_opening ht, hd.unpaired_append]
  simpa using Token.mem_unpaired_iff [] hwait hbehind

theorem Parse.Covers.outermost {st : Parse} {ts : List Token} {e : TagExpr} (h : st.Covers ts)
    (hg : st.groups = []) (he : st.operand.expr? = some e) :
    Derives Token.leaf .disjunction ts (st.pending.disjoin e) := by
  obtain ⟨a, b, c, rfl, ha, hb, hc⟩ := h
  rw [hg] at ha
  cases ha
  exact hb.disjoin (hc.derives he)

theorem Parse.Covers.innermost {st : Parse} {ts : List Token} {g : Group} {outer : List Group}
    {e : TagExpr} (h : st.Covers ts) (hts : tokensOf s = ts ++ rest) (hg : st.groups = g :: outer)
    (he : st.operand.expr? = some e)
    (hrest : ∀ u ∈ rest.head?, u.kind = .not ∨ u.kind = .opening ∨ u.kind = .word) :
    Interrupted s g.position rest := by
  obtain ⟨a, b, c, rfl, ha, hb, hc⟩ := h
  rw [hg] at ha
  cases ha with
  | @group _ _ vs us o _ _ ho hs =>
    exact ⟨vs ++ us, o, b ++ c, _, by simpa using hts, hs.symm, ho, hb.disjoin (hc.derives he), hrest⟩

theorem closesNothing_or_interrupted (h : Precedence.parse s = .error (.unpairedParen p)) :
    ClosesNothing s p ∨ ∃ rest, Interrupted s p rest := by
  have hcovers : ∀ {ts : List Token} {st : Parse}, Parse.Reads {} ts st → st.Covers ts :=
    fun hr => Parse.covers_initial.reads hr
  cases refused_of_parseTokens h with
  | @unopened pre post t st e hts hr he hg ht =>
    exact .inl ⟨pre, t, post, _, hts, rfl, ht, (hcovers hr).outermost hg he⟩
  | @unclosed pre rest st e g outer hts hr he hg hrest =>
    exact .inr ⟨rest, (hcovers hr).innermost hts hg he hrest⟩

/-- A parenthesis that is reported stands where it is said to. A closing one has no partner. An
opening one is followed by a complete expression and then by the end or by a token that does not fit,
and it has a partner if the rest of the text closes its group. -/
theorem unpairedParen_position {s : String} {p : Nat}
    (h : Grammar.precedence.parse s = .error (.unpairedParen p)) :
    (slice s.toList p (p + 1) = [')'] ∧ ClosesNothing s.toList p ∧ p ∈ unpaired 0 [] s.toList) ∨
      slice s.toList p (p + 1) = ['('] ∧ ∃ rest, Interrupted s.toList p rest ∧
        (p ∈ unpaired 0 [] s.toList ↔ ∀ a, a <+: rest → 0 ≤ depth a) := by
  rcases closesNothing_or_interrupted h with hc | ⟨rest, hi⟩
  · exact .inl ⟨hc.slice_eq, hc, hc.unpaired⟩
  · exact .inr ⟨hi.slice_eq, rest, hi, hi.unpaired_iff⟩

theorem unpairedParen_position_nested :
    Grammar.precedence.parse "é or ((b) (c" = .error (.unpairedParen 6) ∧
      unpaired 0 [] "é or ((b) (c".toList = [11, 6] ∧
      ∃ rest, Interrupted "é or ((b) (c".toList 6 rest ∧ ∀ a, a <+: rest → 0 ≤ depth a := by
  have hparse : Grammar.precedence.parse "é or ((b) (c" = .error (.unpairedParen 6) := by
    decide +kernel
  have hpairs : unpaired 0 [] "é or ((b) (c".toList = [11, 6] := by decide
  refine ⟨hparse, hpairs, ?_⟩
  rcases unpairedParen_position hparse with ⟨hslice, -⟩ | ⟨-, rest, hi, hiff⟩
  · exact absurd hslice (by decide)
  · exact ⟨rest, hi, hiff.mp (by rw [hpairs]; decide)⟩

/-- A `not` that does not fit is reported for itself, but in a group for the parenthesis of the group,
which has a partner. -/
theorem paired_paren_reported :
    Grammar.precedence.parse "@A not @B" = .error (.misplacedToken "not" 3) ∧
      Grammar.precedence.parse "(@A not @B)" = .error (.unpairedParen 0) ∧
      0 ∉ unpaired 0 [] "(@A not @B)".toList := by
  decide +kernel

end SuitePlan
