import Mathlib.Data.List.Forall2
import SuitePlan.Proofs.TagExpr.Neighbours
import SuitePlan.Proofs.TagExpr.Pairing
import SuitePlan.Proofs.Text.Span

/-! Where the tokens of a text lie. One behind the other they hold the bytes of all characters that are
no blanks, and none of them can be longer. What the parser takes out of the text, for a leaf or to
report it, begins where a token begins and ends where one ends. -/

namespace SuitePlan

theorem toNat_toLower (c : Char) :
    c.toLower.toNat = if 65 ≤ c.toNat ∧ c.toNat ≤ 90 then c.toNat + 32 else c.toNat := by
  have hiff : (c.val ≥ 'A'.val ∧ c.val ≤ 'Z'.val) ↔ 65 ≤ c.toNat ∧ c.toNat ≤ 90 :=
    and_congr UInt32.le_iff_toNat_le UInt32.le_iff_toNat_le
  unfold Char.toLower
  by_cases h : 65 ≤ c.toNat ∧ c.toNat ≤ 90
  · rw [dif_pos (hiff.mpr h), if_pos h]
    change (c.val + ('a'.val - 'A'.val)).toNat = c.toNat + 32
    rw [UInt32.toNat_add]
    change (c.toNat + 32) % 2 ^ 32 = c.toNat + 32
    omega
  · rw [dif_neg (mt hiff.mp h), if_neg h]

theorem isLower_iff (d : Char) : d.isLower ↔ 'a'.val ≤ d.val ∧ d.val ≤ 'z'.val := by
  unfold Char.isLower
  simp

theorem toNat_toUpper {d : Char} (hd : d.isLower) : d.toUpper.toNat + 32 = d.toNat := by
  have hlow := (isLower_iff d).mp hd
  have hnat : 97 ≤ d.toNat := UInt32.le_iff_toNat_le.mp hlow.1
  have hsize : d.toNat < 2 ^ 32 := d.val.toNat_lt
  unfold Char.toUpper
  rw [dif_pos hlow]
  change (d.val + ('A'.val - 'a'.val)).toNat + 32 = d.toNat
  rw [UInt32.toNat_add]
  change (d.toNat + 4294967264) % 2 ^ 32 + 32 = d.toNat
  omega

theorem toLower_eq_iff {c d : Char} (hd : d.isLower) : c.toLower = d ↔ c = d ∨ c = d.toUpper := by
  have hlow := (isLower_iff d).mp hd
  have hnat : 97 ≤ d.toNat ∧ d.toNat ≤ 122 :=
    ⟨UInt32.le_iff_toNat_le.mp hlow.1, UInt32.le_iff_toNat_le.mp hlow.2⟩
  have hupper := toNat_toUpper hd
  simp only [← Char.toNat_inj, toNat_toLower]
  split_ifs <;> omega

/-- The text `w` is `word`, where each letter stands in lower case, with any letters as capitals. -/
def InAnyCase (word w : List Char) : Prop :=
  List.Forall₂ (fun d c => c = d ∨ c = d.toUpper) word w

theorem inAnyCase_iff {word : List Char} (hword : word.all Char.isLower) (w : List Char) :
    InAnyCase word w ↔ w.map Char.toLower = word := by
  induction word generalizing w with
  | nil => simp [InAnyCase, List.forall₂_nil_left_iff]
  | cons d word ih =>
    obtain ⟨hd, hrest⟩ := Bool.and_eq_true_iff.mp hword
    cases w with
    | nil => simp [InAnyCase]
    | cons c w =>
      rw [InAnyCase, List.forall₂_cons, List.map_cons, List.cons_eq_cons, toLower_eq_iff hd]
      exact and_congr Iff.rfl (ih hrest w)

/-- The texts of the tokens of each kind. -/
def TokenKind.Spelled : TokenKind → List Char → Prop
  | opening, w => w = ['(']
  | closing, w => w = [')']
  | and, w => InAnyCase ['a', 'n', 'd'] w
  | or, w => InAnyCase ['o', 'r'] w
  | not, w => w = ['n', 'o', 't']
  | word, w => w ≠ ['('] ∧ w ≠ [')'] ∧ ¬ InAnyCase ['a', 'n', 'd'] w ∧ ¬ InAnyCase ['o', 'r'] w ∧
      w ≠ ['n', 'o', 't']

theorem TokenKind.ofText_eq_iff (k : TokenKind) (w : List Char) : ofText w = k ↔ k.Spelled w := by
  have hand : InAnyCase ['a', 'n', 'd'] w ↔ w.map Char.toLower = ['a', 'n', 'd'] :=
    inAnyCase_iff (by decide) w
  have hor : InAnyCase ['o', 'r'] w ↔ w.map Char.toLower = ['o', 'r'] :=
    inAnyCase_iff (by decide) w
  cases k with
  | and => exact (spells_and.kind_iff w).trans hand.symm
  | or => exact (spells_or.kind_iff w).trans hor.symm
  | opening | closing | not =>
    constructor
    · intro h
      unfold ofText at h
      split_ifs at h
      assumption
    · rintro rfl
      rfl
  | word =>
    simp only [Spelled, hand, hor]
    unfold ofText
    split_ifs <;> simp_all

theorem byteSize_before_le (a b : List Char) (c : Char) :
    byteSize a + c.utf8Size ≤ byteSize (a ++ c :: b) := by
  simp only [byteSize_append, byteSize]
  omega

/-- The byte `n` belongs to one of the tokens. -/
def Token.Covered (ts : List Token) (n : Nat) : Prop :=
  ∃ t ∈ ts, t.start ≤ n ∧ n < t.stop

/-- Of the bytes of the text `s`, which begins at byte `i`, the set `p` has those of all characters
that are no blanks, and no others. -/
def Marks (p : Nat → Prop) (i : Nat) (s : List Char) : Prop :=
  ∀ a c b, s = a ++ c :: b → ∀ n, i + byteSize a ≤ n → n < i + byteSize a + c.utf8Size →
    (p n ↔ isBlank c = false)

namespace Marks

variable {p q : Nat → Prop} {i : Nat} {s r : List Char}

theorem append (hs : Marks p i s) (hr : Marks p (i + byteSize s) r) : Marks p i (s ++ r) := by
  intro a c b h n hn hlt
  rcases List.append_eq_append_iff.mp h with ⟨m, rfl, hm⟩ | ⟨m, rfl, hm⟩
  · rw [byteSize_append] at hn hlt
    exact hr m c b hm n (by omega) (by omega)
  · cases m with
    | nil =>
      rw [List.append_nil] at hr
      exact hr [] c b hm.symm n hn hlt
    | cons d m =>
      obtain ⟨rfl, -⟩ := List.cons.inj hm
      exact hs a c m rfl n hn hlt

theorem congr (h : Marks p i s) (hpq : ∀ n, i ≤ n → (p n ↔ q n)) : Marks q i s :=
  fun a c b hs n hn hlt => (hpq n (by omega)).symm.trans (h a c b hs n hn hlt)

theorem blanks (hs : ∀ c ∈ s, isBlank c) (hp : ∀ n, i ≤ n → n < i + byteSize s → ¬ p n) :
    Marks p i s := by
  rintro a c b rfl n hn hlt
  have hc := hs c (by simp)
  have hsize := byteSize_before_le a b c
  exact iff_of_false (hp n (by omega) (by omega)) (by simp [hc])

theorem text (hs : ∀ c ∈ s, isBlank c = false) (hp : ∀ n, i ≤ n → n < i + byteSize s → p n) :
    Marks p i s := by
  rintro a c b rfl n hn hlt
  have hsize := byteSize_before_le a b c
  exact iff_of_true (hp n (by omega) (by omega)) (hs c (by simp))

theorem token {g w : List Char} {ts : List Token} (hg : ∀ c ∈ g, isBlank c)
    (hw : ∀ c ∈ w, isBlank c = false) (hts : ∀ t ∈ ts, i + byteSize g + byteSize w ≤ t.start)
    (h : Marks (Token.Covered ts) (i + byteSize g + byteSize w) r) :
    Marks (Token.Covered (⟨g, i + byteSize g, w⟩ :: ts)) i (g ++ (w ++ r)) := by
  have hcons : ∀ n, Token.Covered (⟨g, i + byteSize g, w⟩ :: ts) n ↔
      (i + byteSize g ≤ n ∧ n < i + byteSize g + byteSize w) ∨ Token.Covered ts n := fun n => by
    simp [Token.Covered, Token.stop]
  have hlater : ∀ n, Token.Covered ts n → i + byteSize g + byteSize w ≤ n := by
    rintro n ⟨t, ht, hn, -⟩
    exact (hts t ht).trans hn
  refine append (blanks hg fun n _ hn hc => ?_) (append (text hw fun n hn hlt => ?_) ?_)
  · rcases (hcons n).mp hc with hc | hc
    · omega
    · have hh := hlater n hc
      omega
  · exact (hcons n).mpr (.inl ⟨hn, hlt⟩)
  · refine h.congr fun n hn => ?_
    rw [hcons]
    exact (or_iff_right (by omega)).symm

end Marks

theorem paren_text {t : Token} (h : t.kind = .opening ∨ t.kind = .closing) :
    ∃ c, isParen c ∧ t.text = [c] := by
  rcases h with h | h
  · exact ⟨'(', rfl, opening_text h⟩
  · exact ⟨')', rfl, closing_text h⟩

theorem not_paren_of_wordChars {t : Token} (hw : ∀ c ∈ t.text, isWordChar c) :
    ¬ (t.kind = .opening ∨ t.kind = .closing) := by
  intro h
  obtain ⟨c, hc, ht⟩ := paren_text h
  have hh := hw c (by simp [ht])
  rw [not_isWordChar_of_isParen hc] at hh
  cases hh

theorem not_isWordChar_of_isBlank {c : Char} (h : isBlank c) : isWordChar c = false := by
  simp [isWordChar, h]

/-- The word characters `w` between the texts `a` and `b` are a run that goes on on neither side. -/
structure MaximalRun (a w b : List Char) : Prop where
  nonempty : w ≠ []
  wordChars : ∀ c ∈ w, isWordChar c
  before : ∀ c ∈ a.getLast?, isWordChar c = false
  behind : ∀ c ∈ b.head?, isWordChar c = false

namespace Cut

variable {i : Nat} {s : List Char} {pre post ts : List Token} {t : Token}

theorem pairwise_stop (h : Cut i s ts) : ts.Pairwise fun t u => t.stop ≤ u.start := by
  induction h with
  | blank => exact .nil
  | paren _ _ h ih | word _ _ _ _ h ih => exact .cons (fun u hu => h.le_start u hu) ih

theorem marks (h : Cut i s ts) : Marks (Token.Covered ts) i s := by
  induction h with
  | blank hg => exact .blanks hg fun n _ _ => by simp [Token.Covered]
  | @paren _ g r c _ hg hc h ih =>
    have hw : ∀ d ∈ [c], isBlank d = false :=
      List.forall_mem_singleton.mpr (not_isBlank_of_isParen hc)
    exact .token hg hw h.le_start ih
  | word hg _ hw _ h ih =>
    exact .token hg (fun c hc => not_isBlank_of_isWordChar (hw c hc)) h.le_start ih

theorem before_wordChars (h : Cut i s (pre ++ t :: post)) (hw : ∀ c ∈ t.text, isWordChar c) :
    ∀ c ∈ (pre.flatMap Token.extent ++ t.gap).getLast?, isWordChar c = false := by
  intro c hc
  rcases h.last_before c hc with hb | ⟨hgap, before, u, rfl, hu⟩
  · exact not_isWordChar_of_isBlank hb
  · rw [List.append_assoc, List.singleton_append] at h
    obtain ⟨d, hd, ht⟩ := paren_text ((h.touching hgap).resolve_right (not_paren_of_wordChars hw))
    rw [ht, List.getLast?_singleton, Option.mem_some] at hu
    exact hu ▸ not_isWordChar_of_isParen hd

theorem behind_wordChars (h : Cut i s (pre ++ t :: post)) (hw : ∀ c ∈ t.text, isWordChar c)
    {tail : List Char} (htail : ∀ c ∈ tail, isBlank c) :
    ∀ c ∈ (post.flatMap Token.extent ++ tail).head?, isWordChar c = false := by
  intro c hc
  rcases h.head_behind htail c hc with hb | ⟨u, us, rfl, hgap, hu⟩
  · exact not_isWordChar_of_isBlank hb
  · obtain ⟨d, hd, ht⟩ := paren_text ((h.touching hgap).resolve_left (not_paren_of_wordChars hw))
    rw [ht, List.head?_cons, Option.mem_some] at hu
    exact hu ▸ not_isWordChar_of_isParen hd

/-- A token is a parenthesis or a run that is as long as can be. -/
theorem formed (h : Cut 0 s (pre ++ t :: post)) : t.text = ['('] ∨ t.text = [')'] ∨
    ∃ a b, s = a ++ (t.text ++ b) ∧ byteSize a = t.start ∧ MaximalRun a t.text b := by
  rcases h.text_formed (t := t) (by simp) with ⟨c, hc, ht⟩ | ⟨hne, hw⟩
  · simp only [isParen, Bool.or_eq_true, decide_eq_true_eq] at hc
    rcases hc with rfl | rfl
    · exact .inl ht
    · exact .inr (.inl ht)
  · obtain ⟨tail, htail, hs⟩ := h.spelled
    refine .inr (.inr ⟨pre.flatMap Token.extent ++ t.gap, post.flatMap Token.extent ++ tail, ?_, ?_,
      hne, hw, h.before_wordChars hw, h.behind_wordChars hw htail⟩)
    · simp [hs, Token.extent]
    · rw [h.start_eq, Nat.zero_add]

theorem start_lt_stop (h : Cut i s ts) (ht : t ∈ ts) : t.start < t.stop := by
  have hne := (h.text_not_blank ht).1
  have hsize : byteSize t.text ≠ 0 := fun hz => hne (byteSize_eq_zero hz)
  rw [Token.stop]
  omega

theorem spans {s : String} {ws : List Token} (h : Cut 0 s.toList (pre ++ ws ++ post))
    (hne : ws ≠ []) : Spans s (ws.head hne).start (ws.getLast hne).stop (Token.leaf ws) := by
  obtain ⟨a, b, hs, hstart, hstop⟩ := h.located hne
  rw [← hstart, ← hstop]
  exact .of_append hs

theorem spans_token {s : String} (h : Cut 0 s.toList (pre ++ t :: post)) :
    Spans s t.start t.stop t.content := by
  have hcut : Cut 0 s.toList (pre ++ [t] ++ post) := by simpa using h
  have hspans := hcut.spans (List.cons_ne_nil t [])
  have hleaf : Token.leaf [t] = t.content := by simp [Token.leaf, Token.spelling, Token.content]
  rwa [hleaf] at hspans

end Cut

/-- The texts `vs` are the values of runs among the tokens `ts`. -/
def Token.HaveRuns (ts : List Token) (vs : List String) : Prop :=
  ∀ v ∈ vs, ∃ ws, ws ≠ [] ∧ ws <:+: ts ∧ v = Token.leaf ws

theorem Token.HaveRuns.append {ts us : List Token} {vs ws : List String} (h : HaveRuns ts vs)
    (h' : HaveRuns us ws) : HaveRuns (ts ++ us) (vs ++ ws) := by
  intro v hv
  rcases List.mem_append.mp hv with hv | hv
  · obtain ⟨xs, hne, hxs, rfl⟩ := h v hv
    exact ⟨xs, hne, hxs.trans (List.infix_append [] ts us), rfl⟩
  · obtain ⟨xs, hne, hxs, rfl⟩ := h' v hv
    exact ⟨xs, hne, hxs.trans (List.suffix_append ts us).isInfix, rfl⟩

theorem Token.HaveRuns.mono {ts us : List Token} {vs : List String} (h : HaveRuns ts vs)
    (hts : ts <:+: us) : HaveRuns us vs := by
  intro v hv
  obtain ⟨xs, hne, hxs, rfl⟩ := h v hv
  exact ⟨xs, hne, hxs.trans hts, rfl⟩

theorem Derives.haveRuns {lvl : Level} {ts : List Token} {e : TagExpr}
    (h : Derives Token.leaf lvl ts e) : Token.HaveRuns ts e.leaves := by
  induction h with
  | @words ws hne _ =>
    intro v hv
    exact ⟨ws, hne, List.infix_rfl, List.mem_singleton.mp hv⟩
  | group _ _ _ ih => exact ih.mono (infix_group ..)
  | operand _ ih | conjunct _ ih | disjunct _ ih => exact ih
  | not _ _ ih => exact ih.mono (infix_not ..)
  | and _ _ _ ihl ihr | or _ _ _ ihl ihr => exact ihl.append (ihr.mono (infix_not ..))

def Pending.leaves (p : Pending) : List String :=
  p.disjunct.toList.flatMap TagExpr.leaves ++ p.conjunct.toList.flatMap TagExpr.leaves

/-- The values of the leaves that have been read so far, from left to right. -/
def Parse.leaves (st : Parse) : List String :=
  st.groups.reverse.flatMap (·.outside.leaves) ++
    (st.pending.leaves ++ st.operand.expr?.toList.flatMap TagExpr.leaves)

theorem LeftSide.haveRuns {lvl : Level} {k : TokenKind} {o : Option TagExpr} {ts : List Token}
    (h : LeftSide lvl k o ts) : Token.HaveRuns ts (o.toList.flatMap TagExpr.leaves) := by
  cases h with
  | absent => simp [Token.HaveRuns]
  | present h _ => simpa using h.haveRuns.mono (List.infix_append [] ..)

theorem Pending.Covers.haveRuns {p : Pending} {ts : List Token} (h : p.Covers ts) :
    Token.HaveRuns ts p.leaves := by
  obtain ⟨a, b, c, rfl, ha, hb, -, -⟩ := h
  exact ha.haveRuns.append (hb.haveRuns.mono (List.infix_append [] b c))

theorem Opened.haveRuns {gs : List Group} {ts : List Token} (h : Opened gs ts) :
    Token.HaveRuns ts (gs.reverse.flatMap (·.outside.leaves)) := by
  induction h with
  | none => simp [Token.HaveRuns]
  | @group g gs ts us o _ hp _ _ ih =>
    simpa using ih.append (hp.haveRuns.mono (List.infix_append [] us [o]))

/-- What the state of the parser holds of the text comes from runs of the tokens read so far. -/
theorem Parse.Covers.haveRuns {st : Parse} {ts : List Token} (h : st.Covers ts) :
    Token.HaveRuns ts st.leaves := by
  obtain ⟨a, b, c, rfl, ha, hb, hc⟩ := h
  refine ha.haveRuns.append (hb.haveRuns.append ?_)
  cases ho : st.operand.expr? with
  | none => simp [Token.HaveRuns]
  | some e => simpa using (hc.derives ho).haveRuns

/-- The text `v` stands in `s` from the start of one of the tokens to the end of one of them. -/
def Token.Bound (s : String) (ts : List Token) (v : String) : Prop :=
  ∃ t ∈ ts, ∃ u ∈ ts, Spans s t.start u.stop v

theorem Token.HaveRuns.bound {s : String} {ts post : List Token} {vs : List String}
    (h : HaveRuns ts vs) (hcut : Cut 0 s.toList (ts ++ post)) : ∀ v ∈ vs, Token.Bound s ts v := by
  intro v hv
  obtain ⟨ws, hne, ⟨pre, rest, rfl⟩, rfl⟩ := h v hv
  refine ⟨ws.head hne, ?_, ws.getLast hne, ?_, ?_⟩
  · simp
  · simp
  · rw [List.append_assoc] at hcut
    exact hcut.spans hne

/-- The tokens of a text stand in order and apart. Each is a parenthesis or a run of other characters
that goes on on neither side, and its spelling decides its kind. Together they have exactly the bytes
of the characters that are no blanks. The leaves that the parser has read at any time, those of the
tree it returns and the token it reports are parts of the text that cut no character, from the start of
a token to the end of one. -/
theorem tokens_cover (s : String) :
    ((tokensOf s.toList).Pairwise fun t u => t.stop ≤ u.start) ∧
      (∀ t ∈ tokensOf s.toList, t.start < t.stop ∧ Spans s t.start t.stop t.content ∧
        (t.text = ['('] ∨ t.text = [')'] ∨ ∃ a b, s.toList = a ++ (t.text ++ b) ∧
          byteSize a = t.start ∧ MaximalRun a t.text b) ∧
        ∀ k, t.kind = k ↔ k.Spelled t.text) ∧
      (∀ a c b, s.toList = a ++ c :: b → ∀ n, byteSize a ≤ n → n < byteSize a + c.utf8Size →
        ((∃ t ∈ tokensOf s.toList, t.start ≤ n ∧ n < t.stop) ↔ isBlank c = false)) ∧
      (∀ pre st, pre <+: tokensOf s.toList → Parse.Reads {} pre st →
        ∀ v ∈ st.leaves, Token.Bound s pre v) ∧
      (∀ e, Grammar.precedence.parse s = .ok (some e) →
        ∀ v ∈ e.leaves, Token.Bound s (tokensOf s.toList) v) ∧
      ∀ token position, Grammar.precedence.parse s = .error (.misplacedToken token position) →
        ∃ t ∈ tokensOf s.toList, t.start = position ∧ Spans s t.start t.stop token := by
  have hcut := tokensOf_cut s.toList
  refine ⟨hcut.pairwise_stop, fun t ht => ?_, fun a c b hs n hn hlt => ?_, ?_, fun e he => ?_, ?_⟩
  · obtain ⟨pre, post, hts⟩ := List.append_of_mem ht
    have hplace := hcut
    rw [hts] at hplace
    exact ⟨hcut.start_lt_stop ht, hplace.spans_token, hplace.formed, fun k => k.ofText_eq_iff t.text⟩
  · rw [← Nat.zero_add (byteSize a)] at hn hlt
    exact hcut.marks a c b hs n hn hlt
  · rintro pre st ⟨post, hpost⟩ hr
    rw [← hpost] at hcut
    exact (Parse.covers_initial.reads hr).haveRuns.bound hcut
  · have hall : Cut 0 s.toList (tokensOf s.toList ++ []) := by rwa [List.append_nil]
    exact (derives_of_parseTokens he).haveRuns.bound hall
  · intro token position h
    cases refused_of_parseTokens h with
    | @misplaced pre post t st hts _ _ =>
      rw [hts] at hcut
      exact ⟨t, by simp [hts], rfl, hcut.spans_token⟩

theorem tokens_cover_multibyte :
    Grammar.precedence.parse "é\u3000ü AnD not x" =
        .ok (some (.and (.tag "é\u3000ü") (.not (.tag "x")))) ∧
      Token.Bound "é\u3000ü AnD not x" (tokensOf "é\u3000ü AnD not x".toList) "é\u3000ü" ∧
      (¬ ∃ t ∈ tokensOf "é\u3000ü AnD not x".toList, t.start ≤ 3 ∧ 3 < t.stop) ∧
      Grammar.precedence.parse "é ü (" = .error (.misplacedToken "(" 6) ∧
      (∃ t ∈ tokensOf "é ü (".toList, t.start = 6 ∧ Spans "é ü (" t.start t.stop "(") ∧
      Token.Bound "é ü (" ((tokensOf "é ü (".toList).take 2) "é ü" := by
  have hparse : Grammar.precedence.parse "é\u3000ü AnD not x" =
      .ok (some (.and (.tag "é\u3000ü") (.not (.tag "x")))) := by decide +kernel
  have herror : Grammar.precedence.parse "é ü (" = .error (.misplacedToken "(" 6) := by
    decide +kernel
  have hread : Parse.Reads {} ((tokensOf "é ü (".toList).take 2)
      ⟨.words "é ü".toList, {}, []⟩ := by
    unfold Parse.Reads
    decide +kernel
  obtain ⟨-, -, hcover, -, hleaves, -⟩ := tokens_cover "é\u3000ü AnD not x"
  obtain ⟨-, -, -, hstates, -, hreported⟩ := tokens_cover "é ü ("
  refine ⟨hparse, hleaves _ hparse _ List.mem_cons_self, fun h => ?_, herror, hreported _ _ herror,
    hstates _ _ (List.take_prefix 2 _) hread _ (by decide)⟩
  -- the second of the three bytes of a wide blank
  have hblank := (hcover ['é'] '\u3000' "ü AnD not x".toList (by decide) 3 (by decide)
    (by decide)).mp h
  exact absurd hblank (by decide)

end SuitePlan
