import SuitePlan.Proofs.TagExpr.LegacyCut
import SuitePlan.Proofs.TagExpr.Rendering

/-! The legacy cuts on a text that is put together from operands. An operand is passed over by the
searches for an operator, since its operators stand inside its groups. Only the search for `and not`
looks into the groups. -/

namespace SuitePlan

namespace Legacy

/-- The parentheses of a text are paired within it. -/
structure Balanced (s : List Char) : Prop where
  level : ∀ d, s.foldl depthAfter d = d
  above : ∀ d p, p <+: s → d ≤ p.foldl depthAfter d

namespace Balanced

variable {s t : List Char}

theorem flat (hs : ∀ c ∈ s, isParen c = false) : Balanced s where
  level := foldl_depthAfter_flat hs
  above d p hp := by
    have hd := foldl_depthAfter_flat (fun c hc => hs c (hp.subset hc)) d
    exact Int.le_of_eq hd.symm

theorem word (hs : ∀ c ∈ s, isWordChar c) : Balanced s :=
  flat fun c hc => not_isParen_of_isWordChar (hs c hc)

theorem space : Balanced [' '] :=
  flat fun c hc => not_isParen_of_isBlank (isBlank_space c hc)

theorem append (hs : Balanced s) (ht : Balanced t) : Balanced (s ++ t) where
  level d := by rw [List.foldl_append, hs.level, ht.level]
  above d p hp := by
    obtain ⟨q, hq⟩ := hp
    rcases List.append_eq_append_iff.mp hq with ⟨m, rfl, -⟩ | ⟨m, rfl, hm⟩
    · exact hs.above d p (List.prefix_append p m)
    · rw [List.foldl_append, hs.level]
      exact ht.above d m ⟨q, hm.symm⟩

theorem group (hs : Balanced s) : Balanced ('(' :: (s ++ [')'])) where
  level d := by
    have hd : depthAfter (depthAfter d '(') ')' = d := by simp [depthAfter]
    rw [List.foldl_cons, List.foldl_append, hs.level, List.foldl_cons, List.foldl_nil, hd]
  above d p hp := by
    have hd : depthAfter d '(' = d + 1 := by simp [depthAfter]
    rcases List.prefix_cons_iff.mp hp with rfl | ⟨q, rfl, hq⟩
    · exact Int.le_refl d
    · rw [List.foldl_cons, hd]
      rcases List.prefix_concat_iff.mp hq with rfl | hq
      · rw [List.foldl_append, hs.level, List.foldl_cons, List.foldl_nil, depthAfter]
        simp
      · have hh := hs.above (d + 1) q hq
        omega

theorem encloses_group (hs : Balanced s) : encloses ('(' :: (s ++ [')'])) = true := by
  have hopen : staysOpen 0 ('(' :: (s ++ [')'])) = true := by
    rw [staysOpen_iff]
    intro p q he hne hq
    obtain ⟨x, p, rfl⟩ := List.exists_cons_of_ne_nil hne
    obtain ⟨rfl, hrest⟩ := List.cons.inj he
    have hp : p <+: s := by
      rcases List.prefix_concat_iff.mp ⟨q, hrest.symm⟩ with rfl | hp
      · have hnil : q = [] := by simpa using hrest
        simp [hnil] at hq
      · exact hp
    have hh := hs.above 1 p hp
    rw [List.foldl_cons]
    exact Int.ne_of_gt hh
  rw [encloses, hopen, ← List.cons_append, List.getLast?_concat]
  rfl

theorem encloses_append (hs : Balanced s) (hne : s ≠ []) (ht : 2 ≤ t.length) :
    encloses (s ++ t) = false := by
  apply Bool.eq_false_iff.mpr
  intro henc
  rw [encloses, Bool.and_eq_true, staysOpen_iff] at henc
  exact henc.2 s t rfl hne ht (hs.level 0)

end Balanced

theorem stands_paren {c : Char} (hc : isParen c) (r : List Char) : Stands [c] r :=
  ⟨.inl ⟨c, hc, rfl⟩, fun hw => by
    have hh := hw c List.mem_cons_self
    rw [not_isWordChar_of_isParen hc] at hh
    cases hh⟩

theorem stands_word {w r : List Char} (hne : w ≠ []) (hw : ∀ c ∈ w, isWordChar c)
    (hr : ∀ c ∈ r.head?, isWordChar c = false) : Stands w r :=
  ⟨.inr ⟨hne, hw⟩, fun _ => hr⟩

theorem not_isWordChar_space {s : List Char} :
    ∀ c ∈ (' ' :: s).head?, isWordChar c = false := by
  simp
  decide

theorem stands_before_space {w : List Char} (hne : w ≠ []) (hw : ∀ c ∈ w, isWordChar c)
    (r : List Char) : Stands w (' ' :: r) :=
  stands_word hne hw not_isWordChar_space

theorem append_words {P : List Char → Prop} {i : Nat} {s rest : List Char} {ts : List Token}
    (h : Cut i s ts) (hts : ∀ t ∈ ts, t.kind = .word) (hb : Boundary s rest) (hrest : P rest)
    (hword : ∀ {g w r : List Char}, (∀ c ∈ g, isBlank c) → Stands w r →
      TokenKind.ofText w = .word → P r → P (g ++ (w ++ r))) : P (s ++ rest) := by
  induction h with
  | @blank i g hg =>
    cases g using List.reverseRecOn with
    | nil => exact hrest
    | append_singleton g c =>
      have hc := (hb c (by simp)).1
      rw [hg c (by simp)] at hc
      cases hc
  | @paren i g r c ts hg hc _ _ =>
    have hk : TokenKind.ofText [c] = .word := hts _ List.mem_cons_self
    simp only [isParen, Bool.or_eq_true, decide_eq_true_eq] at hc
    rcases hc with rfl | rfl <;> cases hk
  | @word i g w r ts hg hne hw hr _ ih =>
    have hb' : Boundary (w ++ r) rest := hb.suffix
    have hstands : Stands w (r ++ rest) := stands_word hne hw (hb'.head hne hw hr)
    have hnext := ih (fun t ht => hts t (List.mem_cons_of_mem _ ht)) hb'.suffix
    rw [List.append_assoc, List.append_assoc]
    exact hword hg hstands (hts _ List.mem_cons_self) hnext

/-- The words of a leaf are left one by one, and the blanks before it with the first. -/
theorem append_leaf {P : List Char → Prop} {g s rest : List Char} (h : CanonicalLeaf s)
    (hg : ∀ c ∈ g, isBlank c) (hr : ∀ c ∈ rest.head?, isWordChar c = false) (hrest : P rest)
    (hword : ∀ {g w r : List Char}, (∀ c ∈ g, isBlank c) → Stands w r →
      TokenKind.ofText w = .word → P r → P (g ++ (w ++ r))) : P (g ++ (s ++ rest)) := by
  obtain ⟨ts, hcut, hk, -⟩ := h.indent 0 hg
  rw [← List.append_assoc]
  exact append_words hcut hk (h.boundary g hr) hrest hword

/-- The search for an operator passes over `s` to `rest`. -/
def Passes (word s rest : List Char) : Prop :=
  splitTop? word 0 (s ++ rest) = (splitTop? word 0 rest).map (prepend s)

namespace Passes

variable {word w g r rest : List Char} {k : TokenKind}

theorem nil (word rest : List Char) : Passes word [] rest := by
  rw [Passes, List.nil_append, prepend_nil, Option.map_id_fun, id_eq]

theorem token (hk : Spells word k) (hg : ∀ c ∈ g, isBlank c) (hs : Stands w (r ++ rest))
    (hw : TokenKind.ofText w ≠ k) (hn : (TokenKind.ofText w).nesting = 0)
    (h : Passes word r rest) : Passes word (g ++ (w ++ r)) rest := by
  have hblanks := splitTop?_blanks hs hk hg (d := 0) fun h => absurd h hw
  rw [splitTop?_text hs, hn, Int.add_zero, h, Option.map_map, Option.map_map] at hblanks
  rw [Passes, List.append_assoc, List.append_assoc, hblanks, prepend_append, prepend_append]
  rfl

end Passes

/-- A text that can be an operand. The searches for an operator outside all groups find none in it,
and none across its ends. -/
structure Shown (s : List Char) : Prop where
  nonempty : s ≠ []
  first : ∀ c ∈ s.head?, isBlank c = false
  last : ∀ c ∈ s.getLast?, isBlank c = false
  line : '\n' ∉ s
  balanced : Balanced s
  passes : ∀ {word : List Char} {k : TokenKind}, Spells word k → k = .and ∨ k = .or →
    ∀ {g rest : List Char}, (∀ c ∈ g, isBlank c) → (∀ c ∈ rest.head?, isWordChar c = false) →
    Passes word (g ++ s) rest

/-- No `and not` begins in the text or in the blanks before it. -/
def Calm (s : List Char) : Prop :=
  ∀ g rest : List Char, (∀ c ∈ g, isBlank c) → (∀ c ∈ rest.head?, isWordChar c = false) →
    Quiet rest → Quiet (g ++ (s ++ rest))

/-- The text is not taken as a negation, whatever follows it. -/
def Affirms (s : List Char) : Prop :=
  ∀ rest : List Char, (∀ c ∈ rest.head?, isWordChar c = false) → afterNot? (s ++ rest) = none

/-- Two operands with an operator between them. -/
def joined (op l r : List Char) : List Char := l ++ ' ' :: (op ++ ' ' :: r)

def negated (s : List Char) : List Char := ['n', 'o', 't'] ++ ' ' :: s

def grouped (s : List Char) : List Char := '(' :: (s ++ [')'])

variable {s t l r op : List Char} {k : TokenKind}

namespace Shown

theorem leaf (h : CanonicalLeaf s) (hline : '\n' ∉ s) : Shown s where
  nonempty := h.nonempty
  first := h.first
  last := h.last
  line := hline
  balanced := .flat h.noParen
  passes := by
    intro word k hk hop g rest hg hr
    -- word by word from the end, `u` being what lies before `rest`
    have hsteps : ∃ u, g ++ (s ++ rest) = u ++ rest ∧ Passes word u rest := by
      refine append_leaf (P := fun x => ∃ u, x = u ++ rest ∧ Passes word u rest) h hg hr
        ⟨[], rfl, .nil word rest⟩ ?_
      rintro g w _ hg hs hw ⟨u, rfl, hu⟩
      refine ⟨g ++ (w ++ u), by simp, .token hk hg hs ?_ (by rw [hw]; rfl) hu⟩
      rcases hop with rfl | rfl <;> simp [hw]
    obtain ⟨u, hu, hpass⟩ := hsteps
    rw [← List.append_assoc] at hu
    rwa [List.append_cancel_right hu]

theorem group (hs : Balanced s) (hline : '\n' ∉ s) : Shown (grouped s) where
  nonempty := List.cons_ne_nil _ _
  first := by simp [grouped]; decide
  last := by
    rw [grouped, ← List.cons_append, List.getLast?_concat]
    simp
    decide
  line := by simpa [grouped] using hline
  balanced := hs.group
  passes := by
    intro word k hk hop g rest hg hr
    have hopen : Stands ['('] (s ++ ([')'] ++ rest)) := stands_paren rfl _
    have hclose : Stands [')'] rest := stands_paren rfl _
    have hstart := splitTop?_blanks hopen hk hg (d := 0) fun h => by
      rcases hop with rfl | rfl <;> cases h
    -- between the parentheses the depth stays above zero, where no operator is looked for
    have hinner : splitTop? word 1 (s ++ ([')'] ++ rest)) =
        (splitTop? word 1 ([')'] ++ rest)).map (prepend s) := by
      have hh : splitTop? word 1 (s ++ ([')'] ++ rest)) =
          (splitTop? word (s.foldl depthAfter 1) ([')'] ++ rest)).map (prepend s) :=
        splitTop?_append fun p c q he hz => absurd hz <| Int.ne_of_gt <|
          hs.above 1 (p ++ [c]) ⟨q, by simp [he]⟩
      rwa [hs.level] at hh
    have hin : (0 : Int) + (TokenKind.ofText ['(']).nesting = 1 := rfl
    have hout : (1 : Int) + (TokenKind.ofText [')']).nesting = 0 := rfl
    have htext : g ++ grouped s ++ rest = g ++ (['('] ++ (s ++ ([')'] ++ rest))) := by
      simp [grouped]
    rw [Passes, htext, hstart, splitTop?_text hopen, hin, hinner, splitTop?_text hclose, hout]
    cases splitTop? word 0 rest with
    | none => rfl
    | some cut => simp [prepend, grouped]

theorem not (h : Shown s) : Shown (negated s) where
  nonempty := List.cons_ne_nil _ _
  first := by simp [negated]; decide
  last := by
    have hl : (negated s).getLast? = s.getLast? := by
      rw [negated, List.append_cons, List.getLast?_append,
        List.getLast?_eq_some_getLast h.nonempty, Option.some_or]
    rw [hl]
    exact h.last
  line := by simpa [negated] using h.line
  balanced := by
    have hnot : Balanced ['n', 'o', 't'] := .word (List.all_eq_true.mp rfl)
    exact hnot.append (Balanced.space.append h.balanced)
  passes := by
    intro word k hk hop g rest hg hr
    have hs : Stands ['n', 'o', 't'] (' ' :: s ++ rest) :=
      stands_before_space (List.cons_ne_nil _ _) (List.all_eq_true.mp rfl) _
    refine .token hk hg hs ?_ rfl (h.passes hk hop isBlank_space hr)
    rcases hop with rfl | rfl <;> decide

theorem trim_eq (h : Shown s) : trim s = s := trim_eq_self h.nonempty h.first h.last

theorem isEmpty_eq (h : Shown s) : s.isEmpty = false := List.isEmpty_eq_false_iff.mpr h.nonempty

theorem splitTop?_eq_none (h : Shown s) {word : List Char} (hk : Spells word k)
    (hop : k = .and ∨ k = .or) : splitTop? word 0 s = none := by
  have hh : Passes word ([] ++ s) [] := h.passes hk hop (by simp) (by simp)
  rwa [Passes, List.append_nil, List.nil_append] at hh

theorem afterBlanks?_eq (h : Shown s) (rest : List Char) :
    afterBlanks? (' ' :: (s ++ rest)) = some (s ++ rest) := by
  rw [← List.singleton_append]
  refine afterBlanks?_append (List.cons_ne_nil _ _) isBlank_space fun c hc => ?_
  rw [List.head?_append, List.head?_eq_some_head h.nonempty, Option.some_or,
    ← List.head?_eq_some_head] at hc
  exact h.first c hc

theorem afterOperator?_eq (h : Shown s) (hk : Spells op k) (hself : TokenKind.ofText op = k) :
    afterOperator? op (' ' :: (op ++ ' ' :: s)) = some s := by
  have hs : Stands op (' ' :: s) := stands_before_space hk.nonempty hk.wordChars s
  have hthis := afterOperator?_this (g := [' ']) hs hk (List.cons_ne_nil _ _) isBlank_space hself
  have hblank := h.afterBlanks?_eq []
  rw [List.append_nil] at hblank
  exact hthis.trans hblank

theorem afterNot?_negated (h : Shown s) : afterNot? (negated s) = some s := by
  have hblank := h.afterBlanks?_eq []
  rw [List.append_nil] at hblank
  have hline : line? s = some s := by simp [line?, h.nonempty, h.line]
  have hword : afterWord? ['n', 'o', 't'] (negated s) = some (' ' :: s) := rfl
  rw [afterNot?, hword, Option.bind_some, hblank, Option.bind_some, hline]

end Shown

namespace Calm

theorem leaf (h : CanonicalLeaf s) : Calm s := by
  intro g rest hg hr hrest
  refine append_leaf h hg hr hrest fun hg hs hw hq => .token hs hg (fun hand => ?_) hq
  rw [hw] at hand
  cases hand

theorem group (h : Calm s) : Calm (grouped s) := by
  intro g rest hg hr hrest
  have hclose : Quiet ([')'] ++ rest) := hrest.text (stands_paren rfl rest)
  have hin : Quiet ([] ++ (s ++ ([')'] ++ rest))) :=
    h [] _ (by simp) (by simp; decide) hclose
  have hopen := Quiet.token (stands_paren (c := '(') rfl _) hg (fun hand => by cases hand) hin
  simpa [grouped] using hopen

theorem not (h : Calm s) : Calm (negated s) := by
  intro g rest hg hr hrest
  have hs : Stands ['n', 'o', 't'] ([' '] ++ (s ++ rest)) :=
    stands_before_space (List.cons_ne_nil _ _) (List.all_eq_true.mp rfl) _
  have hnot := Quiet.token hs hg (fun hand => by cases hand) (h _ rest isBlank_space hr hrest)
  simpa [negated] using hnot

theorem joined (hl : Calm l) (hr : Calm r) (hsr : Shown r) (hne : op ≠ [])
    (hop : ∀ c ∈ op, isWordChar c) (hand : TokenKind.ofText op = .and → Affirms r) :
    Calm (joined op l r) := by
  intro g rest hg hw hrest
  have hright : Quiet (' ' :: (r ++ rest)) := hr _ rest isBlank_space hw hrest
  have hmid : Quiet ([' '] ++ (op ++ ' ' :: (r ++ rest))) := by
    refine .token (stands_before_space hne hop _) isBlank_space (fun ha x hx => ?_) hright
    rw [hsr.afterBlanks?_eq] at hx
    rw [← Option.some.inj hx]
    exact hand ha rest hw
  have hleft := hl g _ hg not_isWordChar_space hmid
  simpa [Legacy.joined] using hleft

theorem splitAndNot?_eq_none (h : Calm s) : splitAndNot? s = none := by
  have hh : Quiet ([] ++ (s ++ [])) := h [] [] (by simp) (by simp) .nil
  rw [List.append_nil, List.nil_append] at hh
  exact Legacy.splitAndNot?_eq_none hh

end Calm

namespace Affirms

theorem leaf (h : CanonicalLeaf s) : Affirms s := by
  intro rest hr
  obtain ⟨ts, hcut, hk, hsp⟩ := h.indent 0 (g := []) (by simp)
  have hb := h.boundary [] hr
  generalize hgs : [] ++ s = x at hcut hb
  rw [List.nil_append] at hgs
  subst hgs
  cases hcut with
  | blank => exact absurd hsp.symm h.nonempty
  | @paren _ g r c ts _ hc _ =>
    have hp := h.noParen c (by simp)
    rw [hc] at hp
    cases hp
  | @word _ g w r ts hg hne hw hr' _ =>
    have hgap : g = [] := by
      cases g with
      | nil => rfl
      | cons c g =>
        have hc := h.first c rfl
        rw [hg c List.mem_cons_self] at hc
        cases hc
    subst hgap
    have hs : Stands w (r ++ rest) := stands_word hne hw (hb.suffix.head hne hw hr')
    have hword : TokenKind.ofText w = .word := hk _ List.mem_cons_self
    rw [List.nil_append, List.append_assoc]
    cases hn : afterNot? (w ++ (r ++ rest)) with
    | none => rfl
    | some operand =>
      rw [afterNot?_stands hs hn] at hword
      cases hword

theorem group (s : List Char) : Affirms (grouped s) := fun _ _ => rfl

end Affirms

section Joined

variable {word : List Char} {j : TokenKind}

theorem trim_joined (hl : Shown l) (hr : Shown r) : trim (joined op l r) = joined op l r := by
  have hfirst : ∀ c ∈ (joined op l r).head?, isBlank c = false := by
    rw [joined, List.head?_append, List.head?_eq_some_head hl.nonempty, Option.some_or,
      ← List.head?_eq_some_head]
    exact hl.first
  have hlast : ∀ c ∈ (joined op l r).getLast?, isBlank c = false := by
    have he : joined op l r = (l ++ ' ' :: (op ++ [' '])) ++ r := by simp [joined]
    rw [he, List.getLast?_append, List.getLast?_eq_some_getLast hr.nonempty, Option.some_or,
      ← List.getLast?_eq_some_getLast]
    exact hr.last
  exact trim_eq_self (by simp [joined]) hfirst hlast

theorem isEmpty_joined : (joined op l r).isEmpty = false :=
  List.isEmpty_eq_false_iff.mpr (by simp [joined])

theorem encloses_joined (hl : Shown l) : encloses (joined op l r) = false :=
  hl.balanced.encloses_append hl.nonempty (by simp; omega)

theorem balanced_joined (hl : Balanced l) (hr : Balanced r) (hop : ∀ c ∈ op, isWordChar c) :
    Balanced (joined op l r) :=
  hl.append (Balanced.space.append ((Balanced.word hop).append (Balanced.space.append hr)))

theorem line_joined (hl : '\n' ∉ l) (hr : '\n' ∉ r) (hop : ∀ c ∈ op, isWordChar c) :
    '\n' ∉ joined op l r := by
  have hop' : '\n' ∉ op := fun hm => Bool.false_ne_true (hop '\n' hm)
  simp [joined, hl, hr, hop']

theorem Shown.group_joined (hl : Shown l) (hr : Shown r) (hop : ∀ c ∈ op, isWordChar c) :
    Shown (grouped (joined op l r)) :=
  .group (balanced_joined hl.balanced hr.balanced hop) (line_joined hl.line hr.line hop)

theorem splitTop?_joined (hk : Spells op k) (hself : TokenKind.ofText op = k)
    (hop : k = .and ∨ k = .or) (hl : Shown l) (hr : Shown r) :
    splitTop? op 0 (joined op l r) = some (l, r) := by
  have hafter := hr.afterOperator?_eq hk hself
  have hhere : splitTop? op 0 (' ' :: (op ++ ' ' :: r)) = some ([], r) := by
    have hd : depthAfter 0 ' ' = 0 := rfl
    simp only [splitTop?, hd, if_true, hafter]
  have hpass : Passes op ([] ++ l) (' ' :: (op ++ ' ' :: r)) :=
    hl.passes hk hop (by simp) not_isWordChar_space
  rw [Passes, List.nil_append] at hpass
  rw [joined, hpass, hhere]
  simp [prepend]

theorem splitTop?_joined_none (hk : Spells word j) (hj : j = .and ∨ j = .or)
    (hne : TokenKind.ofText op ≠ j) (hop : op ≠ []) (hw : ∀ c ∈ op, isWordChar c) (hl : Shown l)
    (hr : Shown r) : splitTop? word 0 (joined op l r) = none := by
  have hs : Stands op (' ' :: (r ++ [])) := stands_before_space hop hw (r ++ [])
  have hright : Passes word ([' '] ++ r) [] := hr.passes hk hj isBlank_space (by simp)
  have hmid : Passes word ([' '] ++ (op ++ ' ' :: r)) [] :=
    .token hk isBlank_space hs hne (nesting_word hw) hright
  have hleft : Passes word ([] ++ l) (' ' :: (op ++ ' ' :: r)) :=
    hl.passes hk hj (by simp) not_isWordChar_space
  rw [Passes, List.append_nil, List.singleton_append] at hmid
  rw [Passes, List.nil_append] at hleft
  rw [joined, hleft, hmid]
  rfl

end Joined

/-- The last `and not` is where it was put, if there is none behind it. -/
theorem splitAndNot?_append (hne : l ≠ []) (hline : '\n' ∉ l) (ht : splitAndNot? t = none)
    (hr : afterAndNot? t = some r) : splitAndNot? (l ++ t) = some (l, r) := by
  -- the search tries the last places first, so it comes to `t` before the places in `l`
  induction l with
  | nil => exact absurd rfl hne
  | cons c l ih =>
    have hc : c ≠ '\n' := fun he => hline (by simp [he])
    rw [List.cons_append, splitAndNot?, if_neg hc]
    by_cases hl : l = []
    · rw [hl, List.nil_append, ht, hr]
      rfl
    · rw [ih hl fun hm => hline (List.mem_cons_of_mem _ hm)]

theorem splitAndNot?_joined (hl : Shown l) (hr : Shown r) (hc : Calm r) :
    splitAndNot? (joined ['a', 'n', 'd'] l (negated r)) = some (l, r) := by
  have hs : Stands ['a', 'n', 'd'] (' ' :: negated r) :=
    stands_before_space (List.cons_ne_nil _ _) (List.all_eq_true.mp rfl) _
  have hafter : afterAndNot? (' ' :: (['a', 'n', 'd'] ++ ' ' :: negated r)) = some r := by
    rw [afterAndNot?, hr.not.afterOperator?_eq spells_and rfl, Option.bind_some,
      hr.afterNot?_negated]
  have hquiet : Quiet (['a', 'n', 'd'] ++ ' ' :: negated r) := by
    have hright := hc.not _ [] isBlank_space (by simp) .nil
    rw [List.append_nil] at hright
    exact hright.text hs
  have hnone : splitAndNot? (' ' :: (['a', 'n', 'd'] ++ ' ' :: negated r)) = none := by
    rw [splitAndNot?, splitAndNot?_eq_none hquiet, hquiet _ (List.suffix_refl _)]
    rfl
  exact splitAndNot?_append hl.nonempty hl.line hnone hafter

theorem parse_leaf (h : CanonicalLeaf s) (hline : '\n' ∉ s) :
    parse s = some (.tag (String.ofList s)) := by
  have hs := Shown.leaf h hline
  have henc : encloses s = false := by
    have hhead : s.head? ≠ some '(' := fun he => by
      have hp := h.noParen '(' (List.mem_of_mem_head? he)
      cases hp
    simp [encloses, hhead]
  have hnot : afterNot? s = none := by
    have hh := Affirms.leaf h [] (by simp)
    rwa [List.append_nil] at hh
  rw [parse_eq, hs.trim_eq, hs.isEmpty_eq, henc, (Calm.leaf h).splitAndNot?_eq_none,
    hs.splitTop?_eq_none spells_or (.inr rfl), hs.splitTop?_eq_none spells_and (.inl rfl), hnot]
  rfl

theorem parse_negated (hs : Shown s) (hc : Calm s) : parse (negated s) = negation (parse s) := by
  have henc : encloses (negated s) = false := rfl
  rw [parse_eq, hs.not.trim_eq, hs.not.isEmpty_eq, henc, hc.not.splitAndNot?_eq_none,
    hs.not.splitTop?_eq_none spells_or (.inr rfl), hs.not.splitTop?_eq_none spells_and (.inl rfl),
    hs.afterNot?_negated]
  rfl

theorem parse_grouped (hl : Shown l) (hr : Shown r) (hop : ∀ c ∈ op, isWordChar c) :
    parse (grouped (joined op l r)) = parse (joined op l r) := by
  have hs := hl.group_joined hr hop
  have henc : encloses (grouped (joined op l r)) = true :=
    (balanced_joined hl.balanced hr.balanced hop).encloses_group
  have hin : inside (grouped (joined op l r)) = joined op l r := by
    rw [inside, grouped, List.tail_cons, List.dropLast_concat]
  rw [parse_eq, hs.trim_eq, hs.isEmpty_eq, henc, hin]
  rfl

theorem parse_or (hl : Shown l) (hr : Shown r) (hcl : Calm l) (hcr : Calm r) :
    parse (joined ['o', 'r'] l r) = either (parse l) (parse r) := by
  have hcalm : Calm (joined ['o', 'r'] l r) := hcl.joined hcr hr spells_or.nonempty
    spells_or.wordChars fun hand => by cases hand
  rw [parse_eq, trim_joined hl hr, isEmpty_joined, encloses_joined hl, hcalm.splitAndNot?_eq_none,
    splitTop?_joined spells_or rfl (.inr rfl) hl hr]
  rfl

theorem parse_and (hl : Shown l) (hr : Shown r) (hcl : Calm l) (hcr : Calm r) (ha : Affirms r) :
    parse (joined ['a', 'n', 'd'] l r) = both (parse l) (parse r) := by
  have hcalm : Calm (joined ['a', 'n', 'd'] l r) := hcl.joined hcr hr spells_and.nonempty
    spells_and.wordChars fun _ => ha
  have hor : splitTop? ['o', 'r'] 0 (joined ['a', 'n', 'd'] l r) = none :=
    splitTop?_joined_none spells_or (.inr rfl) (by decide) spells_and.nonempty
      spells_and.wordChars hl hr
  rw [parse_eq, trim_joined hl hr, isEmpty_joined, encloses_joined hl, hcalm.splitAndNot?_eq_none,
    hor, splitTop?_joined spells_and rfl (.inl rfl) hl hr]
  rfl

/-- The left operand may hold any number of `and not`, the right one none. -/
theorem parse_and_negated (hl : Shown l) (hr : Shown r) (hc : Calm r) :
    parse (joined ['a', 'n', 'd'] l (negated r)) = both (parse l) (negation (parse r)) := by
  rw [parse_eq, trim_joined hl hr.not, isEmpty_joined, encloses_joined hl,
    splitAndNot?_joined hl hr hc]
  rfl

end Legacy

end SuitePlan
