import SuitePlan.Proofs.TagExpr.Enclosure

/-! What the legacy grammar says about tags, read off the text without a tree. The places where a text
is cut are described by the text alone, and the tree that is built from them says the same, however
many groups of it are empty. -/

namespace SuitePlan

namespace Legacy

/-- Blanks begin the text `s`, and `right` is what stands behind all of them. -/
def Skips (s right : List Char) : Prop :=
  ∃ g, s = g ++ right ∧ g ≠ [] ∧ (∀ c ∈ g, isBlank c) ∧ ∀ c ∈ right.head?, isBlank c = false

/-- An operator between blanks begins the text `s`, in any case, and `right` stands behind it. -/
def Opens (word s right : List Char) : Prop :=
  ∃ w m, Skips s (w ++ m) ∧ w.map Char.toLower = word ∧ Skips m right

/-- The text `s` is `not`, blanks and the line `right`. -/
def Negates (s right : List Char) : Prop :=
  ∃ m, s = 'n' :: 'o' :: 't' :: m ∧ Skips m right ∧ right ≠ [] ∧ '\n' ∉ right

/-- The text `s` can be cut at an `and not` into two lines. -/
def CutsAndNot (s left right : List Char) : Prop :=
  ∃ m q, s = left ++ m ∧ left ≠ [] ∧ '\n' ∉ left ∧ Opens ['a', 'n', 'd'] m q ∧ Negates q right

/-- The text `s`, which stands in `d` groups, can be cut at an operator outside all of them. -/
def CutsTop (word : List Char) (d : Int) (s left right : List Char) : Prop :=
  ∃ m, s = left ++ m ∧ left.foldl depthAfter d = 0 ∧ Opens word m right

/-- The cut at an `and not` with the longest left side. -/
def LastAndNot (s left right : List Char) : Prop :=
  CutsAndNot s left right ∧ ∀ l r, CutsAndNot s l r → l.length ≤ left.length

/-- The cut at an operator with the shortest left side. -/
def FirstTop (word : List Char) (d : Int) (s left right : List Char) : Prop :=
  CutsTop word d s left right ∧ ∀ l r, CutsTop word d s l r → left.length ≤ l.length

/-- The text is one group: nothing closes the first parenthesis before the last two places. -/
def Enclosed (s : List Char) : Prop :=
  s.head? = some '(' ∧ s.getLast? = some ')' ∧
    ∀ p q, s = p ++ q → p ≠ [] → 2 ≤ q.length → p.foldl depthAfter 0 ≠ 0

/-- What a text says about the tags when it is read directly. -/
inductive Says (tags : List Tag) : List Char → Bool → Prop
  | blank {s : List Char} (h : ∀ c ∈ s, isBlank c) : Says tags s true
  | group {s : List Char} {b : Bool} (h : Enclosed (trim s)) (hb : Says tags (inside (trim s)) b) :
      Says tags s b
  | andNot {s l r : List Char} {a b : Bool} (ho : ¬ Enclosed (trim s)) (h : LastAndNot (trim s) l r)
      (ha : Says tags l a) (hb : Says tags r b) : Says tags s (a && !b)
  | or {s l r : List Char} {a b : Bool} (ho : ¬ Enclosed (trim s))
      (hn : ∀ l r, ¬ CutsAndNot (trim s) l r) (h : FirstTop ['o', 'r'] 0 (trim s) l r)
      (ha : Says tags l a) (hb : Says tags r b) : Says tags s (a || b)
  | and {s l r : List Char} {a b : Bool} (ho : ¬ Enclosed (trim s))
      (hn : ∀ l r, ¬ CutsAndNot (trim s) l r) (hor : ∀ l r, ¬ CutsTop ['o', 'r'] 0 (trim s) l r)
      (h : FirstTop ['a', 'n', 'd'] 0 (trim s) l r) (ha : Says tags l a) (hb : Says tags r b) :
      Says tags s (a && b)
  | not {s r : List Char} {b : Bool} (ho : ¬ Enclosed (trim s))
      (hn : ∀ l r, ¬ CutsAndNot (trim s) l r) (hor : ∀ l r, ¬ CutsTop ['o', 'r'] 0 (trim s) l r)
      (hand : ∀ l r, ¬ CutsTop ['a', 'n', 'd'] 0 (trim s) l r) (h : Negates (trim s) r)
      (hb : Says tags r b) : Says tags s (!b)
  | tag {s : List Char} (hs : ∃ c ∈ s, isBlank c = false) (ho : ¬ Enclosed (trim s))
      (hn : ∀ l r, ¬ CutsAndNot (trim s) l r) (hor : ∀ l r, ¬ CutsTop ['o', 'r'] 0 (trim s) l r)
      (hand : ∀ l r, ¬ CutsTop ['a', 'n', 'd'] 0 (trim s) l r) (hnot : ∀ r, ¬ Negates (trim s) r) :
      Says tags s (tags.any (Tag.same · (String.ofList (trim s))))

theorem afterBlanks?_iff (s r : List Char) : afterBlanks? s = some r ↔ Skips s r := by
  constructor
  · intro h
    cases s with
    | nil => cases h
    | cons c t =>
      simp only [afterBlanks?] at h
      split at h
      · rename_i hc
        cases h
        refine ⟨c :: t.takeWhile isBlank, by simp, List.cons_ne_nil _ _, ?_, ?_⟩
        · intro d hd
          rcases List.mem_cons.mp hd with rfl | hd
          · exact hc
          · exact List.mem_takeWhile_imp hd
        · exact head?_dropWhile_eq_false isBlank t
      · cases h
  · rintro ⟨g, rfl, hne, hg, hr⟩
    exact afterBlanks?_append hne hg hr

theorem afterAnyCase?_iff (word s r : List Char) :
    afterAnyCase? word s = some r ↔ ∃ w, s = w ++ r ∧ w.map Char.toLower = word := by
  constructor
  · intro h
    simp only [afterAnyCase?] at h
    split at h
    · rename_i hw
      cases h
      exact ⟨_, (List.take_append_drop word.length s).symm, hw⟩
    · cases h
  · rintro ⟨w, rfl, hw⟩
    have hlen : word.length = w.length := by rw [← hw, List.length_map]
    simp [afterAnyCase?, hlen, hw]

theorem afterOperator?_iff (word s r : List Char) : afterOperator? word s = some r ↔ Opens word s r := by
  simp only [afterOperator?, Option.bind_eq_some_iff, afterBlanks?_iff, afterAnyCase?_iff, Opens]
  constructor
  · rintro ⟨_, ha, m, ⟨w, rfl, hw⟩, hm⟩
    exact ⟨w, m, ha, hw, hm⟩
  · rintro ⟨w, m, ha, hw, hm⟩
    exact ⟨_, ha, m, ⟨w, rfl, hw⟩, hm⟩

theorem afterNot?_iff (s r : List Char) : afterNot? s = some r ↔ Negates s r := by
  have hword : ∀ m, afterWord? ['n', 'o', 't'] s = some m ↔ s = 'n' :: 'o' :: 't' :: m := by
    intro m
    simp only [afterWord?]
    constructor
    · intro h
      split at h
      · rename_i hw
        cases h
        have hh := List.take_append_drop ['n', 'o', 't'].length s
        rw [hw] at hh
        exact hh.symm
      · cases h
    · rintro rfl
      rfl
  have hline : ∀ q : List Char, line? q = some r ↔ q = r ∧ r ≠ [] ∧ '\n' ∉ r := by
    intro q
    simp only [line?, Bool.or_eq_true, List.isEmpty_iff, List.contains_iff_mem]
    constructor
    · intro h
      split at h
      · cases h
      · rename_i hn
        cases h
        simpa only [not_or, true_and] using hn
    · rintro ⟨rfl, hne, hn⟩
      rw [if_neg (by simp [hne, hn])]
  simp only [afterNot?, Option.bind_eq_some_iff, hword, afterBlanks?_iff, hline, Negates]
  constructor
  · rintro ⟨m, hs, q, hm, rfl, hq⟩
    exact ⟨m, hs, hm, hq⟩
  · rintro ⟨m, hs, hm, hq⟩
    exact ⟨m, hs, r, hm, rfl, hq⟩

theorem afterAndNot?_iff (s r : List Char) :
    afterAndNot? s = some r ↔ ∃ q, Opens ['a', 'n', 'd'] s q ∧ Negates q r := by
  simp only [afterAndNot?, Option.bind_eq_some_iff, afterOperator?_iff, afterNot?_iff]

theorem cutsAndNot_cons (c : Char) (s l r : List Char) : CutsAndNot (c :: s) l r ↔
    c ≠ '\n' ∧ ∃ t, l = c :: t ∧ ((t = [] ∧ afterAndNot? s = some r) ∨ CutsAndNot s t r) := by
  constructor
  · rintro ⟨m, q, hs, hne, hline, hq, hr⟩
    obtain ⟨x, t, rfl⟩ := List.exists_cons_of_ne_nil hne
    obtain ⟨rfl, rfl⟩ := List.cons.inj hs
    simp only [List.mem_cons, not_or] at hline
    refine ⟨Ne.symm hline.1, t, rfl, ?_⟩
    by_cases ht : t = []
    · subst ht
      exact .inl ⟨rfl, (afterAndNot?_iff _ r).mpr ⟨q, hq, hr⟩⟩
    · exact .inr ⟨m, q, rfl, ht, hline.2, hq, hr⟩
  · rintro ⟨hc, t, rfl, ⟨rfl, h⟩ | ⟨m, q, rfl, hne, hline, hq, hr⟩⟩
    · obtain ⟨q, hq, hr⟩ := (afterAndNot?_iff s r).mp h
      exact ⟨s, q, rfl, List.cons_ne_nil _ _, by simpa using Ne.symm hc, hq, hr⟩
    · refine ⟨m, q, rfl, List.cons_ne_nil _ _, ?_, hq, hr⟩
      simp only [List.mem_cons, not_or]
      exact ⟨Ne.symm hc, hline⟩

theorem splitAndNot?_cases (s : List Char) :
    (splitAndNot? s = none ∧ ∀ l r, ¬ CutsAndNot s l r) ∨
      ∃ l r, splitAndNot? s = some (l, r) ∧ LastAndNot s l r := by
  induction s with
  | nil =>
    refine .inl ⟨rfl, ?_⟩
    rintro l r ⟨m, q, hs, hne, -⟩
    exact hne (List.append_eq_nil_iff.mp hs.symm).1
  | cons c s ih =>
    by_cases hc : c = '\n'
    · refine .inl ⟨by simp [splitAndNot?, hc], fun l r h => ?_⟩
      exact ((cutsAndNot_cons c s l r).mp h).1 hc
    · rcases ih with ⟨hs, hno⟩ | ⟨l, r, hs, hcut, hmax⟩
      · cases ha : afterAndNot? s with
        | none =>
          refine .inl ⟨by simp [splitAndNot?, hc, hs, ha], fun l r h => ?_⟩
          obtain ⟨-, t, -, ⟨-, h⟩ | h⟩ := (cutsAndNot_cons c s l r).mp h
          · rw [ha] at h
            cases h
          · exact hno t r h
        | some r =>
          refine .inr ⟨[c], r, by simp [splitAndNot?, hc, hs, ha], ?_, fun l' r' h => ?_⟩
          · exact (cutsAndNot_cons c s [c] r).mpr ⟨hc, [], rfl, .inl ⟨rfl, ha⟩⟩
          · obtain ⟨-, t, rfl, ⟨rfl, -⟩ | h⟩ := (cutsAndNot_cons c s l' r').mp h
            · exact Nat.le_refl 1
            · exact absurd h (hno t r')
      · refine .inr ⟨c :: l, r, by simp [splitAndNot?, hc, hs], ?_, fun l' r' h => ?_⟩
        · exact (cutsAndNot_cons c s (c :: l) r).mpr ⟨hc, l, rfl, .inr hcut⟩
        · obtain ⟨-, t, rfl, ⟨rfl, -⟩ | h⟩ := (cutsAndNot_cons c s l' r').mp h
          · simp
          · exact Nat.succ_le_succ (hmax t r' h)

theorem cutsTop_cons (word : List Char) (d : Int) (c : Char) (s l r : List Char) :
    CutsTop word d (c :: s) l r ↔
      (l = [] ∧ (if depthAfter d c = 0 then afterOperator? word (c :: s) else none) = some r) ∨
        ∃ t, l = c :: t ∧ CutsTop word (depthAfter d c) s t r := by
  -- an operator begins with a blank, which leaves the depth as it is
  have hblank : Opens word (c :: s) r → depthAfter d c = d := by
    rintro ⟨w, m, ⟨g, hs, hne, hg, -⟩, -⟩
    obtain ⟨x, g, rfl⟩ := List.exists_cons_of_ne_nil hne
    obtain ⟨rfl, -⟩ := List.cons.inj hs
    exact foldl_depthAfter_blank (List.forall_mem_singleton.mpr (hg c List.mem_cons_self)) d
  constructor
  · rintro ⟨m, hs, hd, hm⟩
    cases l with
    | nil =>
      rw [List.nil_append] at hs
      subst hs
      rw [List.foldl_nil] at hd
      rw [hblank hm, if_pos hd]
      exact .inl ⟨rfl, (afterOperator?_iff word _ r).mpr hm⟩
    | cons x t =>
      obtain ⟨rfl, hrest⟩ := List.cons.inj hs
      exact .inr ⟨t, rfl, m, hrest, hd, hm⟩
  · rintro (⟨rfl, h⟩ | ⟨t, rfl, m, rfl, hd, hm⟩)
    · split at h
      · rename_i hd
        have ho := (afterOperator?_iff word _ r).mp h
        exact ⟨c :: s, rfl, hblank ho ▸ hd, ho⟩
      · cases h
    · exact ⟨m, rfl, hd, hm⟩

theorem splitTop?_cases (word : List Char) (d : Int) (s : List Char) :
    (splitTop? word d s = none ∧ ∀ l r, ¬ CutsTop word d s l r) ∨
      ∃ l r, splitTop? word d s = some (l, r) ∧ FirstTop word d s l r := by
  induction s generalizing d with
  | nil =>
    refine .inl ⟨rfl, ?_⟩
    rintro l r ⟨m, hs, -, w, k, ⟨g, hg, hne, -⟩, -⟩
    obtain ⟨-, rfl⟩ := List.append_eq_nil_iff.mp hs.symm
    exact hne (List.append_eq_nil_iff.mp hg.symm).1
  | cons c s ih =>
    cases hhere : if depthAfter d c = 0 then afterOperator? word (c :: s) else none with
    | some r =>
      refine .inr ⟨[], r, by simp only [splitTop?, hhere], ?_, fun l' r' _ => Nat.zero_le _⟩
      exact (cutsTop_cons word d c s [] r).mpr (.inl ⟨rfl, hhere⟩)
    | none =>
      rcases ih (depthAfter d c) with ⟨hs, hno⟩ | ⟨l, r, hs, hcut, hmin⟩
      · refine .inl ⟨by simp only [splitTop?, hhere, hs, Option.map_none], fun l r h => ?_⟩
        rcases (cutsTop_cons word d c s l r).mp h with ⟨-, h⟩ | ⟨t, -, h⟩
        · rw [hhere] at h
          cases h
        · exact hno t r h
      · refine .inr ⟨c :: l, r, by simp only [splitTop?, hhere, hs, Option.map_some], ?_, fun l' r' h => ?_⟩
        · exact (cutsTop_cons word d c s (c :: l) r).mpr (.inr ⟨l, rfl, hcut⟩)
        · rcases (cutsTop_cons word d c s l' r').mp h with ⟨-, hr⟩ | ⟨t, rfl, ht⟩
          · rw [hhere] at hr
            cases hr
          · exact Nat.succ_le_succ (hmin t r' ht)

theorem CutsAndNot.unique {s l r r' : List Char} (h : CutsAndNot s l r) (h' : CutsAndNot s l r') :
    r = r' := by
  obtain ⟨m, q, rfl, -, -, hq, hr⟩ := h
  obtain ⟨m', q', hs, -, -, hq', hr'⟩ := h'
  obtain rfl := List.append_cancel_left hs
  have ha := (afterAndNot?_iff m r).mpr ⟨q, hq, hr⟩
  rw [(afterAndNot?_iff m r').mpr ⟨q', hq', hr'⟩] at ha
  exact (Option.some.inj ha).symm

theorem CutsTop.unique {word s l r r' : List Char} {d : Int} (h : CutsTop word d s l r)
    (h' : CutsTop word d s l r') : r = r' := by
  obtain ⟨m, rfl, -, hm⟩ := h
  obtain ⟨m', hs, -, hm'⟩ := h'
  obtain rfl := List.append_cancel_left hs
  have ho := (afterOperator?_iff word m r).mpr hm
  rw [(afterOperator?_iff word m r').mpr hm'] at ho
  exact (Option.some.inj ho).symm

theorem LastAndNot.unique {s l r l' r' : List Char} (h : LastAndNot s l r)
    (h' : LastAndNot s l' r') : (l, r) = (l', r') := by
  have hlen := Nat.le_antisymm (h'.2 _ _ h.1) (h.2 _ _ h'.1)
  obtain ⟨m, q, hm, -⟩ := h.1
  obtain ⟨m', q', hm', -⟩ := h'.1
  obtain ⟨rfl, -⟩ := List.append_inj (hm.symm.trans hm') hlen
  rw [h.1.unique h'.1]

theorem FirstTop.unique {word s l r l' r' : List Char} {d : Int} (h : FirstTop word d s l r)
    (h' : FirstTop word d s l' r') : (l, r) = (l', r') := by
  have hlen := Nat.le_antisymm (h.2 _ _ h'.1) (h'.2 _ _ h.1)
  obtain ⟨m, hm, -⟩ := h.1
  obtain ⟨m', hm', -⟩ := h'.1
  obtain ⟨rfl, -⟩ := List.append_inj (hm.symm.trans hm') hlen
  rw [h.1.unique h'.1]

section

variable {cut best : List Char → List Char → Prop} {found : Option (List Char × List Char)}

/-- A search that finds the best cut if there is any, and of which there is one, finds no other. -/
theorem found_iff
    (h : (found = none ∧ ∀ l r, ¬ cut l r) ∨ ∃ l r, found = some (l, r) ∧ best l r)
    (hcut : ∀ l r, best l r → cut l r)
    (hone : ∀ l r l' r', best l r → best l' r' → (l, r) = (l', r')) (l r : List Char) :
    found = some (l, r) ↔ best l r := by
  rcases h with ⟨rfl, hno⟩ | ⟨l', r', rfl, hbest⟩
  · exact iff_of_false (by simp) fun hb => hno l r (hcut l r hb)
  · constructor
    · intro he
      cases he
      exact hbest
    · exact fun hb => congrArg some (hone _ _ _ _ hbest hb)

theorem found_none_iff
    (h : (found = none ∧ ∀ l r, ¬ cut l r) ∨ ∃ l r, found = some (l, r) ∧ best l r)
    (hcut : ∀ l r, best l r → cut l r) : found = none ↔ ∀ l r, ¬ cut l r := by
  rcases h with ⟨rfl, hno⟩ | ⟨l, r, rfl, hbest⟩
  · exact iff_of_true rfl hno
  · exact iff_of_false (by simp) fun hno => hno l r (hcut l r hbest)

end

theorem splitAndNot?_iff (s l r : List Char) :
    splitAndNot? s = some (l, r) ↔ LastAndNot s l r :=
  found_iff (splitAndNot?_cases s) (fun _ _ h => h.1) (fun _ _ _ _ h h' => h.unique h') l r

theorem splitAndNot?_none_iff (s : List Char) :
    splitAndNot? s = none ↔ ∀ l r, ¬ CutsAndNot s l r :=
  found_none_iff (splitAndNot?_cases s) fun _ _ h => h.1

theorem splitTop?_iff (word : List Char) (d : Int) (s l r : List Char) :
    splitTop? word d s = some (l, r) ↔ FirstTop word d s l r :=
  found_iff (splitTop?_cases word d s) (fun _ _ h => h.1) (fun _ _ _ _ h h' => h.unique h') l r

theorem splitTop?_none_iff (word : List Char) (d : Int) (s : List Char) :
    splitTop? word d s = none ↔ ∀ l r, ¬ CutsTop word d s l r :=
  found_none_iff (splitTop?_cases word d s) fun _ _ h => h.1

theorem afterNot?_none_iff (s : List Char) : afterNot? s = none ↔ ∀ r, ¬ Negates s r := by
  simp only [Option.eq_none_iff_forall_ne_some, ne_eq, afterNot?_iff]

theorem encloses_eq_false_iff (s : List Char) : encloses s = false ↔ ¬ Enclosed s := by
  rw [← Bool.not_eq_true, encloses_iff]
  rfl

theorem trim_isEmpty_iff (s : List Char) : (trim s).isEmpty = true ↔ ∀ c ∈ s, isBlank c := by
  rw [List.isEmpty_iff, trim, trimEnd, List.reverse_eq_nil_iff, List.dropWhile_eq_nil_iff]
  simp only [List.mem_reverse, trimStart]
  constructor
  · intro h c hc
    rw [← List.takeWhile_append_dropWhile (p := isBlank) (l := s)] at hc
    rcases List.mem_append.mp hc with hc | hc
    · exact List.mem_takeWhile_imp hc
    · exact h c hc
  · exact fun h c hc => h c ((List.dropWhile_sublist isBlank).subset hc)

theorem Skips.ne_nil {s r : List Char} (h : Skips s r) : s ≠ [] := by
  obtain ⟨g, rfl, hne, -⟩ := h
  exact List.append_ne_nil_of_left_ne_nil hne r

theorem Negates.ne_nil {s r : List Char} (h : Negates s r) : s ≠ [] := by
  obtain ⟨m, rfl, -⟩ := h
  exact List.cons_ne_nil _ _

theorem CutsTop.ne_nil {word s l r : List Char} {d : Int} (h : CutsTop word d s l r) : s ≠ [] := by
  obtain ⟨m, rfl, -, w, q, hm, -⟩ := h
  exact List.append_ne_nil_of_right_ne_nil l hm.ne_nil

theorem CutsAndNot.ne_nil {s l r : List Char} (h : CutsAndNot s l r) : s ≠ [] := by
  obtain ⟨m, q, rfl, hne, -⟩ := h
  exact List.append_ne_nil_of_left_ne_nil hne m

section

variable (tags : List Tag)

/-- An absent operand of a conjunction is no conjunct, and nothing is said without it. -/
theorem holds_both (l r : Option TagExpr) :
    holds (both l r) tags = (holds l tags && holds r tags) := by
  cases l <;> cases r <;> simp [both, holds, TagExpr.eval]

theorem holds_either (l r : Option TagExpr) :
    holds (either l r) tags = (holds l tags || holds r tags) := by
  cases l <;> cases r <;> simp [either, holds, TagExpr.eval]

/-- The contradiction holds of no tags, whether the empty tag is one of them or not. -/
theorem holds_negation (e : Option TagExpr) : holds (negation e) tags = !holds e tags := by
  cases e <;> simp [negation, holds, TagExpr.eval]

end

/-- What a text says when it is read directly, its tree says. -/
theorem Says.holds_eq {tags : List Tag} {s : List Char} {b : Bool} (h : Says tags s b) :
    holds (parse s) tags = b := by
  induction h with
  | blank h =>
    rw [parse_eq, (trim_isEmpty_iff _).mpr h]
    rfl
  | @group s b h _ ih =>
    have hne : trim s ≠ [] := by
      intro hnil
      rw [Enclosed, hnil] at h
      cases h.1
    rw [parse_eq, List.isEmpty_eq_false_iff.mpr hne, (encloses_iff _).mpr h]
    simpa using ih
  | andNot ho h _ _ iha ihb =>
    rw [parse_eq, List.isEmpty_eq_false_iff.mpr h.1.ne_nil, (encloses_eq_false_iff _).mpr ho,
      (splitAndNot?_iff _ _ _).mpr h]
    simp [holds_both, holds_negation, iha, ihb]
  | or ho hn h _ _ iha ihb =>
    rw [parse_eq, List.isEmpty_eq_false_iff.mpr h.1.ne_nil, (encloses_eq_false_iff _).mpr ho,
      (splitAndNot?_none_iff _).mpr hn, (splitTop?_iff _ _ _ _ _).mpr h]
    simp [holds_either, iha, ihb]
  | and ho hn hor h _ _ iha ihb =>
    rw [parse_eq, List.isEmpty_eq_false_iff.mpr h.1.ne_nil, (encloses_eq_false_iff _).mpr ho,
      (splitAndNot?_none_iff _).mpr hn, (splitTop?_none_iff _ _ _).mpr hor,
      (splitTop?_iff _ _ _ _ _).mpr h]
    simp [holds_both, iha, ihb]
  | not ho hn hor hand h _ ih =>
    rw [parse_eq, List.isEmpty_eq_false_iff.mpr h.ne_nil, (encloses_eq_false_iff _).mpr ho,
      (splitAndNot?_none_iff _).mpr hn, (splitTop?_none_iff _ _ _).mpr hor,
      (splitTop?_none_iff _ _ _).mpr hand, (afterNot?_iff _ _).mpr h]
    simp [holds_negation, ih]
  | @tag s hs ho hn hor hand hnot =>
    have hne : (trim s).isEmpty = false := by
      rw [← Bool.not_eq_true, trim_isEmpty_iff]
      intro h
      obtain ⟨c, hc, hb⟩ := hs
      simp [h c hc] at hb
    rw [parse_eq, hne, (encloses_eq_false_iff _).mpr ho, (splitAndNot?_none_iff _).mpr hn,
      (splitTop?_none_iff _ _ _).mpr hor, (splitTop?_none_iff _ _ _).mpr hand,
      (afterNot?_none_iff _).mpr hnot]
    simp [holds, TagExpr.eval]

/-- Every text says what its tree says. -/
theorem says_holds (tags : List Tag) (s : List Char) : Says tags s (holds (parse s) tags) := by
  have henc : ∀ {t}, ¬ encloses t = true → ¬ Enclosed t := fun h he => h ((encloses_iff _).mpr he)
  fun_induction parse s with
  | case1 s t h => exact .blank ((trim_isEmpty_iff s).mp h)
  | case2 s t _ h ih => exact .group ((encloses_iff t).mp h) ih
  | case3 s t _ ho l r h ihl ihr =>
    rw [holds_both, holds_negation]
    exact .andNot (henc ho) ((splitAndNot?_iff t l r).mp h) ihl ihr
  | case4 s t _ ho hn l r h ihl ihr =>
    rw [holds_either]
    exact .or (henc ho) ((splitAndNot?_none_iff t).mp hn) ((splitTop?_iff _ _ t l r).mp h) ihl ihr
  | case5 s t _ ho hn hor l r h ihl ihr =>
    rw [holds_both]
    exact .and (henc ho) ((splitAndNot?_none_iff t).mp hn) ((splitTop?_none_iff _ _ t).mp hor)
      ((splitTop?_iff _ _ t l r).mp h) ihl ihr
  | case6 s t _ ho hn hor hand r h ih =>
    rw [holds_negation]
    exact .not (henc ho) ((splitAndNot?_none_iff t).mp hn) ((splitTop?_none_iff _ _ t).mp hor)
      ((splitTop?_none_iff _ _ t).mp hand) ((afterNot?_iff t r).mp h) ih
  | case7 s t hne ho hn hor hand hnot =>
    have hs : ∃ c ∈ s, isBlank c = false := by
      by_contra hno
      refine hne ((trim_isEmpty_iff s).mpr fun c hc => ?_)
      by_contra hb
      exact hno ⟨c, hc, Bool.not_eq_true _ ▸ hb⟩
    exact .tag hs (henc ho) ((splitAndNot?_none_iff t).mp hn) ((splitTop?_none_iff _ _ t).mp hor)
      ((splitTop?_none_iff _ _ t).mp hand) ((afterNot?_none_iff t).mp hnot)

end Legacy

/-- The legacy grammar accepts every text, and its tree holds of the tags for which the text, read
directly, is true. An operand that is absent, since nothing but empty groups is left of it, is joined
and negated as one that is always true. -/
theorem legacy_parse_says (tags : List Tag) (s : String) :
    (∃ p, Grammar.legacy.parse s = .ok p ∧ ∀ b, Legacy.Says tags s.toList b ↔ holds p tags = b) ∧
      ∀ l r, holds (Legacy.both l r) tags = (holds l tags && holds r tags) ∧
        holds (Legacy.either l r) tags = (holds l tags || holds r tags) ∧
        holds (Legacy.negation l) tags = !holds l tags := by
  refine ⟨⟨Legacy.parse s.toList, rfl, fun b => ⟨Legacy.Says.holds_eq, ?_⟩⟩, fun l r =>
    ⟨Legacy.holds_both tags l r, Legacy.holds_either tags l r, Legacy.holds_negation tags l⟩⟩
  rintro rfl
  exact Legacy.says_holds tags s.toList

example : holds (Legacy.parse "(@a or not (())) and not ( )".toList) ["@A", ""] = false := by
  decide +kernel

end SuitePlan
