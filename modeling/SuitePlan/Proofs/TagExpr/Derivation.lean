import Mathlib.Tactic.TypeStar
import SuitePlan.TagExpr.Basic
import SuitePlan.TagExpr.Token

/-! The grammar in which `or` binds weaker than `and` and `and` weaker than `not`. Operators at
depth zero have one place each, so a sequence of tokens has at most one tree. -/

namespace SuitePlan

/-- The levels of the grammar, from the weakest binding to the strongest. -/
inductive Level where
  | disjunction
  | conjunction
  | negation
  | primary

/-- The tokens `ts` derive from a level and have the tree `e`. A run of words is a leaf whose value
is that of `leaf`, and a group leaves no node. -/
inductive Derives (leaf : List Token → String) : Level → List Token → TagExpr → Prop
  | words {ws : List Token} (hne : ws ≠ []) (hw : ∀ t ∈ ws, t.kind = .word) :
      Derives leaf .primary ws (.tag (leaf ws))
  | group {o c : Token} {ts : List Token} {e : TagExpr} (ho : o.kind = .opening)
      (hc : c.kind = .closing) (h : Derives leaf .disjunction ts e) :
      Derives leaf .primary (o :: (ts ++ [c])) e
  | operand {ts : List Token} {e : TagExpr} (h : Derives leaf .primary ts e) :
      Derives leaf .negation ts e
  | not {t : Token} {ts : List Token} {e : TagExpr} (ht : t.kind = .not)
      (h : Derives leaf .negation ts e) : Derives leaf .negation (t :: ts) (.not e)
  | conjunct {ts : List Token} {e : TagExpr} (h : Derives leaf .negation ts e) :
      Derives leaf .conjunction ts e
  | and {t : Token} {ts us : List Token} {l r : TagExpr} (ht : t.kind = .and)
      (hl : Derives leaf .conjunction ts l) (hr : Derives leaf .negation us r) :
      Derives leaf .conjunction (ts ++ t :: us) (.and l r)
  | disjunct {ts : List Token} {e : TagExpr} (h : Derives leaf .conjunction ts e) :
      Derives leaf .disjunction ts e
  | or {t : Token} {ts us : List Token} {l r : TagExpr} (ht : t.kind = .or)
      (hl : Derives leaf .disjunction ts l) (hr : Derives leaf .conjunction us r) :
      Derives leaf .disjunction (ts ++ t :: us) (.or l r)

def TokenKind.nesting : TokenKind → Int
  | opening => 1
  | closing => -1
  | _ => 0

/-- The depth of parentheses behind a sequence of tokens. -/
def depth : List Token → Int
  | [] => 0
  | t :: ts => t.kind.nesting + depth ts

theorem depth_append (ts us : List Token) : depth (ts ++ us) = depth ts + depth us := by
  induction ts with
  | nil => simp [depth]
  | cons t ts ih => simp only [List.cons_append, depth, ih, Int.add_assoc]

theorem depth_words {ws : List Token} (hw : ∀ t ∈ ws, t.kind = .word) : depth ws = 0 := by
  induction ws with
  | nil => rfl
  | cons t ws ih =>
    have hh := ih fun u hu => hw u (List.mem_cons_of_mem _ hu)
    simp only [depth, hw t List.mem_cons_self, TokenKind.nesting, hh, Int.add_zero]

theorem append_cons_split {α : Type*} {a b : α} {xs ys us vs : List α}
    (h : xs ++ a :: ys = us ++ b :: vs) :
    (xs = us ∧ a = b ∧ ys = vs) ∨ (∃ mid, xs = us ++ b :: mid ∧ vs = mid ++ a :: ys) ∨
      ∃ mid, us = xs ++ a :: mid ∧ ys = mid ++ b :: vs := by
  rcases List.append_eq_append_iff.mp h with ⟨m, hu, hm⟩ | ⟨m, hx, hm⟩
  · cases m with
    | nil =>
      obtain ⟨rfl, rfl⟩ := List.cons.inj hm
      exact .inl ⟨by simpa using hu.symm, rfl, rfl⟩
    | cons x m =>
      obtain ⟨rfl, rfl⟩ := List.cons.inj hm
      exact .inr (.inr ⟨m, hu, rfl⟩)
  · cases m with
    | nil =>
      obtain ⟨rfl, rfl⟩ := List.cons.inj hm
      exact .inl ⟨by simpa using hx, rfl, rfl⟩
    | cons x m =>
      obtain ⟨rfl, rfl⟩ := List.cons.inj hm
      exact .inr (.inl ⟨m, hx, rfl⟩)

/-- The operators that a phrase of this level can have outside all of its groups. -/
def Level.admits : Level → TokenKind → Bool
  | disjunction, .or => true
  | disjunction, .and => true
  | conjunction, .and => true
  | _, _ => false

namespace Derives

variable {leaf : List Token → String} {lvl : Level} {ts : List Token} {e : TagExpr}

theorem depth_eq (h : Derives leaf lvl ts e) : depth ts = 0 := by
  induction h with
  | words _ hw => exact depth_words hw
  | group ho hc _ ih => simp [depth, depth_append, ho, hc, TokenKind.nesting, ih]
  | operand _ ih => exact ih
  | not ht _ ih => simp [depth, ht, TokenKind.nesting, ih]
  | conjunct _ ih => exact ih
  | and ht _ _ ihl ihr => simp [depth, depth_append, ht, TokenKind.nesting, ihl, ihr]
  | disjunct _ ih => exact ih
  | or ht _ _ ihl ihr => simp [depth, depth_append, ht, TokenKind.nesting, ihl, ihr]

/-- Before a token of a phrase no more groups are closed than opened, and an operator that the
level does not admit stands inside a group. -/
theorem depth_before (h : Derives leaf lvl ts e) {pre post : List Token} {t : Token}
    (hts : ts = pre ++ t :: post) :
    0 ≤ depth pre ∧ (t.kind = .and ∨ t.kind = .or → lvl.admits t.kind = false → 0 < depth pre) := by
  induction h generalizing pre post with
  | words _ hw =>
    subst hts
    have ht := hw t (by simp)
    have hd := depth_words fun u hu => hw u (List.mem_append_left _ hu)
    exact ⟨by omega, by simp [ht]⟩
  | @group o c us f ho hc hf ih =>
    cases pre with
    | nil =>
      obtain ⟨rfl, -⟩ := List.cons.inj hts
      exact ⟨by simp [depth], by simp [ho]⟩
    | cons u pre =>
      obtain ⟨rfl, hm⟩ := List.cons.inj hts
      have hd : depth (o :: pre) = 1 + depth pre := by simp [depth, ho, TokenKind.nesting]
      have hp : 0 ≤ depth pre := by
        rcases append_cons_split hm with ⟨rfl, -, -⟩ | ⟨m, hus, -⟩ | ⟨m, -, hn⟩
        · exact Int.le_of_eq hf.depth_eq.symm
        · exact (ih hus).1
        · simp at hn
      exact ⟨by omega, fun _ _ => by omega⟩
  | operand _ ih => exact ⟨(ih hts).1, fun ho _ => (ih hts).2 ho rfl⟩
  | @not n us f hn _ ih =>
    cases pre with
    | nil =>
      obtain ⟨rfl, -⟩ := List.cons.inj hts
      exact ⟨by simp [depth], by simp [hn]⟩
    | cons u pre =>
      obtain ⟨rfl, hm⟩ := List.cons.inj hts
      have hd : depth (n :: pre) = depth pre := by simp [depth, hn, TokenKind.nesting]
      rw [hd]
      exact ih hm
  | conjunct _ ih => exact ⟨(ih hts).1, fun ho _ => (ih hts).2 ho rfl⟩
  | @and a us vs l r ha hl hr ihl ihr =>
    rcases append_cons_split hts with ⟨rfl, rfl, -⟩ | ⟨m, hus, -⟩ | ⟨m, rfl, hvs⟩
    · exact ⟨Int.le_of_eq hl.depth_eq.symm, fun _ hn => by simp [ha, Level.admits] at hn⟩
    · exact ihl hus
    · have hd : depth (us ++ a :: m) = depth m := by
        simp [depth_append, depth, hl.depth_eq, ha, TokenKind.nesting]
      rw [hd]
      exact ⟨(ihr hvs).1, fun ho _ => (ihr hvs).2 ho rfl⟩
  | disjunct _ ih =>
    refine ⟨(ih hts).1, fun ho hn => (ih hts).2 ho ?_⟩
    rcases ho with ho | ho <;> simp [ho, Level.admits] at hn
  | @or o us vs l r ho hl hr ihl ihr =>
    rcases append_cons_split hts with ⟨rfl, rfl, -⟩ | ⟨m, hus, -⟩ | ⟨m, rfl, hvs⟩
    · exact ⟨Int.le_of_eq hl.depth_eq.symm, fun _ hn => by simp [ho, Level.admits] at hn⟩
    · exact ihl hus
    · have hd : depth (us ++ o :: m) = depth m := by
        simp [depth_append, depth, hl.depth_eq, ho, TokenKind.nesting]
      rw [hd]
      refine ⟨(ihr hvs).1, fun hk hn => (ihr hvs).2 hk ?_⟩
      rcases hk with hk | hk <;> simp [hk, Level.admits] at hn

theorem not_split (h : Derives leaf lvl ts e) {pre post : List Token} {t : Token}
    (ht : t.kind = .and ∨ t.kind = .or) (ha : lvl.admits t.kind = false)
    (hts : ts = pre ++ t :: post) (hd : depth pre = 0) : False := by
  have hh := (h.depth_before hts).2 ht ha
  omega

/-- The last operator of its kind outside all groups splits a phrase in one way only. -/
theorem split_unique {rlvl : Level} {t t' : Token} {us ts' us' : List Token} {r l' r' : TagExpr}
    (hl : Derives leaf lvl ts e) (hr : Derives leaf rlvl us r) (hl' : Derives leaf lvl ts' l')
    (hr' : Derives leaf rlvl us' r') (ht : t.kind = .and ∨ t.kind = .or) (hk : t'.kind = t.kind)
    (ha : rlvl.admits t.kind = false) (he : ts ++ t :: us = ts' ++ t' :: us') :
    ts = ts' ∧ us = us' := by
  have hn : t.kind.nesting = 0 := by rcases ht with ht | ht <;> simp [ht, TokenKind.nesting]
  have hd := hl.depth_eq
  have hd' := hl'.depth_eq
  rcases append_cons_split he with ⟨rfl, -, rfl⟩ | ⟨m, rfl, hus⟩ | ⟨m, rfl, hus⟩
  · exact ⟨rfl, rfl⟩
  · rw [depth_append, depth, hk, hn] at hd
    exact (hr'.not_split ht ha hus (by omega)).elim
  · rw [depth_append, depth, hn] at hd'
    exact (hr.not_split (hk ▸ ht) (hk ▸ ha) hus (by omega)).elim

theorem infix_group (o c : Token) (us : List Token) : us <:+: o :: (us ++ [c]) :=
  ⟨[o], [c], by simp⟩

theorem infix_not (t : Token) (us : List Token) : us <:+: t :: us := (List.suffix_cons t us).isInfix

theorem infix_left (t : Token) (us vs : List Token) : us <:+: us ++ t :: vs :=
  (List.prefix_append us _).isInfix

theorem infix_right (t : Token) (us vs : List Token) : vs <:+: us ++ t :: vs :=
  ⟨us ++ [t], [], by simp⟩

/-- Only the values of the runs of words in it decide the tree of a phrase. -/
theorem congr_leaf {leaf' : List Token → String} (h : Derives leaf lvl ts e)
    (hl : ∀ ws, ws ≠ [] → ws <:+: ts → leaf ws = leaf' ws) : Derives leaf' lvl ts e := by
  induction h with
  | @words ws hne hw =>
    rw [hl ws hne (List.infix_refl ws)]
    exact .words hne hw
  | group ho hc _ ih =>
    exact .group ho hc (ih fun ws hne hws => hl ws hne (hws.trans (infix_group ..)))
  | operand _ ih => exact .operand (ih hl)
  | not ht _ ih => exact .not ht (ih fun ws hne hws => hl ws hne (hws.trans (infix_not ..)))
  | conjunct _ ih => exact .conjunct (ih hl)
  | and ht _ _ ihl ihr =>
    exact .and ht (ihl fun ws hne hws => hl ws hne (hws.trans (infix_left ..)))
      (ihr fun ws hne hws => hl ws hne (hws.trans (infix_right ..)))
  | disjunct _ ih => exact .disjunct (ih hl)
  | or ht _ _ ihl ihr =>
    exact .or ht (ihl fun ws hne hws => hl ws hne (hws.trans (infix_left ..)))
      (ihr fun ws hne hws => hl ws hne (hws.trans (infix_right ..)))

theorem head_ne_not {t : Token} (h : Derives leaf .primary (t :: ts) e) : t.kind ≠ .not := by
  cases h with
  | words _ hw => simp [hw t List.mem_cons_self]
  | group ho => simp [ho]

theorem unique {f : TagExpr} (h : Derives leaf lvl ts e) (h' : Derives leaf lvl ts f) : e = f := by
  induction h generalizing f with
  | words hne hw =>
    cases h' with
    | words => rfl
    | group ho => simp [hw _ List.mem_cons_self] at ho
  | @group o c us g ho hc _ ih =>
    generalize hts : o :: (us ++ [c]) = vs at h'
    cases h' with
    | words _ hw =>
      subst hts
      simp [hw o List.mem_cons_self] at ho
    | group _ _ h' =>
      obtain ⟨-, hm⟩ := List.cons.inj hts
      obtain ⟨rfl, -⟩ := List.append_inj' hm rfl
      exact ih h'
  | operand hs ih =>
    cases h' with
    | operand h' => exact ih h'
    | not ht => exact (hs.head_ne_not ht).elim
  | not ht _ ih =>
    cases h' with
    | operand h' => exact (h'.head_ne_not ht).elim
    | not _ h' => rw [ih h']
  | conjunct hs ih =>
    cases h' with
    | conjunct h' => exact ih h'
    | and ht hl _ => exact (hs.not_split (.inl ht) rfl rfl hl.depth_eq).elim
  | @and a us vs l r ha hl hr ihl ihr =>
    generalize hts : us ++ a :: vs = ws at h'
    cases h' with
    | conjunct h' => exact (h'.not_split (.inl ha) rfl hts.symm hl.depth_eq).elim
    | and hb hl' hr' =>
      obtain ⟨rfl, rfl⟩ := split_unique hl hr hl' hr' (.inl ha) (hb.trans ha.symm) rfl hts
      rw [ihl hl', ihr hr']
  | disjunct hs ih =>
    cases h' with
    | disjunct h' => exact ih h'
    | or ht hl _ => exact (hs.not_split (.inr ht) (by simp [ht, Level.admits]) rfl hl.depth_eq).elim
  | @or o us vs l r ho hl hr ihl ihr =>
    generalize hts : us ++ o :: vs = ws at h'
    have ha : Level.conjunction.admits o.kind = false := by simp [ho, Level.admits]
    cases h' with
    | disjunct h' => exact (h'.not_split (.inr ho) ha hts.symm hl.depth_eq).elim
    | or hb hl' hr' =>
      obtain ⟨rfl, rfl⟩ := split_unique hl hr hl' hr' (.inr ho) (hb.trans ho.symm) ha hts
      rw [ihl hl', ihr hr']

end Derives

end SuitePlan
