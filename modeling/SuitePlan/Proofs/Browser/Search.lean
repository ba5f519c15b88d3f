import Mathlib.Data.List.Infix
import SuitePlan.Browser.Choice
import SuitePlan.Proofs.TagExpr.Rendering

/-! What the search for a marker in the text of an expression finds, said of the places in the text
where the marker occurs. -/

namespace SuitePlan

/-- A marker that can be a word of an expression, or a part of one between commas. -/
structure IsMarker (m : List Char) : Prop where
  nonempty : m ≠ []
  plain : ∀ c ∈ m, isBlank c = false ∧ c ≠ ',' ∧ isParen c = false
  noOperator : ¬ IsOperator m

/-- The marker of a rule that names none is one. -/
theorem isMarker_default : IsMarker ({} : BrowserRule).marker.toList where
  nonempty := by decide
  plain := by simp [isBlank, isParen]
  noOperator := by
    unfold IsOperator
    decide

namespace Pattern

/-- The word `or` or `and` begins the text, with a blank behind it. -/
def OperatorNext (b : List Char) : Prop :=
  ∃ c r, isBlank c ∧ (b = 'o' :: 'r' :: c :: r ∨ b = 'a' :: 'n' :: 'd' :: c :: r)

/-- Such a word directly follows an occurrence of `m` in the text. -/
def Glued (m s : List Char) : Prop :=
  ∃ a b, s = a ++ (m ++ b) ∧ OperatorNext b

/-- An occurrence of `m` ends before `b`, and `m` is not part of something longer there. -/
def EndsBefore (b : List Char) : Prop :=
  (∀ c ∈ b.head?, isBlank c ∨ c = ',' ∨ c = ')') ∨ OperatorNext b

/-- An occurrence of `m` stands by itself in the text. -/
def StandsAlone (m s : List Char) : Prop :=
  ∃ a b, s = a ++ (m ++ b) ∧ (∀ c ∈ a.getLast?, isBlank c ∨ c = ',' ∨ c = '(') ∧ EndsBefore b

/-- The characters `not` with blanks behind them stand before an occurrence of `m` on their line. -/
def Negated (m s : List Char) : Prop :=
  ∃ a g p q, s = a ++ 'n' :: 'o' :: 't' :: (g ++ (p ++ (m ++ q))) ∧ g ≠ [] ∧
    (∀ c ∈ g, isBlank c) ∧ '\n' ∉ p

variable {m s : List Char}

theorem onLine_iff : onLine m s = true ↔ ∃ p q, s = p ++ (m ++ q) ∧ '\n' ∉ p := by
  induction s with
  | nil =>
    rw [onLine, List.isEmpty_iff]
    constructor
    · rintro rfl
      exact ⟨[], [], rfl, List.not_mem_nil⟩
    · rintro ⟨p, q, h, -⟩
      exact (List.append_eq_nil_iff.mp (List.append_eq_nil_iff.mp h.symm).2).1
  | cons c r ih =>
    simp only [onLine, Bool.or_eq_true, Bool.and_eq_true, decide_eq_true_eq, List.isPrefixOf_iff_prefix,
      ih]
    constructor
    · rintro (⟨q, hq⟩ | ⟨hc, p, q, rfl, hp⟩)
      · exact ⟨[], q, hq.symm, List.not_mem_nil⟩
      · refine ⟨c :: p, q, rfl, ?_⟩
        simp only [List.mem_cons, not_or]
        exact ⟨Ne.symm hc, hp⟩
    · rintro ⟨p, q, h, hp⟩
      cases p with
      | nil => exact .inl ⟨q, h.symm⟩
      | cons d p =>
        obtain ⟨rfl, hr⟩ := List.cons.inj h
        simp only [List.mem_cons, not_or] at hp
        exact .inr ⟨Ne.symm hp.1, p, q, hr, hp.2⟩

theorem afterBlanks_iff : afterBlanks m s = true ↔
    ∃ g r, s = g ++ r ∧ (∀ c ∈ g, isBlank c) ∧ onLine m r = true := by
  induction s with
  | nil =>
    rw [afterBlanks]
    constructor
    · exact fun h => ⟨[], [], rfl, by simp, h⟩
    · rintro ⟨g, r, h, -, hr⟩
      rwa [(List.append_eq_nil_iff.mp h.symm).2] at hr
  | cons c s ih =>
    simp only [afterBlanks, Bool.or_eq_true, Bool.and_eq_true, ih]
    constructor
    · rintro (h | ⟨hc, g, r, rfl, hg, hr⟩)
      · exact ⟨[], c :: s, rfl, by simp, h⟩
      · exact ⟨c :: g, r, rfl, List.forall_mem_cons.mpr ⟨hc, hg⟩, hr⟩
    · rintro ⟨g, r, h, hg, hr⟩
      cases g with
      | nil =>
        rw [List.nil_append] at h
        exact .inl (h ▸ hr)
      | cons d g =>
        obtain ⟨rfl, hs⟩ := List.cons.inj h
        obtain ⟨hd, hg⟩ := List.forall_mem_cons.mp hg
        exact .inr ⟨hd, g, r, hs, hg, hr⟩

theorem negatedHere_iff : negatedHere m s = true ↔
    ∃ c r, s = 'n' :: 'o' :: 't' :: c :: r ∧ isBlank c ∧ afterBlanks m r = true := by
  constructor
  · intro h
    unfold negatedHere at h
    split at h
    · rename_i c r
      rw [Bool.and_eq_true] at h
      exact ⟨c, r, rfl, h⟩
    · cases h
  · rintro ⟨c, r, rfl, hc, hr⟩
    simp [negatedHere, hc, hr]

theorem negated_iff : negated m s = true ↔ Negated m s := by
  have hsearch : negated m s = true ↔ ∃ a r, s = a ++ r ∧ negatedHere m r = true := by
    induction s with
    | nil =>
      refine iff_of_false (by simp [negated]) ?_
      rintro ⟨a, r, h, hr⟩
      rw [(List.append_eq_nil_iff.mp h.symm).2] at hr
      cases hr
    | cons c s ih =>
      rw [negated, Bool.or_eq_true, ih]
      constructor
      · rintro (h | ⟨a, r, rfl, hr⟩)
        · exact ⟨[], c :: s, rfl, h⟩
        · exact ⟨c :: a, r, rfl, hr⟩
      · rintro ⟨a, r, h, hr⟩
        cases a with
        | nil =>
          rw [List.nil_append] at h
          exact .inl (h ▸ hr)
        | cons d a =>
          obtain ⟨rfl, hs⟩ := List.cons.inj h
          exact .inr ⟨a, r, hs, hr⟩
  simp only [hsearch, negatedHere_iff, afterBlanks_iff, onLine_iff]
  constructor
  · rintro ⟨a, _, rfl, c, _, rfl, hc, g, _, rfl, hg, p, q, rfl, hp⟩
    exact ⟨a, c :: g, p, q, rfl, List.cons_ne_nil c g, List.forall_mem_cons.mpr ⟨hc, hg⟩, hp⟩
  · rintro ⟨a, g, p, q, rfl, hne, hg, hp⟩
    obtain ⟨c, g, rfl⟩ := List.exists_cons_of_ne_nil hne
    obtain ⟨hc, hg⟩ := List.forall_mem_cons.mp hg
    exact ⟨a, _, rfl, c, _, rfl, hc, g, _, rfl, hg, p, q, rfl, hp⟩

/-- On one line any occurrence counts that comes after `not` and a blank. -/
theorem negated_iff_of_line (hline : '\n' ∉ s) :
    Negated m s ↔ ∃ a c b, s = a ++ 'n' :: 'o' :: 't' :: c :: b ∧ isBlank c ∧ m <:+: b := by
  constructor
  · rintro ⟨a, g, p, q, rfl, hne, hg, -⟩
    obtain ⟨c, g, rfl⟩ := List.exists_cons_of_ne_nil hne
    exact ⟨a, c, g ++ (p ++ (m ++ q)), rfl, hg c List.mem_cons_self, g ++ p, q, by simp⟩
  · rintro ⟨a, c, _, rfl, hc, p, q, rfl⟩
    refine ⟨a, [c], p, q, by simp, List.cons_ne_nil c [], List.forall_mem_singleton.mpr hc, fun hp => ?_⟩
    exact hline (by simp [hp])

theorem opensAfter_iff (o : Option Char) :
    opensAfter o = true ↔ ∀ c ∈ o, isBlank c ∨ c = ',' ∨ c = '(' := by
  cases o <;> simp [opensAfter, or_assoc]

theorem closesBefore_iff (b : List Char) : closesBefore b = true ↔ EndsBefore b := by
  have ho : isBlank 'o' = false := rfl
  have ha : isBlank 'a' = false := rfl
  unfold closesBefore EndsBefore
  split
  · simp
  · simp [OperatorNext, ho]
  · simp [OperatorNext, ha]
  · rename_i c r hor hand
    have hno : ¬ OperatorNext (c :: r) := by
      rintro ⟨d, t, -, h | h⟩
      · cases h
        exact hor _ _ rfl rfl
      · cases h
        exact hand _ _ rfl rfl
    simp [hno, or_assoc]

instance (b : List Char) : Decidable (OperatorNext b) :=
  decidable_of_iff (closesBefore b ∧ b.head?.any fun c => !isBlank c && c ≠ ',' && c ≠ ')') (by
    rw [closesBefore_iff, EndsBefore]
    constructor
    · rintro ⟨h, hn⟩
      refine h.resolve_left fun hc => ?_
      cases b with
      | nil => cases hn
      | cons c b =>
        rcases hc c rfl with hc | rfl | rfl
        · simp [hc] at hn
        · simp at hn
        · simp at hn
    · intro h
      refine ⟨.inr h, ?_⟩
      obtain ⟨d, r, -, rfl | rfl⟩ := h
      · rfl
      · rfl)

instance (m s : List Char) : Decidable (Glued m s) :=
  decidable_of_iff (∃ t ∈ s.tails, m <+: t ∧ OperatorNext (t.drop m.length)) (by
    simp only [List.mem_tails]
    constructor
    · rintro ⟨_, ⟨a, rfl⟩, ⟨b, rfl⟩, hb⟩
      exact ⟨a, b, rfl, by rwa [List.drop_left] at hb⟩
    · rintro ⟨a, b, rfl, hb⟩
      exact ⟨m ++ b, List.suffix_append a _, List.prefix_append m b, by rwa [List.drop_left]⟩)

theorem standalone_iff_before (before : Option Char) : standalone m before s = true ↔
    ∃ a b, s = a ++ (m ++ b) ∧ opensAfter (a.getLast?.or before) = true ∧ closesBefore b = true := by
  have hhere : ∀ (before : Option Char) (s : List Char), (opensAfter before && m.isPrefixOf s &&
      closesBefore (s.drop m.length)) = true ↔
      ∃ b, s = m ++ b ∧ opensAfter before = true ∧ closesBefore b = true := by
    intro before s
    simp only [Bool.and_eq_true, List.isPrefixOf_iff_prefix]
    constructor
    · rintro ⟨⟨ho, b, rfl⟩, hc⟩
      rw [List.drop_left] at hc
      exact ⟨b, rfl, ho, hc⟩
    · rintro ⟨b, rfl, ho, hc⟩
      exact ⟨⟨ho, List.prefix_append m b⟩, by rwa [List.drop_left]⟩
  induction s generalizing before with
  | nil =>
    rw [standalone, Bool.or_false, hhere]
    constructor
    · rintro ⟨b, h, ho, hc⟩
      exact ⟨[], b, h, ho, hc⟩
    · rintro ⟨a, b, h, ho, hc⟩
      obtain ⟨rfl, hb⟩ := List.append_eq_nil_iff.mp h.symm
      exact ⟨b, hb.symm, ho, hc⟩
  | cons c s ih =>
    have hlast : ∀ a : List Char, (c :: a).getLast?.or before = a.getLast?.or (some c) := by
      intro a
      rw [List.getLast?_cons]
      cases a.getLast? <;> rfl
    rw [standalone, Bool.or_eq_true, hhere]
    refine (or_congr_right (ih (some c))).trans ?_
    constructor
    · rintro (⟨b, h, ho, hc⟩ | ⟨a, b, rfl, ho, hc⟩)
      · exact ⟨[], b, h, ho, hc⟩
      · exact ⟨c :: a, b, rfl, hlast a ▸ ho, hc⟩
    · rintro ⟨a, b, h, ho, hc⟩
      cases a with
      | nil => exact .inl ⟨b, h, ho, hc⟩
      | cons d a =>
        obtain ⟨rfl, hs⟩ := List.cons.inj h
        exact .inr ⟨a, b, hs, hlast a ▸ ho, hc⟩

theorem standalone_iff : standalone m none s = true ↔ StandsAlone m s := by
  simp only [standalone_iff_before, Option.or_none, opensAfter_iff, closesBefore_iff, StandsAlone]

theorem browser_eq_electron_iff :
    browser m s = .electron ↔ ¬ Negated m s ∧ StandsAlone m s := by
  rw [← negated_iff, ← standalone_iff, browser]
  split_ifs with hn hs
  · simp [hn]
  · simp [hn, hs]
  · simp [hn, hs]

theorem browser_eq_chrome_iff : browser m s = .chrome ↔ Negated m s ∨ ¬ StandsAlone m s := by
  rw [← negated_iff, ← standalone_iff, browser]
  split_ifs with hn hs
  · simp [hn]
  · simp [hn, hs]
  · simp [hn, hs]

end Pattern

end SuitePlan
