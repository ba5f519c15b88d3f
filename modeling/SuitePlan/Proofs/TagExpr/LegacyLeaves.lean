import Mathlib.Data.List.Forall2
import SuitePlan.Proofs.TagExpr.LegacyMeaning
import SuitePlan.Proofs.Text.Span

/-! Where the leaves of a tree of the legacy grammar come from. Each cut of a text leaves parts of it
that lie apart and in order, and nothing else is put into the tree but the contradiction for the
negation of an operand that is absent. -/

namespace SuitePlan

/-- No node is of unknown kind. -/
def TagExpr.Known : TagExpr → Prop
  | tag _ => True
  | and left right => left.Known ∧ right.Known
  | or left right => left.Known ∧ right.Known
  | not operand => operand.Known
  | unknown => False

namespace Legacy

/-- The tree is read off the text. Each leaf is a part of it without blanks at the ends, two operands
come from two parts side by side, and a contradiction stands for a `not` whose operand is absent. -/
inductive Drawn : List Char → TagExpr → Prop
  | tag {a w b : List Char} (hne : w ≠ []) (hw : trim w = w) :
      Drawn (a ++ (w ++ b)) (.tag (String.ofList w))
  | and {s t : List Char} {l r : TagExpr} (hl : Drawn s l) (hr : Drawn t r) :
      Drawn (s ++ t) (.and l r)
  | or {s t : List Char} {l r : TagExpr} (hl : Drawn s l) (hr : Drawn t r) :
      Drawn (s ++ t) (.or l r)
  | not {s : List Char} {e : TagExpr} (h : Drawn s e) : Drawn s (.not e)
  | contradiction {a w b r : List Char} (hw : Negates w r) (hr : parse r = none) :
      Drawn (a ++ (w ++ b)) (.and (.tag "") (.not (.tag "")))

theorem Drawn.widen {s : List Char} {e : TagExpr} (h : Drawn s e) (x y : List Char) :
    Drawn (x ++ (s ++ y)) e := by
  induction h generalizing x y with
  | @tag a w b hne hw => simpa using Drawn.tag (a := x ++ a) (b := b ++ y) hne hw
  | and _ _ ihl ihr => simpa using Drawn.and (ihl x []) (ihr [] y)
  | or _ _ ihl ihr => simpa using Drawn.or (ihl x []) (ihr [] y)
  | not _ ih => exact .not (ih x y)
  | @contradiction a w b r hw hr =>
    simpa using Drawn.contradiction (a := x ++ a) (b := b ++ y) hw hr

/-- The tree, if there is one, is read off the text. -/
def Gives (s : List Char) (o : Option TagExpr) : Prop := ∀ e ∈ o, Drawn s e

namespace Gives

variable {s t : List Char} {l r o : Option TagExpr}

theorem widen (h : Gives s o) (x y : List Char) : Gives (x ++ (s ++ y)) o :=
  fun e he => (h e he).widen x y

theorem widen_left (h : Gives s o) (x : List Char) : Gives (x ++ s) o := by
  simpa using h.widen x []

theorem both (hl : Gives s l) (hr : Gives t r) : Gives (s ++ t) (both l r) := by
  intro e he
  cases l with
  | none => exact hr.widen_left s e he
  | some f =>
    cases r with
    | none => exact (hl e he).widen [] t
    | some g =>
      cases he
      exact .and (hl f rfl) (hr g rfl)

theorem either (hl : Gives s l) (hr : Gives t r) : Gives (s ++ t) (either l r) := by
  intro e he
  cases l with
  | none => cases he
  | some f =>
    cases r with
    | none => cases he
    | some g =>
      cases he
      exact .or (hl f rfl) (hr g rfl)

theorem negation {w q : List Char} (hw : Negates w q) (h : Gives q (parse q)) :
    Gives w (negation (parse q)) := by
  intro e he
  cases hq : parse q with
  | none =>
    rw [hq] at he
    cases he
    simpa using Drawn.contradiction (a := []) (b := []) hw hq
  | some f =>
    rw [hq] at he
    cases he
    obtain ⟨m, rfl, ⟨g, rfl, -⟩, -⟩ := hw
    exact .not (h.widen_left ('n' :: 'o' :: 't' :: g) f hq)

end Gives

theorem Gives.of_trim {s : List Char} {o : Option TagExpr} (h : Gives (trim s) o) : Gives s o := by
  obtain ⟨g, tail, -, -, hs⟩ := exists_trim s
  rw [hs]
  exact h.widen g tail

theorem Opens.suffix {word s right : List Char} (h : Opens word s right) : right <:+ s := by
  obtain ⟨w, m, ⟨g, rfl, -⟩, -, ⟨k, rfl, -⟩⟩ := h
  exact ⟨g ++ w ++ k, by simp⟩

theorem CutsTop.parts {word s l r : List Char} {d : Int} (h : CutsTop word d s l r) :
    ∃ x, s = l ++ (x ++ r) := by
  obtain ⟨m, rfl, -, hm⟩ := h
  obtain ⟨x, rfl⟩ := hm.suffix
  exact ⟨x, rfl⟩

theorem CutsAndNot.parts {s l r : List Char} (h : CutsAndNot s l r) :
    ∃ x q, s = l ++ (x ++ q) ∧ Negates q r := by
  obtain ⟨m, q, rfl, -, -, hm, hq⟩ := h
  obtain ⟨x, rfl⟩ := hm.suffix
  exact ⟨x, q, rfl, hq⟩

theorem gives_parse (s : List Char) : Gives s (parse s) := by
  fun_induction parse s with
  | case1 s t h =>
    intro e he
    cases he
  | case2 s t _ h ih =>
    obtain ⟨hfirst, hlast, -⟩ := (encloses_iff t).mp h
    obtain ⟨a, ha⟩ := exists_inside hfirst hlast
    have hin : inside t = a := by rw [ha, inside, List.tail_cons, List.dropLast_concat]
    have hgroup := ih.widen ['('] [')']
    rw [hin, List.singleton_append, ← ha, ← hin] at hgroup
    exact hgroup.of_trim
  | case3 s t _ ho l r h ihl ihr =>
    obtain ⟨x, q, ht, hq⟩ := ((splitAndNot?_iff t l r).mp h).1.parts
    have hboth := ihl.both ((Gives.negation hq ihr).widen_left x)
    rw [← ht] at hboth
    exact hboth.of_trim
  | case4 s t _ ho hn l r h ihl ihr =>
    obtain ⟨x, ht⟩ := ((splitTop?_iff _ _ t l r).mp h).1.parts
    have heither := ihl.either (ihr.widen_left x)
    rw [← ht] at heither
    exact heither.of_trim
  | case5 s t _ ho hn hor l r h ihl ihr =>
    obtain ⟨x, ht⟩ := ((splitTop?_iff _ _ t l r).mp h).1.parts
    have hboth := ihl.both (ihr.widen_left x)
    rw [← ht] at hboth
    exact hboth.of_trim
  | case6 s t _ ho hn hor hand r h ih =>
    exact (Gives.negation ((afterNot?_iff t r).mp h) ih).of_trim
  | case7 s t hne ho hn hor hand hnot =>
    refine Gives.of_trim fun e he => ?_
    cases he
    have htag := Drawn.tag (a := []) (b := []) (w := t) (by simpa using hne) (trim_trim s)
    rwa [List.nil_append, List.append_nil] at htag

namespace Drawn

variable {u : List Char} {e : TagExpr}

theorem known (h : Drawn u e) : e.Known := by
  induction h with
  | tag => exact trivial
  | and _ _ ihl ihr | or _ _ ihl ihr => exact ⟨ihl, ihr⟩
  | not _ ih => exact ih
  | contradiction => exact ⟨trivial, trivial⟩

theorem leaf_trimmed (h : Drawn u e) :
    ∀ v ∈ e.leaves, v ≠ "" → isBlankText v = false ∧ trimText v = v := by
  induction h with
  | @tag a w b hne hw =>
    intro v hv _
    rw [TagExpr.leaves, List.mem_singleton] at hv
    rw [hv, isBlankText, trimText, String.toList_ofList, hw]
    refine ⟨?_, rfl⟩
    rw [← Bool.not_eq_true, List.all_eq_true, ← trim_isEmpty_iff, hw, List.isEmpty_iff]
    exact hne
  | and _ _ ihl ihr | or _ _ ihl ihr =>
    intro v hv
    rcases List.mem_append.mp hv with hv | hv
    · exact ihl v hv
    · exact ihr v hv
  | not _ ih => exact ih
  | contradiction =>
    intro v hv hne
    exact absurd (by simpa [TagExpr.leaves] using hv) hne

/-- The leaves stand in the text `s` at these places, in order and apart, and all of them between the
bytes `i` and `j`. -/
structure Places (s : String) (i j : Nat) (ps : List (Nat × Nat)) (vs : List String) : Prop where
  spans : List.Forall₂ (fun p v => Spans s p.1 p.2 v) ps vs
  apart : ps.Pairwise fun p q => p.2 ≤ q.1
  within : ∀ p ∈ ps, i ≤ p.1 ∧ p.2 ≤ j

theorem Places.append {s : String} {i j k : Nat} {ps qs : List (Nat × Nat)} {vs ws : List String}
    (h : Places s i j ps vs) (h' : Places s j k qs ws) (hij : i ≤ j) (hjk : j ≤ k) :
    Places s i k (ps ++ qs) (vs ++ ws) where
  spans := List.rel_append h.spans h'.spans
  apart := by
    refine List.pairwise_append.mpr ⟨h.apart, h'.apart, fun p hp q hq => ?_⟩
    exact (h.within p hp).2.trans (h'.within q hq).1
  within := by
    intro p hp
    rcases List.mem_append.mp hp with hp | hp
    · exact ⟨(h.within p hp).1, (h.within p hp).2.trans hjk⟩
    · exact ⟨hij.trans (h'.within p hp).1, (h'.within p hp).2⟩

theorem exists_places (h : Drawn u e) {s : String} {a b : List Char} (hs : s.toList = a ++ (u ++ b)) :
    ∃ ps, Places s (byteSize a) (byteSize (a ++ u)) ps (e.leaves.filter (· ≠ "")) := by
  induction h generalizing a b with
  | @tag x w y hne _ =>
    have hsplit : s.toList = (a ++ x) ++ (w ++ (y ++ b)) := by simp [hs]
    have hleaf : (TagExpr.tag (String.ofList w)).leaves.filter (· ≠ "") = [String.ofList w] := by
      simp [TagExpr.leaves, hne]
    refine ⟨[(byteSize (a ++ x), byteSize (a ++ x ++ w))], ?_⟩
    rw [hleaf]
    refine ⟨.cons (.of_append hsplit) .nil, List.pairwise_singleton _ _, ?_⟩
    simp only [List.forall_mem_singleton, byteSize_append]
    omega
  | @and x y l r _ _ ihl ihr | @or x y l r _ _ ihl ihr =>
    have hleft : s.toList = a ++ (x ++ (y ++ b)) := by simp [hs]
    have hright : s.toList = (a ++ x) ++ (y ++ b) := by simp [hs]
    obtain ⟨ps, hps⟩ := ihl hleft
    obtain ⟨qs, hqs⟩ := ihr hright
    refine ⟨ps ++ qs, ?_⟩
    rw [List.append_assoc] at hqs
    simp only [TagExpr.leaves, List.filter_append]
    refine hps.append hqs ?_ ?_
    · simp only [byteSize_append]
      omega
    · simp only [byteSize_append]
      omega
  | not _ ih => exact ih hs
  | contradiction =>
    have hnone : (TagExpr.and (.tag "") (.not (.tag ""))).leaves.filter (· ≠ "") = [] := by decide
    rw [hnone]
    exact ⟨[], .nil, .nil, by simp⟩

end Drawn

end Legacy

/-- The tree of a text in the legacy grammar has no node of unknown kind. Its leaves from left to right,
the empty ones of the contradictions left out, are parts of the text that lie apart and in order, with
blanks neither alone in them nor at their ends. -/
theorem legacy_leaves_in_order {s : String} {e : TagExpr}
    (h : Grammar.legacy.parse s = .ok (some e)) :
    e.Known ∧ Legacy.Drawn s.toList e ∧
      (∀ v ∈ e.leaves, v ≠ "" → isBlankText v = false ∧ trimText v = v) ∧
      ∃ ps : List (Nat × Nat), (ps.Pairwise fun p q => p.2 ≤ q.1) ∧
        List.Forall₂ (fun p v => Spans s p.1 p.2 v) ps (e.leaves.filter (· ≠ "")) := by
  have hd : Legacy.Drawn s.toList e := Legacy.gives_parse s.toList e (Except.ok.inj h)
  have hs : s.toList = [] ++ (s.toList ++ []) := by simp
  obtain ⟨ps, hps⟩ := hd.exists_places hs
  exact ⟨hd.known, hd, hd.leaf_trimmed, ps, hps.apart, hps.spans⟩

theorem legacy_leaves_in_order_contradiction :
    Grammar.legacy.parse "(é or ü  x) AND not ( ) and not b" =
        .ok (some (.and (.and (.or (.tag "é") (.tag "ü  x")) (.and (.tag "") (.not (.tag ""))))
          (.not (.tag "b")))) ∧
      ∃ ps : List (Nat × Nat), (ps.Pairwise fun p q => p.2 ≤ q.1) ∧
        List.Forall₂ (fun p v => Spans "(é or ü  x) AND not ( ) and not b" p.1 p.2 v) ps
          ["é", "ü  x", "b"] := by
  have hparse : Grammar.legacy.parse "(é or ü  x) AND not ( ) and not b" =
      .ok (some (.and (.and (.or (.tag "é") (.tag "ü  x")) (.and (.tag "") (.not (.tag ""))))
        (.not (.tag "b")))) := by decide +kernel
  obtain ⟨-, -, -, ps, hapart, hspans⟩ := legacy_leaves_in_order hparse
  exact ⟨hparse, ps, hapart, hspans⟩

end SuitePlan
