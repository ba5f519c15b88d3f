import Mathlib.Data.List.Induction
import SuitePlan.Proofs.Text.Trim

/-! The stretches of a text between its separators. One of them is what stands between two places at
each of which a separator or an end of the text is. -/

namespace SuitePlan

variable {p q : Char → Bool}

theorem pieces_ne_nil (p : Char → Bool) (s : List Char) : pieces p s ≠ [] := by
  cases s with
  | nil => exact List.cons_ne_nil _ _
  | cons c r =>
    rw [pieces]
    split
    · exact List.cons_ne_nil _ _
    · split
      · exact List.cons_ne_nil _ _
      · exact List.cons_ne_nil _ _

theorem pieces_append_cons (s t : List Char) {c : Char} (hc : p c) :
    pieces p (s ++ c :: t) = pieces p s ++ pieces p t := by
  induction s with
  | nil => simp [pieces, hc]
  | cons d s ih =>
    obtain ⟨w, ws, hs⟩ := List.exists_cons_of_ne_nil (pieces_ne_nil p s)
    rw [hs] at ih
    simp only [List.cons_append, pieces, ih, hs]
    split
    · rfl
    · rfl

theorem pieces_of_none {s : List Char} (hs : ∀ c ∈ s, p c = false) : pieces p s = [s] := by
  induction s with
  | nil => rfl
  | cons c s ih =>
    obtain ⟨hc, hs⟩ := List.forall_mem_cons.mp hs
    rw [pieces, ih hs]
    simp [hc]

theorem pieces_congr {s : List Char} (hs : ∀ c ∈ s, p c = q c) : pieces p s = pieces q s := by
  induction s with
  | nil => rfl
  | cons c s ih =>
    obtain ⟨hc, hs⟩ := List.forall_mem_cons.mp hs
    simp only [pieces, hc, ih hs]

variable {m : List Char}

theorem exists_of_mem_pieces {s : List Char} (h : m ∈ pieces p s) :
    ∃ a b, s = a ++ (m ++ b) ∧ (∀ c ∈ a.getLast?, p c) ∧ ∀ c ∈ b.head?, p c := by
  -- on the length, since the text goes on behind its first separator
  induction hn : s.length using Nat.strong_induction_on generalizing s with
  | _ n ih =>
    subst hn
    have hw : ∀ c ∈ s.takeWhile (!p ·), p c = false := fun c hc => by
      simpa using List.mem_takeWhile_imp hc
    have hs := List.takeWhile_append_dropWhile (p := (!p ·)) (l := s)
    generalize s.takeWhile (!p ·) = w at hw hs
    cases hd : s.dropWhile (!p ·) with
    | nil =>
      rw [hd, List.append_nil] at hs
      rw [← hs, pieces_of_none hw, List.mem_singleton] at h
      exact ⟨[], [], by simp [h, hs], by simp, by simp⟩
    | cons c r =>
      have hc : p c := by
        simpa using head?_dropWhile_eq_false (!p ·) s c (by rw [hd]; rfl)
      rw [hd] at hs
      rw [← hs, pieces_append_cons w r hc, pieces_of_none hw, List.singleton_append,
        List.mem_cons] at h
      rcases h with rfl | h
      · exact ⟨[], c :: r, hs.symm, by simp, by simpa using hc⟩
      · have hlt : r.length < s.length := by
          rw [← hs, List.length_append, List.length_cons]
          omega
        obtain ⟨a, b, hr, ha, hb⟩ := ih r.length hlt h rfl
        refine ⟨w ++ c :: a, b, by rw [← hs, hr]; simp, fun d hd => ?_, hb⟩
        rw [List.getLast?_append, List.getLast?_cons] at hd
        cases hl : a.getLast? with
        | none =>
          simp only [hl, Option.getD_none, Option.some_or, Option.mem_some] at hd
          exact hd ▸ hc
        | some x =>
          simp only [hl, Option.getD_some, Option.some_or, Option.mem_some] at hd
          exact hd ▸ ha x hl

theorem mem_pieces_iff {s : List Char} (hm : ∀ c ∈ m, p c = false) : m ∈ pieces p s ↔
    ∃ a b, s = a ++ (m ++ b) ∧ (∀ c ∈ a.getLast?, p c) ∧ ∀ c ∈ b.head?, p c := by
  refine ⟨exists_of_mem_pieces, ?_⟩
  rintro ⟨a, b, rfl, ha, hb⟩
  have hright : m ∈ pieces p (m ++ b) := by
    cases b with
    | nil => simp [pieces_of_none hm]
    | cons c b => simp [pieces_append_cons m b (hb c rfl), pieces_of_none hm]
  cases a using List.reverseRecOn with
  | nil => exact hright
  | append_singleton a c =>
    rw [List.append_assoc, List.singleton_append, pieces_append_cons a _ (ha c (by simp))]
    exact List.mem_append_right _ hright

theorem mem_pieces_cons (hm : m ≠ []) {c : Char} (hc : p c) (s : List Char) :
    m ∈ pieces p (c :: s) ↔ m ∈ pieces p s := by
  simp [pieces, hc, hm]

theorem mem_pieces_leading {g : List Char} (hm : m ≠ []) (hg : ∀ c ∈ g, p c) (s : List Char) :
    m ∈ pieces p (g ++ s) ↔ m ∈ pieces p s := by
  induction g with
  | nil => rfl
  | cons c g ih =>
    obtain ⟨hc, hg⟩ := List.forall_mem_cons.mp hg
    rw [List.cons_append, mem_pieces_cons hm hc, ih hg]

theorem not_mem_pieces {g : List Char} (hm : m ≠ []) (hg : ∀ c ∈ g, p c) : m ∉ pieces p g := by
  rw [← List.append_nil g, mem_pieces_leading hm hg]
  simp [pieces, hm]

/-- A separator between two texts keeps the stretches of both apart. -/
theorem mem_pieces_append {t : List Char} (hm : m ≠ []) (ht : ∀ c ∈ t.head?, p c)
    (s : List Char) : m ∈ pieces p (s ++ t) ↔ m ∈ pieces p s ∨ m ∈ pieces p t := by
  cases t with
  | nil => simp [pieces, hm]
  | cons c t =>
    have hc := ht c rfl
    rw [pieces_append_cons s t hc, List.mem_append, mem_pieces_cons hm hc]

end SuitePlan
