import Mathlib.Data.List.Basic
import Mathlib.Data.List.Induction
import SuitePlan.Proofs.Path.Relative

/-! The directory a path lies in. It is written without separators at its end, the root apart. -/

namespace SuitePlan

namespace Path

theorem suffix_join (ps : List (List Char)) (p : List Char) : p <:+ join (ps ++ [p]) := by
  induction ps with
  | nil => exact ⟨[], (join_singleton p).symm⟩
  | cons q ps ih =>
    have hcons : join (q :: (ps ++ [p])) = q ++ '/' :: join (ps ++ [p]) := by
      cases ps with
      | nil => exact join_cons_cons q p []
      | cons r ps => exact join_cons_cons q r (ps ++ [p])
    rw [List.cons_append, hcons]
    exact ih.trans ((List.suffix_cons '/' _).trans (List.suffix_append q _))

/-- What is left when the end is dropped ends in a name. -/
theorem isName_getLast_dropEnd {ps : List (List Char)} {p : List Char}
    (h : (dropEnd ps).getLast? = some p) : isName p := by
  rw [dropEnd, List.getLast?_reverse, dropStart] at h
  have hh := List.head?_dropWhile_not (!isName ·) ps.reverse
  rw [h] at hh
  simpa using hh

theorem getLast?_join_dropEnd {ps : List (List Char)} (hps : ∀ p ∈ ps, '/' ∉ p) :
    (join (dropEnd ps)).getLast? ≠ some '/' := by
  cases hd : dropEnd ps using List.reverseRecOn with
  | nil => simp [join]
  | append_singleton qs q =>
    have hlast : (dropEnd ps).getLast? = some q := by rw [hd, List.getLast?_concat]
    have hq := isName_getLast_dropEnd hlast
    have hslash : '/' ∉ q := hps q ((prefix_dropEnd ps).subset (by simp [hd]))
    obtain ⟨x, hx⟩ := suffix_join qs q
    have hne : q ≠ [] := by
      rintro rfl
      cases hq
    rw [← hx, List.getLast?_append_of_ne_nil _ hne]
    exact fun hl => hslash (List.mem_of_getLast? hl)

theorem lead_slash (s : List Char) : (lead s).1 = ['/'] ∨ '/' ∉ (lead s).1 := by
  fun_cases lead s with
  | case1 r => exact .inl rfl
  | case2 => exact .inr (by simp)
  | case3 r => exact .inr (by simp)
  | case4 => exact .inr List.not_mem_nil

/-- The directory of a path ends with a separator only if it begins with one. -/
theorem parent?_slash {s p : List Char} (h : parent? s = some p) :
    p.head? = some '/' ∨ p.getLast? ≠ some '/' := by
  rw [parent?] at h
  cases hd : (dropEnd (stretches (lead s).2)).reverse with
  | nil =>
    simp only [hd] at h
    split_ifs at h
    cases h
    exact .inr (by simp)
  | cons q before =>
    simp only [hd] at h
    cases h
    have hpath : ∀ r ∈ before.reverse, '/' ∉ r := by
      intro r hr
      have hmem : r ∈ dropEnd (stretches (lead s).2) := by
        rw [← List.mem_reverse, hd]
        exact List.mem_cons_of_mem q (List.mem_reverse.mp hr)
      exact slash_notMem_stretches ((prefix_dropEnd _).subset hmem)
    rcases lead_slash s with hl | hl
    · exact .inl (by rw [hl]; rfl)
    · refine .inr fun hlast => ?_
      by_cases hne : join (dropEnd before.reverse) = []
      · rw [hne, List.append_nil] at hlast
        exact hl (List.mem_of_getLast? hlast)
      · rw [List.getLast?_append_of_ne_nil _ hne] at hlast
        exact getLast?_join_dropEnd hpath hlast

end Path

end SuitePlan
