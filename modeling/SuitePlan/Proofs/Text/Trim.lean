import Mathlib.Data.List.TakeWhile
import SuitePlan.Text.Blank

/-! The text between the blanks at both ends of a text. -/

namespace SuitePlan

theorem head?_dropWhile_eq_false {α : Type*} (p : α → Bool) (s : List α) :
    ∀ c ∈ (s.dropWhile p).head?, p c = false := by
  intro c hc
  have hh := List.head?_dropWhile_not p s
  rw [hc] at hh
  simpa using hh

theorem dropWhile_isBlank {g r : List Char} (hg : ∀ c ∈ g, isBlank c)
    (hr : ∀ c ∈ r.head?, isBlank c = false) : (g ++ r).dropWhile isBlank = r := by
  rw [List.dropWhile_append_of_pos hg]
  cases r with
  | nil => simp
  | cons c r => rw [List.dropWhile_cons_of_neg (by simp [hr c rfl])]

theorem trim_padded {s : List Char} (hne : s ≠ []) (hfirst : ∀ c ∈ s.head?, isBlank c = false)
    (hlast : ∀ c ∈ s.getLast?, isBlank c = false) {g tail : List Char} (hg : ∀ c ∈ g, isBlank c)
    (htail : ∀ c ∈ tail, isBlank c) : trim (g ++ (s ++ tail)) = s := by
  have hstart : trimStart (g ++ (s ++ tail)) = s ++ tail := by
    refine dropWhile_isBlank hg fun c hc => hfirst c ?_
    simpa [List.head?_append, hne] using hc
  have hrev : ∀ c ∈ tail.reverse, isBlank c := fun c hc => htail c (List.mem_reverse.mp hc)
  obtain ⟨r, c, hc⟩ := (List.eq_nil_or_concat s).resolve_left hne
  rw [List.concat_eq_append] at hc
  have hb := hlast c (by simp [hc])
  rw [trim, hstart, trimEnd, List.reverse_append, List.dropWhile_append_of_pos hrev, hc,
    List.reverse_append, List.reverse_singleton, List.singleton_append,
    List.dropWhile_cons_of_neg (by simp [hb]), List.reverse_cons, List.reverse_reverse]

theorem trim_eq_self {s : List Char} (hne : s ≠ []) (hfirst : ∀ c ∈ s.head?, isBlank c = false)
    (hlast : ∀ c ∈ s.getLast?, isBlank c = false) : trim s = s := by
  have hnil : ∀ c ∈ ([] : List Char), isBlank c := by simp
  simpa using trim_padded hne hfirst hlast hnil hnil

theorem head?_trim (l : List Char) : (trim l).head? = (l.dropWhile isBlank).head? := by
  have hend : ∀ c s, isBlank c = false → (trimEnd (c :: s)).head? = some c := by
    intro c s hc
    rw [trimEnd, List.reverse_cons, List.dropWhile_append]
    split
    · simp [hc]
    · simp
  rw [trim, trimStart]
  cases hs : l.dropWhile isBlank with
  | nil => rfl
  | cons c s =>
    have hc := head?_dropWhile_eq_false isBlank l c (by rw [hs]; rfl)
    rw [hend c s hc, List.head?_cons]

theorem exists_trim (s : List Char) : ∃ g tail, (∀ c ∈ g, isBlank c) ∧ (∀ c ∈ tail, isBlank c) ∧
    s = g ++ (trim s ++ tail) := by
  refine ⟨s.takeWhile isBlank, ((trimStart s).reverse.takeWhile isBlank).reverse,
    fun c hc => List.mem_takeWhile_imp hc,
    fun c hc => List.mem_takeWhile_imp (List.mem_reverse.mp hc), ?_⟩
  have hend : trim s ++ ((trimStart s).reverse.takeWhile isBlank).reverse = trimStart s := by
    rw [trim, trimEnd, ← List.reverse_append, List.takeWhile_append_dropWhile, List.reverse_reverse]
  rw [hend, trimStart, List.takeWhile_append_dropWhile]

theorem trim_trim (s : List Char) : trim (trim s) = trim s := by
  by_cases hne : trim s = []
  · rw [hne]
    rfl
  · refine trim_eq_self hne (fun c hc => ?_) fun c hc => ?_
    · rw [head?_trim] at hc
      exact head?_dropWhile_eq_false isBlank s c hc
    · rw [trim, trimEnd, List.getLast?_reverse] at hc
      exact head?_dropWhile_eq_false isBlank (trimStart s).reverse c hc

theorem trim_append_blank (s : List Char) {g : List Char} (hg : ∀ c ∈ g, isBlank c) :
    trim (s ++ g) = trim s := by
  have hend : ∀ u, trimEnd (u ++ g) = trimEnd u := by
    intro u
    have hrev : ∀ c ∈ g.reverse, isBlank c := fun c hc => hg c (List.mem_reverse.mp hc)
    rw [trimEnd, List.reverse_append, List.dropWhile_append_of_pos hrev, trimEnd]
  rw [trim, trimStart, List.dropWhile_append, trim, trimStart]
  split
  · next hnil =>
    have hblank : g.dropWhile isBlank = [] := List.dropWhile_eq_nil_iff.mpr hg
    rw [hblank, List.isEmpty_iff.mp hnil]
  · exact hend _

theorem trim_append_carriageReturn (s : List Char) : trim (s ++ ['\r']) = trim s := by
  apply trim_append_blank
  exact List.forall_mem_singleton.mpr rfl

end SuitePlan
