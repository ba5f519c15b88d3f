import Mathlib.Data.List.Induction
import Mathlib.Data.List.Nodup

/-! Lists from which later occurrences are left out. -/

namespace SuitePlan

variable {α : Type} [DecidableEq α]

theorem eraseDups_append_singleton (l : List α) (a : α) :
    (l ++ [a]).eraseDups = if a ∈ l then l.eraseDups else l.eraseDups ++ [a] := by
  rw [List.eraseDups_append]
  by_cases h : a ∈ l
  · simp [List.removeAll, h]
  · simp [List.removeAll, h, List.eraseDups_cons]

theorem nodup_eraseDups (l : List α) : l.eraseDups.Nodup := by
  induction l using List.reverseRecOn with
  | nil => exact List.nodup_nil
  | append_singleton l a ih =>
    rw [eraseDups_append_singleton]
    by_cases h : a ∈ l
    · rwa [if_pos h]
    · rw [if_neg h]
      exact List.nodup_append'.mpr ⟨ih, List.nodup_singleton a, by simpa using h⟩

theorem eraseDups_of_nodup {l : List α} (h : l.Nodup) : l.eraseDups = l := by
  induction l using List.reverseRecOn with
  | nil => rfl
  | append_singleton l a ih =>
    obtain ⟨hl, -, hd⟩ := List.nodup_append'.mp h
    have ha : a ∉ l := by simpa using hd
    rw [eraseDups_append_singleton, if_neg ha, ih hl]

theorem eraseDups_append_eraseDups (l m : List α) :
    (l ++ m.eraseDups).eraseDups = (l ++ m).eraseDups := by
  induction m using List.reverseRecOn with
  | nil => rfl
  | append_singleton m a ih =>
    rw [← List.append_assoc, eraseDups_append_singleton (l ++ m), ← ih, eraseDups_append_singleton m]
    by_cases ha : a ∈ m
    · rw [if_pos ha, if_pos (List.mem_append_right l ha)]
    · rw [if_neg ha, ← List.append_assoc, eraseDups_append_singleton]
      simp only [List.mem_append, List.mem_eraseDups]

end SuitePlan
