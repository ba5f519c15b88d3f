import Mathlib.Algebra.GroupWithZero.Nat
import Mathlib.Data.String.Basic
import SuitePlan.Manifest.Basic

/-! Lists of pairs in which a key stands for the value at its first place. -/

namespace SuitePlan

variable {κ α : Type} [BEq κ] [LawfulBEq κ] [DecidableEq κ]

theorem lookup_cons_eq (k k' : κ) (b : α) (l : List (κ × α)) :
    ((k', b) :: l).lookup k = if k = k' then some b else l.lookup k := by
  by_cases h : k = k'
  · rw [if_pos h, List.lookup_cons, h, beq_self_eq_true]
  · rw [if_neg h, List.lookup_cons, beq_false_of_ne h]

theorem lookup_filter_ne {key k : κ} (h : k ≠ key) (l : List (κ × α)) :
    (l.filter (·.1 ≠ key)).lookup k = l.lookup k := by
  induction l with
  | nil => rfl
  | cons x l ih =>
    obtain ⟨a, b⟩ := x
    by_cases ha : a = key
    · have hne : k ≠ a := fun he => h (he.trans ha)
      rw [List.filter_cons_of_neg (by simp [ha]), ih, lookup_cons_eq, if_neg hne]
    · rw [List.filter_cons_of_pos (by simp [ha]), lookup_cons_eq, lookup_cons_eq, ih]

omit [DecidableEq κ] in
theorem lookup_eq_none_of_notMem {k : κ} {l : List (κ × α)} (h : k ∉ l.map (·.1)) :
    l.lookup k = none := by
  apply List.lookup_eq_none_iff.mpr
  intro x hx
  have hne : k ≠ x.1 := fun he => h (he ▸ List.mem_map_of_mem hx)
  simpa using hne

/-- Where no key is repeated, the last value of a key is the first one. -/
theorem lookup_reverse_of_nodup {l : List (κ × α)} (h : (l.map (·.1)).Nodup) (k : κ) :
    l.reverse.lookup k = l.lookup k := by
  induction l with
  | nil => rfl
  | cons x l ih =>
    obtain ⟨k', b⟩ := x
    obtain ⟨hk', hl⟩ := List.nodup_cons.mp h
    rw [List.reverse_cons, List.lookup_append, ih hl, lookup_cons_eq, lookup_cons_eq]
    by_cases hk : k = k'
    · rw [if_pos hk, hk, lookup_eq_none_of_notMem hk', if_pos rfl, Option.none_or]
    · rw [if_neg hk, if_neg hk, List.lookup_nil, Option.or_none]

theorem lookup_map_value {β : Type} (f : α → β) (k : κ) (l : List (κ × α)) :
    (l.map fun (k, a) => (k, f a)).lookup k = (l.lookup k).map f := by
  induction l with
  | nil => rfl
  | cons x l ih =>
    obtain ⟨a, b⟩ := x
    rw [List.map_cons, lookup_cons_eq, lookup_cons_eq, ih]
    split
    · rfl
    · rfl

omit [BEq κ] [LawfulBEq κ] [DecidableEq κ] in
theorem map_fst_filterMap_value {β : Type} (f : α → Option β) (l : List (κ × α)) :
    (l.filterMap fun (k, a) => (f a).map (k, ·)).map (·.1) =
      (l.filter fun x => (f x.2).isSome).map (·.1) := by
  induction l with
  | nil => rfl
  | cons x l ih =>
    obtain ⟨a, b⟩ := x
    cases hf : f b with
    | none => simpa [hf] using ih
    | some c => simpa [hf] using ih

/-- Where no key is repeated, a key whose value is left out stands for nothing. -/
theorem lookup_filterMap_value {β : Type} (f : α → Option β) (k : κ) {l : List (κ × α)}
    (h : (l.map (·.1)).Nodup) :
    (l.filterMap fun (k, a) => (f a).map (k, ·)).lookup k = (l.lookup k).bind f := by
  induction l with
  | nil => rfl
  | cons x l ih =>
    obtain ⟨a, b⟩ := x
    obtain ⟨ha, hl⟩ := List.nodup_cons.mp h
    have hrest := ih hl
    by_cases hk : k = a
    · subst hk
      rw [lookup_eq_none_of_notMem ha, Option.bind_none] at hrest
      cases hf : f b with
      | none => simp [hf, hrest]
      | some c => simp [hf]
    · cases hf : f b with
      | none => simp [lookup_cons_eq, hf, hk, hrest]
      | some c => simp [lookup_cons_eq, hf, hk, hrest]

/-- A list without repeated keys is fixed by its keys in order and by what they stand for. -/
theorem eq_of_lookup {l m : List (κ × α)} (hn : (l.map (·.1)).Nodup)
    (hk : l.map (·.1) = m.map (·.1)) (hg : ∀ k, l.lookup k = m.lookup k) : l = m := by
  induction l generalizing m with
  | nil => exact (List.map_eq_nil_iff.mp hk.symm).symm
  | cons x l ih =>
    obtain ⟨k, b⟩ := x
    cases m with
    | nil => cases hk
    | cons y m =>
      obtain ⟨k', b'⟩ := y
      obtain ⟨rfl, hkeys⟩ := List.cons.inj hk
      obtain ⟨hkl, hnl⟩ := List.nodup_cons.mp hn
      have hb : b = b' := by simpa only [lookup_cons_eq, if_true, Option.some.injEq] using hg k
      have hrest : ∀ key, l.lookup key = m.lookup key := by
        intro key
        by_cases h : key = k
        · have hkm : k ∉ m.map (·.1) := hkeys ▸ hkl
          rw [h, lookup_eq_none_of_notMem hkl, lookup_eq_none_of_notMem hkm]
        · simpa only [lookup_cons_eq, if_neg h] using hg key
      rw [hb, ih hnl hkeys hrest]

/-- The keys ascend, so there is one value for each of them. -/
def Ascending (l : List (String × α)) : Prop := l.Pairwise fun x y => x.1 < y.1

theorem mem_putSorted {key : String} {a : α} {l : List (String × α)} {x : String × α}
    (h : x ∈ putSorted key a l) : x = (key, a) ∨ x ∈ l := by
  induction l with
  | nil => exact .inl (List.mem_singleton.mp h)
  | cons y l ih =>
    obtain ⟨k, b⟩ := y
    by_cases he : key = k
    · simp only [putSorted, if_pos he, List.mem_cons] at h
      exact h.imp id (List.mem_cons_of_mem _)
    · by_cases hl : key < k
      · simp only [putSorted, if_neg he, if_pos hl] at h
        exact List.mem_cons.mp h
      · simp only [putSorted, if_neg he, if_neg hl] at h
        rcases List.mem_cons.mp h with rfl | h
        · exact .inr List.mem_cons_self
        · exact (ih h).imp id (List.mem_cons_of_mem _)

theorem Ascending.putSorted {l : List (String × α)} (h : Ascending l) (key : String) (a : α) :
    Ascending (putSorted key a l) := by
  induction l with
  | nil => exact List.pairwise_singleton _ _
  | cons y l ih =>
    obtain ⟨k, b⟩ := y
    have hk : ∀ x ∈ l, k < x.1 := fun x hx => List.rel_of_pairwise_cons h hx
    have ht : Ascending l := List.Pairwise.of_cons h
    by_cases he : key = k
    · subst he
      simp only [SuitePlan.putSorted, if_true]
      exact List.Pairwise.cons hk ht
    · by_cases hl : key < k
      · simp only [SuitePlan.putSorted, if_neg he, if_pos hl]
        refine List.Pairwise.cons (fun x hx => ?_) h
        rcases List.mem_cons.mp hx with rfl | hx
        · exact hl
        · exact String.lt_trans hl (hk x hx)
      · simp only [SuitePlan.putSorted, if_neg he, if_neg hl]
        refine List.Pairwise.cons (fun x hx => ?_) (ih ht)
        rcases mem_putSorted hx with rfl | hx
        · exact lt_of_le_of_ne (not_lt.mp hl) (Ne.symm he)
        · exact hk x hx

/-- A new key adds one entry to the others. -/
theorem perm_putSorted {key : String} {l : List (String × α)} (h : key ∉ l.map (·.1)) (a : α) :
    (putSorted key a l).Perm ((key, a) :: l) := by
  induction l with
  | nil => exact List.Perm.refl _
  | cons y l ih =>
    obtain ⟨k, b⟩ := y
    have he : key ≠ k := List.ne_of_not_mem_cons h
    by_cases hl : key < k
    · rw [putSorted, if_neg he, if_pos hl]
    · rw [putSorted, if_neg he, if_neg hl]
      exact ((ih (List.not_mem_of_not_mem_cons h)).cons (k, b)).trans (List.Perm.swap _ _ l)

theorem Ascending.nodup {l : List (String × α)} (h : Ascending l) : (l.map (·.1)).Nodup :=
  List.pairwise_map.mpr (List.Pairwise.imp ne_of_lt h)

theorem putSorted_of_gt {key : String} {l : List (String × α)} (h : ∀ x ∈ l, x.1 < key)
    (a : α) : putSorted key a l = l ++ [(key, a)] := by
  induction l with
  | nil => rfl
  | cons x l ih =>
    obtain ⟨k, b⟩ := x
    have hk : k < key := h (k, b) List.mem_cons_self
    have hrest := ih fun x hx => h x (List.mem_cons_of_mem _ hx)
    rw [putSorted, if_neg (ne_of_gt hk), if_neg (lt_asymm hk), hrest, List.cons_append]

/-- Entries that are put in one after another in order stay in that order. -/
theorem foldl_putSorted (before l : List (String × α)) (h : Ascending (before ++ l)) :
    l.foldl (fun m (k, a) => putSorted k a m) before = before ++ l := by
  induction l generalizing before with
  | nil => exact (List.append_nil before).symm
  | cons x l ih =>
    obtain ⟨k, a⟩ := x
    have hlast : ∀ y ∈ before, y.1 < k := by
      intro y hy
      have hcross := (List.pairwise_append.mp h).2.2
      exact hcross y hy (k, a) List.mem_cons_self
    have hnext : Ascending ((before ++ [(k, a)]) ++ l) := by
      rwa [List.append_assoc]
    calc
      _ = l.foldl (fun m (k, a) => putSorted k a m) (putSorted k a before) := rfl
      _ = (before ++ [(k, a)]) ++ l := by rw [putSorted_of_gt hlast, ih _ hnext]
      _ = before ++ (k, a) :: l := by rw [List.append_assoc, List.singleton_append]

/-- There is only one way to put entries in order. -/
theorem Ascending.eq_of_perm {l m : List (String × α)} (hl : Ascending l) (hm : Ascending m)
    (h : l.Perm m) : l = m :=
  List.Perm.eq_of_pairwise (fun _ _ _ _ hxy hyx => absurd hyx (lt_asymm hxy)) hl hm h

theorem lookup_putSorted (key k : String) (a : α) (l : List (String × α)) :
    (putSorted key a l).lookup k = if k = key then some a else l.lookup k := by
  induction l with
  | nil => exact lookup_cons_eq k key a []
  | cons y l ih =>
    obtain ⟨k', b⟩ := y
    by_cases he : key = k'
    · subst he
      simp only [putSorted, if_true, lookup_cons_eq]
      by_cases hk : k = key
      · simp only [if_pos hk]
      · simp only [if_neg hk]
    · by_cases hl : key < k'
      · simp only [putSorted, if_neg he, if_pos hl]
        exact lookup_cons_eq k key a _
      · simp only [putSorted, if_neg he, if_neg hl, lookup_cons_eq, ih]
        by_cases hk : k = k'
        · have hne : k ≠ key := fun h => he (h.symm.trans hk)
          simp only [if_pos hk, if_neg hne]
        · simp only [if_neg hk]

theorem lookup_eq_none_of_lt {key : String} {l : List (String × α)} (h : ∀ x ∈ l, key < x.1) :
    l.lookup key = none := by
  apply List.lookup_eq_none_iff.mpr
  intro x hx
  have hne : key ≠ x.1 := ne_of_lt (h x hx)
  simpa using hne

theorem sum_putSorted (f : α → Nat) (key : String) (a : α) {l : List (String × α)}
    (h : Ascending l) :
    ((putSorted key a l).map (f ·.2)).sum + ((l.lookup key).map f).getD 0 =
      (l.map (f ·.2)).sum + f a := by
  induction l with
  | nil => simp [putSorted]
  | cons y l ih =>
    obtain ⟨k, b⟩ := y
    have hk : ∀ x ∈ l, k < x.1 := fun x hx => List.rel_of_pairwise_cons h hx
    by_cases he : key = k
    · subst he
      simp only [putSorted, if_true, lookup_cons_eq, Option.map_some, Option.getD_some,
        List.map_cons, List.sum_cons]
      omega
    · by_cases hl : key < k
      · have hnone : ((k, b) :: l).lookup key = none := by
          apply lookup_eq_none_of_lt
          intro x hx
          rcases List.mem_cons.mp hx with rfl | hx
          · exact hl
          · exact String.lt_trans hl (hk x hx)
        rw [hnone]
        simp only [putSorted, if_neg he, if_pos hl, List.map_cons, List.sum_cons, Option.map_none,
          Option.getD_none]
        omega
      · have hh := ih (List.Pairwise.of_cons h)
        simp only [putSorted, if_neg he, if_neg hl, lookup_cons_eq, List.map_cons, List.sum_cons]
        omega

theorem le_sum_of_lookup (f : α → Nat) (key : String) (l : List (String × α)) :
    ((l.lookup key).map f).getD 0 ≤ (l.map (f ·.2)).sum := by
  induction l with
  | nil => simp
  | cons y l ih =>
    obtain ⟨k, b⟩ := y
    by_cases he : key = k
    · simp only [lookup_cons_eq, if_pos he, Option.map_some, Option.getD_some, List.map_cons,
        List.sum_cons]
      omega
    · simp only [lookup_cons_eq, if_neg he, List.map_cons, List.sum_cons]
      omega

end SuitePlan
