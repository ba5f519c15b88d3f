import SuitePlan.Proofs.Weight.Updating

/-! Shares of a budget in exact arithmetic. Each weight is less than one below the share of its time,
so the weights never spend more than the budget and leave less than one for each timed key. -/

namespace SuitePlan

instance : RoundDown ℚ := ⟨fun x => ⌊x⌋⟩

namespace Weights

section Entries

variable {W : Type}

def times (t : Weights W) : List W := t.entries.filterMap (·.2.time)

def weights (t : Weights W) : List W := t.entries.filterMap (·.2.weight)

theorem length_times (t : Weights W) : t.times.length = t.timedKeys.length := by
  rw [times, timedKeys, List.length_map]
  induction t.entries with
  | nil => rfl
  | cons x l ih =>
    obtain ⟨key, time, weight⟩ := x
    cases time with
    | none => exact ih
    | some time => exact congrArg (· + 1) ih

variable [Zero W] [Mul W] [Div W] [LT W] [DecidableLT W] [RoundDown W]

theorem weights_ofTimings {t : Weights W} (h : t.keys.Nodup) (total budget : W) :
    (t.ofTimings total budget).weights = t.times.map (share total budget) := by
  rw [weights, entries_ofTimings h, times, List.filterMap_filterMap, List.map_filterMap]
  apply List.filterMap_congr
  rintro ⟨key, time, weight⟩ -
  cases time with
  | none => rfl
  | some time => rfl

/-- Only the timed keys are kept, in their order and each with its time. -/
theorem timed_ofTimings {t : Weights W} (h : t.keys.Nodup) (total budget : W) :
    ((t.ofTimings total budget).entries.map fun (k, e) => (k, e.time)) =
      (t.entries.filter (·.2.time.isSome)).map fun (k, e) => (k, e.time) := by
  rw [entries_ofTimings h]
  induction t.entries with
  | nil => rfl
  | cons x l ih =>
    obtain ⟨key, time, weight⟩ := x
    cases time with
    | none => exact ih
    | some time => exact congrArg ((key, some time) :: ·) ih

theorem exists_weighed_of_mem {t : Weights W} (h : t.keys.Nodup) {total budget : W}
    {x : String × Weighing W} (hx : x ∈ (t.ofTimings total budget).entries) :
    ∃ time ∈ t.times, x.2 = weighed total budget time := by
  rw [entries_ofTimings h] at hx
  obtain ⟨⟨key, e⟩, he, hx⟩ := List.mem_filterMap.mp hx
  simp only [Option.map_map, Option.map_eq_some_iff] at hx
  obtain ⟨time, htime, rfl⟩ := hx
  exact ⟨time, List.mem_filterMap.mpr ⟨_, he, htime⟩, rfl⟩

end Entries

section Exact

variable {total budget : ℚ}

theorem share_eq_floor (h : 0 < total) (time : ℚ) :
    share total budget time = ⌊time / total * budget⌋ := if_pos h

theorem share_mono (h : 0 < total) (hbudget : 0 ≤ budget) {time time' : ℚ} (hle : time ≤ time') :
    share total budget time ≤ share total budget time' := by
  rw [share_eq_floor h, share_eq_floor h]
  gcongr

theorem exists_nat_share (h : 0 < total) (hbudget : 0 ≤ budget) {time : ℚ} (htime : 0 ≤ time) :
    ∃ n : ℕ, share total budget time = n := by
  have hfloor : 0 ≤ ⌊time / total * budget⌋ := by
    apply Int.floor_nonneg.mpr
    positivity
  obtain ⟨n, hn⟩ := Int.eq_ofNat_of_zero_le hfloor
  refine ⟨n, ?_⟩
  rw [share_eq_floor h, hn]
  rfl

theorem sum_share_bounds (h : 0 < total) (budget : ℚ) (times : List ℚ) :
    (times.map (share total budget)).sum ≤ times.sum / total * budget ∧
      (times ≠ [] →
        times.sum / total * budget - times.length < (times.map (share total budget)).sum) := by
  induction times with
  | nil => simp
  | cons time times ih =>
    obtain ⟨hle, hlt⟩ := ih
    have hsplit : (time + times.sum) / total * budget =
        time / total * budget + times.sum / total * budget := by
      rw [add_div, add_mul]
    have hfloor := Int.floor_le (time / total * budget)
    have hnext := Int.lt_floor_add_one (time / total * budget)
    rw [List.map_cons, List.sum_cons, List.sum_cons, hsplit, share_eq_floor h, List.length_cons,
      Nat.cast_add, Nat.cast_one]
    refine ⟨by linarith, fun _ => ?_⟩
    by_cases hnil : times = []
    · subst hnil
      simp only [List.sum_nil, List.map_nil, List.length_nil, Nat.cast_zero, zero_div, zero_mul]
      linarith
    · have hrest := hlt hnil
      linarith

end Exact

/-- What becomes of a budget that is shared out by times. -/
structure Apportioned (t shares : Weights ℚ) (budget : ℚ) : Prop where
  timed : (shares.entries.map fun (k, e) => (k, e.time)) =
    (t.entries.filter (·.2.time.isSome)).map fun (k, e) => (k, e.time)
  natural : ∀ x ∈ shares.entries, ∃ n : ℕ, x.2.weight = some (n : ℚ)
  mono : ∀ x ∈ shares.entries, ∀ y ∈ shares.entries, ∀ s ∈ x.2.time, ∀ s' ∈ y.2.time, s ≤ s' →
    ∃ w ∈ x.2.weight, ∃ w' ∈ y.2.weight, w ≤ w'
  sum_le : shares.weights.sum ≤ budget
  lt_sum : budget - t.timedKeys.length < shares.weights.sum

/-- The timed keys get natural numbers as weights, in the order of their times, which use up the
budget but for less than one for each key. -/
theorem apportioned_ofTimings {t : Weights ℚ} {budget : ℚ} (hkeys : t.keys.Nodup)
    (htimes : ∀ x ∈ t.times, 0 ≤ x) (hsum : 0 < t.totalTime) (hbudget : 0 ≤ budget) :
    Apportioned t (t.ofTimings t.totalTime budget) budget := by
  have htotal : t.times.sum = t.totalTime := List.sum_eq_foldl
  have hne : t.times ≠ [] := by
    intro hnil
    rw [← htotal, hnil, List.sum_nil] at hsum
    exact hsum.false
  have hall : t.times.sum / t.totalTime * budget = budget := by
    rw [htotal, div_self hsum.ne', one_mul]
  obtain ⟨hle, hlt⟩ := sum_share_bounds hsum budget t.times
  rw [hall, ← weights_ofTimings hkeys] at hle hlt
  refine ⟨timed_ofTimings hkeys _ _, ?_, ?_, hle, length_times t ▸ hlt hne⟩
  · intro x hx
    obtain ⟨time, htime, he⟩ := exists_weighed_of_mem hkeys hx
    obtain ⟨n, hn⟩ := exists_nat_share hsum hbudget (htimes time htime)
    exact ⟨n, by rw [he, weighed, hn]⟩
  · intro x hx y hy s hs s' hs' hle
    obtain ⟨time, -, he⟩ := exists_weighed_of_mem hkeys hx
    obtain ⟨time', -, he'⟩ := exists_weighed_of_mem hkeys hy
    rw [he] at hs ⊢
    rw [he'] at hs' ⊢
    cases hs
    cases hs'
    exact ⟨_, rfl, _, rfl, share_mono hsum hbudget hle⟩

theorem apportioned_with_untimed :
    let t : Weights ℚ :=
      ⟨[("a", ⟨some 1, none⟩), ("skipped", ⟨none, some 4⟩), ("idle", ⟨some 0, none⟩), ("b", ⟨some 2, none⟩)]⟩
    t.keys.Nodup ∧ (∀ x ∈ t.times, 0 ≤ x) ∧ 0 < t.totalTime ∧ (0 : ℚ) ≤ 10 ∧
      Apportioned t (t.ofTimings t.totalTime 10) 10 ∧
      t.ofTimings t.totalTime 10 =
        ⟨[("a", ⟨some 1, some 3⟩), ("idle", ⟨some 0, some 0⟩), ("b", ⟨some 2, some 6⟩)]⟩ := by
  intro t
  have hkeys : t.keys.Nodup := by decide
  have htimes : ∀ x ∈ t.times, 0 ≤ x := by decide +kernel
  have hsum : 0 < t.totalTime := by decide +kernel
  have hbudget : (0 : ℚ) ≤ 10 := by norm_num
  exact ⟨hkeys, htimes, hsum, hbudget, apportioned_ofTimings hkeys htimes hsum hbudget,
    by decide +kernel⟩

end Weights

end SuitePlan
