import SuitePlan.Proofs.Decimal.Order
import SuitePlan.Proofs.Distribution.Partition
import SuitePlan.Proofs.Weight.Matching

/-! How many workers are left without a spec. Specs whose weight is above zero go to workers that
have none. The first of the others does so too, and the load of its worker stays at zero or below,
so that all that follow go to that worker. -/

namespace SuitePlan

open Binary64

/-- The number of workers that have nothing to do. -/
def idle {W : Type} (bs : List (Bucket W)) : Nat := bs.countP (·.specs.isEmpty)

theorem idle_perm {W : Type} {bs cs : List (Bucket W)} (h : bs.Perm cs) : idle bs = idle cs :=
  h.countP_eq _

theorem idle_assign_cons {W : Type} [Load W] (b : Bucket W) (bs : List (Bucket W)) (s : String)
    (w : W) : idle (b.assign s w :: bs) = idle bs := by
  simp [idle, Bucket.assign]

/-- Sorting the buckets moves the one in front behind those that are lighter. -/
theorem lightestFirst_cons (b : Bucket Float) (bs : List (Bucket Float)) :
    ∃ l l', lightestFirst (b :: bs) = l ++ b :: l' ∧ lightestFirst bs = l ++ l' ∧
      ∀ c ∈ l, !Binary64.le b.weight c.weight :=
  List.mergeSort_cons (lighter_trans Bucket.weight) (lighter_total Bucket.weight) b bs

theorem idle_assignLightest_le (bs : List (Bucket Float)) (s : String × Float) :
    idle (assignLightest bs s) ≤ idle bs := by
  have hp : idle (lightestFirst bs) = idle bs := idle_perm (List.mergeSort_perm bs _)
  rw [← hp, assignLightest]
  cases lightestFirst bs with
  | nil => exact Nat.le_refl _
  | cons b rest =>
    rw [assignFirst, idle_assign_cons]
    exact (List.sublist_cons_self b rest).countP_le

theorem idle_foldl_le (specs : List (String × Float)) (bs : List (Bucket Float)) :
    idle (specs.foldl assignLightest bs) ≤ idle bs := by
  induction specs generalizing bs with
  | nil => exact Nat.le_refl _
  | cons s specs ih => exact Nat.le_trans (ih _) (idle_assignLightest_le bs s)

/-- Only the empty buckets are not above zero. -/
def Filling (bs : List (Bucket Float)) : Prop :=
  ∀ b ∈ bs, b = .empty ∨ (b.specs ≠ [] ∧ 0 < rank b.weight)

namespace Filling

variable {bs : List (Bucket Float)}

theorem replicate (n : Nat) : Filling (List.replicate n .empty) :=
  fun _ hb => .inl (List.eq_of_mem_replicate hb)

theorem rank_nonneg (h : Filling bs) {b : Bucket Float} (hb : b ∈ bs) : 0 ≤ rank b.weight := by
  rcases h b hb with rfl | ⟨-, hr⟩
  · exact Int.le_of_eq rank_zero.symm
  · omega

/-- As long as there is an empty bucket, the lightest one is empty. -/
theorem lightest (h : Filling bs) (hi : idle bs ≠ 0) :
    ∃ rest, lightestFirst bs = .empty :: rest ∧ Filling rest ∧ idle bs = idle rest + 1 := by
  have hp : (lightestFirst bs).Perm bs := List.mergeSort_perm bs _
  have hsorted := pairwise_lightestFirst bs
  have hf : Filling (lightestFirst bs) := fun b hb => h b (hp.mem_iff.mp hb)
  rw [← idle_perm hp] at hi ⊢
  cases hl : lightestFirst bs with
  | nil => simp [hl, idle] at hi
  | cons b rest =>
    rw [hl] at hsorted hf hi
    rcases hf b List.mem_cons_self with rfl | ⟨hne, hr⟩
    · exact ⟨rest, rfl, fun c hc => hf c (List.mem_cons_of_mem _ hc), by simp [idle, Bucket.empty]⟩
    · -- All buckets would be above zero, so none of them would be empty.
      refine absurd (List.countP_eq_zero.mpr fun c hc => ?_) hi
      rcases hf c hc with rfl | ⟨hc', -⟩
      · rcases List.mem_cons.mp hc with rfl | hc
        · exact absurd rfl hne
        · have hle := of_decide_eq_true (List.rel_of_pairwise_cons hsorted hc)
          have hz : rank (Bucket.empty : Bucket Float).weight = 0 := rank_zero
          omega
      · simpa using hc'

theorem assign (h : Filling bs) (hi : idle bs ≠ 0) {s : String × Float}
    (hs : 0 < rank s.2) :
    Filling (assignLightest bs s) ∧ idle (assignLightest bs s) = idle bs - 1 := by
  obtain ⟨rest, hl, hf, he⟩ := h.lightest hi
  rw [assignLightest, hl, assignFirst, idle_assign_cons]
  refine ⟨fun b hb => ?_, by omega⟩
  rcases List.mem_cons.mp hb with rfl | hb
  · exact .inr ⟨by simp [Bucket.assign], rank_zero_add_pos hs⟩
  · exact hf b hb

theorem assign_all (h : Filling bs) {specs : List (String × Float)}
    (hs : ∀ s ∈ specs, 0 < rank s.2) :
    idle (specs.foldl assignLightest bs) = idle bs - specs.length ∧
      (idle (specs.foldl assignLightest bs) ≠ 0 →
        Filling (specs.foldl assignLightest bs)) := by
  induction specs generalizing bs with
  | nil => exact ⟨rfl, fun _ => h⟩
  | cons s specs ih =>
    by_cases hi : idle bs = 0
    · have hle := idle_foldl_le (s :: specs) bs
      exact ⟨by omega, fun hn => by omega⟩
    · obtain ⟨hf, he⟩ := h.assign hi (hs s List.mem_cons_self)
      obtain ⟨he', hf'⟩ := ih hf fun t ht => hs t (List.mem_cons_of_mem s ht)
      refine ⟨?_, hf'⟩
      rw [List.foldl_cons, he', he, List.length_cons]
      omega

end Filling

/-- The bucket in front has specs and is not above zero, and no other is below zero. -/
def Settled (bs : List (Bucket Float)) : Prop :=
  ∃ b rest, bs = b :: rest ∧ b.specs ≠ [] ∧ rank b.weight ≤ 0 ∧ ∀ c ∈ rest, 0 ≤ rank c.weight

theorem Filling.settled {bs : List (Bucket Float)} (h : Filling bs) (hi : idle bs ≠ 0)
    {s : String × Float} (hs : rank s.2 ≤ 0) :
    Settled (assignLightest bs s) ∧ idle (assignLightest bs s) = idle bs - 1 := by
  obtain ⟨rest, hl, hf, he⟩ := h.lightest hi
  rw [assignLightest, hl, assignFirst, idle_assign_cons]
  refine ⟨⟨_, rest, rfl, by simp [Bucket.assign], ?_, fun c hc => hf.rank_nonneg hc⟩, by omega⟩
  exact rank_add_nonpos (Int.le_of_eq rank_zero) hs

namespace Settled

variable {bs : List (Bucket Float)}

theorem assign (h : Settled bs) {s : String × Float} (hs : rank s.2 ≤ 0) :
    Settled (assignLightest bs s) ∧ idle (assignLightest bs s) = idle bs := by
  obtain ⟨b, rest, rfl, hne, hb, hrest⟩ := h
  -- No bucket is lighter than the one in front, so the sorting leaves it there.
  obtain ⟨l, l', hl, hl', hlt⟩ := lightestFirst_cons b rest
  have hp : (lightestFirst rest).Perm rest := List.mergeSort_perm rest _
  cases l with
  | cons c l =>
    have hc : c ∈ rest := hp.mem_iff.mp (hl' ▸ List.mem_cons_self)
    have hle : Binary64.le b.weight c.weight = true :=
      decide_eq_true (Int.le_trans hb (hrest c hc))
    have hh := hlt c List.mem_cons_self
    rw [hle] at hh
    cases hh
  | nil =>
    rw [List.nil_append] at hl hl'
    rw [hl'] at hp
    rw [assignLightest, hl, assignFirst, idle_assign_cons, idle_perm hp]
    refine ⟨⟨_, l', rfl, by simp [Bucket.assign], rank_add_nonpos hb hs, fun c hc =>
      hrest c (hp.mem_iff.mp hc)⟩, ?_⟩
    simp [idle, hne]

theorem idle_foldl (h : Settled bs) {specs : List (String × Float)}
    (hs : ∀ s ∈ specs, rank s.2 ≤ 0) :
    idle (specs.foldl assignLightest bs) = idle bs := by
  induction specs generalizing bs with
  | nil => rfl
  | cons s specs ih =>
    obtain ⟨hf, he⟩ := h.assign (hs s List.mem_cons_self)
    rw [List.foldl_cons, ih hf fun t ht => hs t (List.mem_cons_of_mem s ht), he]

end Settled

/-- In a list by descending weight the specs above zero come first. -/
theorem filter_append_filter {specs : List (String × Float)}
    (h : specs.Pairwise fun a b => Load.le b.2 a.2) :
    specs.filter (0 < rank ·.2) ++ specs.filter (rank ·.2 ≤ 0) = specs := by
  induction specs with
  | nil => rfl
  | cons s specs ih =>
    have hh := ih (List.Pairwise.of_cons h)
    by_cases hs : 0 < rank s.2
    · have hn : ¬ rank s.2 ≤ 0 := by omega
      simp [hs, hn, hh]
    · have hall : ∀ t ∈ specs, rank t.2 ≤ 0 := fun t ht =>
        Int.le_trans (of_decide_eq_true (List.rel_of_pairwise_cons h ht)) (Int.not_lt.mp hs)
      have he : specs.filter (0 < rank ·.2) = [] :=
        List.filter_eq_nil_iff.mpr fun t ht => by simpa using hall t ht
      rw [he, List.nil_append] at hh
      simp [hs, Int.not_lt.mp hs, he, hh]

theorem idle_replicate {W : Type} [Load W] (n : Nat) :
    idle (List.replicate n (.empty : Bucket W)) = n := by
  simp [idle, Bucket.empty, List.countP_replicate]

/-- Beside the workers of the specs above zero there is one for all others. -/
theorem idle_foldl_assignLightest {heavy light : List (String × Float)}
    (hh : ∀ s ∈ heavy, 0 < rank s.2) (hl : ∀ s ∈ light, rank s.2 ≤ 0) {n : Nat}
    (hn : n ≤ heavy.length + light.length) :
    idle ((heavy ++ light).foldl assignLightest (List.replicate n .empty)) =
      n - (heavy.length + 1) := by
  obtain ⟨he, hf⟩ := (Filling.replicate n).assign_all hh
  rw [idle_replicate] at he
  rw [List.foldl_append]
  generalize heavy.foldl assignLightest (List.replicate n .empty) = bs at he hf
  cases light with
  | nil =>
    rw [List.length_nil] at hn
    rw [List.foldl_nil]
    omega
  | cons s light =>
    by_cases hi : idle bs = 0
    · have hle := idle_foldl_le (s :: light) bs
      omega
    · obtain ⟨hs, he'⟩ := (hf hi).settled hi (hl s List.mem_cons_self)
      rw [List.foldl_cons, hs.idle_foldl fun t ht => hl t (List.mem_cons_of_mem s ht), he']
      omega

theorem idle_spread (specs : List (String × Float)) (workers : Nat) :
    idle (spread specs workers) =
      bucketCount workers specs.length - (specs.countP (0 < rank ·.2) + 1) := by
  have hperm := byWeight_perm specs
  have hsplit : (byWeight specs).filter (0 < rank ·.2) ++ (byWeight specs).filter (rank ·.2 ≤ 0) =
      byWeight specs := filter_append_filter (pairwise_byWeight specs)
  have hlength := congrArg List.length hsplit
  rw [List.length_append, hperm.length_eq] at hlength
  have hle : bucketCount workers specs.length ≤ specs.length := Nat.min_le_right _ _
  have hh := idle_foldl_assignLightest (fun s hs => of_decide_eq_true (List.mem_filter.mp hs).2)
    (fun s hs => of_decide_eq_true (List.mem_filter.mp hs).2)
    (Nat.le_trans hle (Nat.le_of_eq hlength.symm))
  rw [hsplit, ← List.countP_eq_length_filter, hperm.countP_eq] at hh
  rw [← hh, spread, heaviestFirst]
  exact idle_perm (List.mergeSort_perm _ _)

/-- Two specs without weight go to the same worker. -/
theorem spread_weightless (r : KeyRule) (a b : String) :
    spread (weigh (⟨[]⟩ : Weights Float) 0.0 r [a, b]) 2 = [⟨0.0, [a, b]⟩, ⟨0.0, []⟩] := by
  have hle : Binary64.le 0.0 0.0 = true := by decide
  have hadd : (0.0 : Float) + 0.0 = 0.0 := by decide
  simp [spread, byWeight, weigh, bucketCount, heaviestFirst, lightestFirst, assignLightest,
    assignFirst, mergeSort_pair, Weights.weightOf, Weights.matching, KeyRule.choose?,
    List.replicate, Bucket.empty, Bucket.assign, Load.le, Load.zero, Load.add, hle, hadd]

/-- All but as many workers as there are specs of positive weight, and one for the others, have nothing
to do. So no worker is idle when there are no more workers than that. -/
theorem idle_workers (t : Weights Float) (fallback : Float) (r : KeyRule) (specs : List String)
    (workers : Nat) (htable : ∀ e ∈ t.entries, ∀ w ∈ e.2.weight, isFinite w ∧ 0.0 ≤ w)
    (hfallback : isFinite fallback ∧ 0.0 ≤ fallback) :
    let buckets := spread (weigh t fallback r specs) workers
    let heavy := specs.countP fun s => 0.0 < t.weightOf fallback r s
    idle buckets = min (max workers 1) specs.length - (heavy + 1) ∧
    ((∀ b ∈ buckets, b.specs ≠ []) ↔ min (max workers 1) specs.length ≤ heavy + 1) := by
  intro buckets heavy
  have hcount : (weigh t fallback r specs).countP (0 < rank ·.2) = heavy := by
    rw [weigh, List.countP_map]
    refine List.countP_congr fun s _ => ?_
    have hweight := (Weights.forall_weightOf htable hfallback r s).2
    simpa using rank_pos_iff_lt hweight
  have hidle : idle buckets = min (max workers 1) specs.length - (heavy + 1) := by
    rw [idle_spread, hcount, weigh, List.length_map, bucketCount]
  refine ⟨hidle, ?_⟩
  have hz : (∀ b ∈ buckets, b.specs ≠ []) ↔ idle buckets = 0 := by
    simp [idle, List.countP_eq_zero]
  rw [hz, hidle]
  omega

theorem idle_workers_of_one_heavy :
    let specs := weigh ⟨[("c", ⟨none, some 2.0⟩)]⟩ 0.0 .longest ["a", "b", "c"]
    (∀ b ∈ spread specs 2, b.specs ≠ []) ∧ idle (spread specs 3) = 1 := by
  intro specs
  have htable : ∀ e ∈ [("c", (⟨none, some 2.0⟩ : Weighing Float))], ∀ w ∈ e.2.weight,
      isFinite w ∧ 0.0 ≤ w := by
    simp only [List.mem_singleton, forall_eq, Option.mem_some_iff, forall_eq']
    decide
  have hh := fun workers => idle_workers ⟨[("c", ⟨none, some 2.0⟩)]⟩ 0.0 .longest ["a", "b", "c"]
    workers htable (by decide)
  exact ⟨(hh 2).2.mpr (by decide), (hh 3).1.trans (by decide)⟩

theorem idle_worker_of_weightless :
    ¬ ∀ (t : Weights Float) (fallback : Float) (r : KeyRule) (specs : List String) (workers : Nat),
      specs ≠ [] → (∀ e ∈ t.entries, ∀ w ∈ e.2.weight, isFinite w ∧ 0.0 ≤ w) →
        isFinite fallback ∧ 0.0 ≤ fallback →
          ∀ b ∈ spread (weigh t fallback r specs) workers, b.specs ≠ [] := by
  intro h
  refine h ⟨[]⟩ 0.0 .longest ["a", "b"] 2 (List.cons_ne_nil _ _) (by simp) (by decide) ⟨0.0, []⟩
    ?_ rfl
  rw [spread_weightless]
  simp

end SuitePlan
