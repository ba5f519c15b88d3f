import SuitePlan.Proofs.Distribution.Loads

/-! The heaviest load that comes of assigning specs by descending weight, against the heaviest group of
any other division of the specs into as many groups. Either the spec that was assigned last is at most a
third of that group, and the average of the loads is enough, or no group holds three such specs, and
counting shows that the last one still found room. -/

namespace SuitePlan

open Binary64

section Sizes

variable {P w : Nat}

/-- The places a size takes of the two that a group up to `P` has for sizes from `w` on. A size takes
both if no other one fits beside it. -/
def places (P w size : Nat) : Nat := if size < w then 0 else if size + w ≤ P then 1 else 2

theorem places_pos {x : Nat} (h : w ≤ x) : 1 ≤ places P w x := by
  unfold places
  split_ifs <;> omega

theorem places_one {x : Nat} (h : w ≤ x) (hx : x + w ≤ P) : places P w x = 1 := by
  rw [places, if_neg (Nat.not_lt.mpr h), if_pos hx]

theorem sum_places_filter (g : List Nat) :
    ((g.filter (w ≤ ·)).map (places P w)).sum = (g.map (places P w)).sum := by
  induction g with
  | nil => rfl
  | cons x g ih =>
    by_cases hx : w ≤ x
    · simp [hx, ih]
    · have hzero : places P w x = 0 := if_pos (Nat.lt_of_not_le hx)
      simp [hx, ih, hzero]

theorem sum_places_le {g : List Nat} (hP : P < 3 * w) (hg : g.sum ≤ P) :
    (g.map (places P w)).sum ≤ 2 := by
  have hlarge : ∀ x ∈ g.filter (w ≤ ·), w ≤ x := fun x hx =>
    of_decide_eq_true (List.mem_filter.mp hx).2
  have hsum : (g.filter (w ≤ ·)).sum ≤ P := le_trans (List.filter_sublist.sum_le_sum (by simp)) hg
  rw [← sum_places_filter]
  generalize g.filter (w ≤ ·) = l at hlarge hsum
  match l with
  | [] => simp
  | [x] =>
    rw [List.map_singleton, List.sum_singleton]
    unfold places
    split_ifs <;> omega
  | [x, y] =>
    -- Neither takes both places, since the other one fits beside it.
    have hx : w ≤ x := hlarge x (by simp)
    have hy : w ≤ y := hlarge y (by simp)
    simp only [List.map_cons, List.map_nil, List.sum_cons, List.sum_nil] at hsum ⊢
    have hx' : places P w x = 1 := places_one hx (by omega)
    have hy' : places P w y = 1 := places_one hy (by omega)
    omega
  | x :: y :: z :: l =>
    have hx : w ≤ x := hlarge x (by simp)
    have hy : w ≤ y := hlarge y (by simp)
    have hz : w ≤ z := hlarge z (by simp)
    simp only [List.sum_cons] at hsum
    omega

theorem le_sum_places {q : List Nat} (hq : ∀ x ∈ q, w ≤ x) (hP : P < q.sum + w) (hw : w ≤ P) :
    2 ≤ (q.map (places P w)).sum := by
  match q with
  | [] =>
    rw [List.sum_nil] at hP
    omega
  | [x] =>
    have hx : w ≤ x := hq x List.mem_cons_self
    rw [List.sum_singleton] at hP
    rw [List.map_singleton, List.sum_singleton, places, if_neg (by omega), if_neg (by omega)]
  | x :: y :: q =>
    have hx : 1 ≤ places P w x := places_pos (hq x (by simp))
    have hy : 1 ≤ places P w y := places_pos (hq y (by simp))
    simp only [List.map_cons, List.sum_cons]
    omega

theorem sum_le_of_subperm {l m : List Nat} (h : l.Subperm m) (f : Nat → Nat) :
    (l.map f).sum ≤ (m.map f).sum := by
  obtain ⟨k, hperm, hsub⟩ := h
  rw [← (hperm.map f).sum_eq]
  exact (hsub.map f).sum_le_sum (by simp)

theorem sum_flatten_map (f : Nat → Nat) (ls : List (List Nat)) :
    (ls.flatten.map f).sum = (ls.map fun l => (l.map f).sum).sum := by
  rw [List.map_flatten, List.sum_flatten, List.map_map]
  rfl

theorem sum_map_flatten_le {f : Nat → Nat} {ls : List (List Nat)} {k : Nat}
    (h : ∀ l ∈ ls, (l.map f).sum ≤ k) : (ls.flatten.map f).sum ≤ ls.length * k := by
  rw [sum_flatten_map]
  exact (List.sum_le_card_nsmul _ k (List.forall_mem_map.mpr h)).trans_eq (by simp)

theorem le_sum_map_flatten {f : Nat → Nat} {ls : List (List Nat)} {k : Nat}
    (h : ∀ l ∈ ls, k ≤ (l.map f).sum) : ls.length * k ≤ (ls.flatten.map f).sum := by
  rw [sum_flatten_map]
  exact (List.card_nsmul_le_sum _ k (List.forall_mem_map.mpr h)).trans_eq' (by simp)

variable {p : List Nat} {rest groups : List (List Nat)}

/-- The last size fits beside those of the least load. -/
theorem least_add_le (hP : P < 3 * w) (hle : ∀ q ∈ p :: rest, p.sum ≤ q.sum)
    (hw : ∀ x ∈ (p :: rest).flatten, w ≤ x) (hlength : groups.length = (p :: rest).length)
    (hsub : (w :: (p :: rest).flatten).Subperm groups.flatten) (hgroups : ∀ g ∈ groups, g.sum ≤ P) :
    p.sum + w ≤ P := by
  by_contra hlt
  have hwP : w ≤ P := by
    obtain ⟨g, hg, hwg⟩ := List.mem_flatten.mp (hsub.subset List.mem_cons_self)
    exact (List.le_sum_of_mem hwg).trans (hgroups g hg)
  have hfull : ∀ q ∈ p :: rest, 2 ≤ (q.map (places P w)).sum := by
    intro q hq
    have hpq := hle q hq
    exact le_sum_places (fun x hx => hw x (List.mem_flatten_of_mem hq hx)) (by omega) hwP
  have hroom := sum_map_flatten_le fun g hg => sum_places_le hP (hgroups g hg)
  have htaken := le_sum_map_flatten hfull
  have hone : 1 ≤ places P w w := places_pos le_rfl
  have hall := sum_le_of_subperm hsub (places P w)
  rw [List.map_cons, List.sum_cons] at hall
  rw [hlength] at hroom
  omega

theorem makespan_step (hle : ∀ q ∈ p :: rest, p.sum ≤ q.sum)
    (hw : ∀ x ∈ (p :: rest).flatten, w ≤ x) (hlength : groups.length = (p :: rest).length)
    (hsub : (w :: (p :: rest).flatten).Subperm groups.flatten) (hgroups : ∀ g ∈ groups, g.sum ≤ P) :
    3 * groups.length * (p.sum + w) + P ≤ 4 * groups.length * P := by
  obtain ⟨m, hm⟩ : ∃ m, groups.length = m + 1 := ⟨rest.length, hlength⟩
  have haverage : (m + 1) * p.sum + w ≤ (m + 1) * P := by
    have hall := sum_le_of_subperm hsub id
    have hleast : ∀ q ∈ p :: rest, p.sum ≤ (q.map id).sum := by simpa only [List.map_id] using hle
    have hmost : ∀ g ∈ groups, (g.map id).sum ≤ P := by simpa only [List.map_id] using hgroups
    have htaken := le_sum_map_flatten hleast
    have hroom := sum_map_flatten_le hmost
    rw [List.map_cons, List.sum_cons, id] at hall
    rw [← hlength, hm] at htaken
    rw [hm] at hroom
    omega
  rw [hm]
  by_cases hP : P < 3 * w
  · calc 3 * (m + 1) * (p.sum + w) + P ≤ 3 * (m + 1) * P + P :=
          Nat.add_le_add_right (Nat.mul_le_mul_left _ (least_add_le hP hle hw hlength hsub hgroups)) P
      _ ≤ 3 * (m + 1) * P + (m * P + P) := by omega
      _ = 4 * (m + 1) * P := by ring
  · have hthird : m * (3 * w) ≤ m * P := Nat.mul_le_mul_left m (Nat.not_lt.mp hP)
    calc 3 * (m + 1) * (p.sum + w) + P = 3 * ((m + 1) * p.sum + w) + (m * (3 * w) + P) := by ring
      _ ≤ 3 * ((m + 1) * P) + (m * P + P) := by omega
      _ = 4 * (m + 1) * P := by ring

end Sizes

/-- Specs by descending weight whose weights are natural numbers with an exact sum. -/
structure Sized (size : String × Float → Nat) (specs : List (String × Float)) : Prop where
  whole : ∀ s ∈ specs, Whole s.2 (size s)
  total : (specs.map size).sum ≤ 2 ^ 53
  descending : specs.Pairwise fun a b => size b ≤ size a

namespace Sized

variable {size : String × Float → Nat} {specs p : List (String × Float)}

theorem sublist (h : Sized size specs) (hp : p.Sublist specs) : Sized size p :=
  ⟨fun s hs => h.whole s (hp.subset hs), ((hp.map size).sum_le_sum (by simp)).trans h.total,
    h.descending.sublist hp⟩

theorem nonneg (h : Sized size specs) : ∀ s ∈ specs, 0.0 ≤ s.2 := fun s hs => (h.whole s hs).nonneg

theorem load (h : Sized size p) : Whole (load p) (p.map size).sum := by
  induction p using List.reverseRecOn with
  | nil => exact Whole.zero
  | append_singleton p s ih =>
    have hp := h.sublist (List.sublist_append_left p [s])
    have htotal := h.total
    rw [List.map_append, List.sum_append, List.map_singleton, List.sum_singleton] at htotal ⊢
    rw [load_append_singleton]
    exact (ih hp).add (h.whole s (by simp)) (unsigned_load hp.nonneg) htotal

end Sized

namespace LeastLoaded

variable {size : String × Float → Nat} {n P : Nat} {assigned : List (String × Float)}
  {groups : List (List Nat)}

theorem makespan_assign {p : List (String × Float)} {rest : List (List (String × Float))}
    {s : String × Float} (h : LeastLoaded n assigned (p :: rest))
    (hle : ∀ q ∈ rest, Binary64.le (load p) (load q)) (hsized : Sized size (assigned ++ [s]))
    (hlength : groups.length = n) (hsub : ((assigned ++ [s]).map size).Subperm groups.flatten)
    (hgroups : ∀ g ∈ groups, g.sum ≤ P) :
    3 * groups.length * ((p ++ [s]).map size).sum + P ≤ 4 * groups.length * P := by
  have hbefore := hsized.sublist (List.sublist_append_left assigned [s])
  have hsizes : (p.map size :: rest.map (·.map size)).flatten = (p :: rest).flatten.map size := by
    rw [List.map_flatten]
    rfl
  have hleast : ∀ l ∈ p.map size :: rest.map (·.map size), (p.map size).sum ≤ l.sum := by
    refine List.forall_mem_cons.mpr ⟨le_rfl, List.forall_mem_map.mpr fun q hq => ?_⟩
    have hp := (hbefore.sublist (h.sublist List.mem_cons_self)).load
    have hq' := (hbefore.sublist (h.sublist (List.mem_cons_of_mem p hq))).load
    exact hp.le_of_le hq' (le_of_rank_le hp.nonneg hq'.nonneg (of_decide_eq_true (hle q hq)))
  have hlarge : ∀ x ∈ (p.map size :: rest.map (·.map size)).flatten, size s ≤ x := by
    rw [hsizes]
    refine List.forall_mem_map.mpr fun t ht => ?_
    have hlast := (List.pairwise_append.mp hsized.descending).2.2
    exact hlast t (h.perm.mem_iff.mp ht) s List.mem_cons_self
  have hcount : groups.length = (p.map size :: rest.map (·.map size)).length := by
    rw [hlength, ← h.length_eq]
    simp
  have hall : (size s :: (p.map size :: rest.map (·.map size)).flatten).Subperm groups.flatten := by
    have hperm := (h.perm.cons s).trans (List.perm_append_singleton s assigned).symm
    rw [hsizes, ← List.map_cons]
    exact (hperm.map size).subperm.trans hsub
  rw [List.map_append, List.sum_append, List.map_singleton, List.sum_singleton]
  exact makespan_step hleast hlarge hcount hall hgroups

theorem makespan {parts : List (List (String × Float))} (h : LeastLoaded n assigned parts)
    (hsized : Sized size assigned) (hlength : groups.length = n)
    (hsub : (assigned.map size).Subperm groups.flatten) (hgroups : ∀ g ∈ groups, g.sum ≤ P)
    {q : List (String × Float)} (hq : q ∈ parts) :
    3 * groups.length * (q.map size).sum + P ≤ 4 * groups.length * P := by
  induction h generalizing q with
  | start =>
    obtain ⟨hn, rfl⟩ := List.mem_replicate.mp hq
    have hpos : 1 * P ≤ groups.length * P := Nat.mul_le_mul_right P (by omega)
    rw [List.map_nil, List.sum_nil, Nat.mul_assoc 4]
    omega
  | reorder _ hperm ih => exact ih hsized hsub (hperm.mem_iff.mpr hq)
  | @assign assigned p rest h hle s ih =>
    rcases List.mem_cons.mp hq with rfl | hq
    · exact h.makespan_assign hle hsized hlength hsub hgroups
    · have hbefore := List.sublist_append_left assigned [s]
      exact ih (hsized.sublist hbefore) ((hbefore.map size).subperm.trans hsub)
        (List.mem_cons_of_mem p hq)

end LeastLoaded

section Weighed

variable {t : Weights Float} {fallback : Float} {r : KeyRule} {specs : List String}
  {size : String → Nat}

theorem sizes_perm : ((byWeight (weigh t fallback r specs)).map (size ·.1)).Perm (specs.map size) := by
  have hperm := (byWeight_perm (weigh t fallback r specs)).map (size ·.1)
  rw [weigh, List.map_map] at hperm
  exact hperm

variable (hsize : ∀ s ∈ specs, isFinite (t.weightOf fallback r s) = true ∧
  number (t.weightOf fallback r s) = size s) (htotal : (specs.map size).sum ≤ 2 ^ 53)

include hsize htotal

theorem weigh_sized : Sized (size ·.1) (byWeight (weigh t fallback r specs)) := by
  have hwhole : ∀ s ∈ byWeight (weigh t fallback r specs), Whole s.2 (size s.1) := by
    intro s hs
    obtain ⟨x, hx, rfl⟩ := List.mem_map.mp ((byWeight_perm _).mem_iff.mp hs)
    exact Whole.of_number (hsize x hx).1 (hsize x hx).2
  refine ⟨hwhole, ?_, ?_⟩
  · rw [sizes_perm.sum_eq]
    exact htotal
  · refine (byWeight_descending _).imp_of_mem fun ha hb hle => ?_
    have hb' := hwhole _ hb
    exact hb'.le_of_le (hwhole _ ha) (le_of_rank_le hb'.nonneg (hwhole _ ha).nonneg hle)

theorem weight_exact {workers : Nat} {b : Bucket Float}
    (hb : b ∈ spread (weigh t fallback r specs) workers) :
    number b.weight = (b.specs.map size).sum := by
  obtain ⟨parts, hrun, hparts⟩ := spread_leastLoaded (weigh t fallback r specs) workers
  rw [hparts] at hb
  obtain ⟨p, hp, rfl⟩ := List.mem_map.mp hb
  rw [Bucket.holding_specs, List.map_map]
  exact (((weigh_sized hsize htotal).sublist (hrun.sublist hp)).load).number_eq

theorem bucket_makespan {workers P : Nat} {b : Bucket Float}
    (hb : b ∈ spread (weigh t fallback r specs) workers) {groups : List (List String)}
    (hlength : groups.length = (spread (weigh t fallback r specs) workers).length)
    (hperm : groups.flatten.Perm specs) (hgroups : ∀ g ∈ groups, (g.map size).sum ≤ P) :
    3 * groups.length * (b.specs.map size).sum + P ≤ 4 * groups.length * P := by
  obtain ⟨parts, hrun, hparts⟩ := spread_leastLoaded (weigh t fallback r specs) workers
  rw [hparts] at hb
  obtain ⟨p, hp, rfl⟩ := List.mem_map.mp hb
  have hall : ((byWeight (weigh t fallback r specs)).map (size ·.1)).Perm
      (groups.map (·.map size)).flatten := by
    rw [← List.map_flatten]
    exact sizes_perm.trans (hperm.map size).symm
  have hcount : (groups.map (·.map size)).length =
      bucketCount workers (weigh t fallback r specs).length := by
    rw [List.length_map, hlength, length_spread]
  have hbound := hrun.makespan (weigh_sized hsize htotal) hcount hall.subperm
    (List.forall_mem_map.mpr hgroups) hp
  rw [List.length_map] at hbound
  rw [Bucket.holding_specs, List.map_map]
  exact hbound

end Weighed

theorem exists_heaviest {groups : List (List String)} (h : groups ≠ []) (size : String → Nat) :
    ∃ g ∈ groups, ∀ g' ∈ groups, (g'.map size).sum ≤ (g.map size).sum := by
  have hne : groups.toFinset.Nonempty := List.toFinset_nonempty_iff groups |>.mpr h
  obtain ⟨g, hg, hmax⟩ := groups.toFinset.exists_max_image (fun g => (g.map size).sum) hne
  exact ⟨g, List.mem_toFinset.mp hg, fun g' hg' => hmax g' (List.mem_toFinset.mpr hg')⟩

/-- The heaviest of `m` buckets has at most `4 / 3 - 1 / (3 * m)` times the weight of the heaviest
group in any division of the specs into `m` groups. -/
theorem spread_makespan (t : Weights Float) (fallback : Float) (r : KeyRule) (specs : List String)
    (workers : Nat) (hne : specs ≠ []) (size : String → Nat)
    (hsize : ∀ s ∈ specs, isFinite (t.weightOf fallback r s) = true ∧
      number (t.weightOf fallback r s) = size s)
    (htotal : (specs.map size).sum ≤ 2 ^ 53) :
    let buckets := spread (weigh t fallback r specs) workers
    (buckets.flatMap Bucket.specs).Perm specs ∧
    (∀ b ∈ buckets, number b.weight = (b.specs.map size).sum) ∧
    ∃ heaviest others, buckets = heaviest :: others ∧ (∀ b ∈ others, b.weight ≤ heaviest.weight) ∧
      ∀ groups : List (List String), groups.length = buckets.length → groups.flatten.Perm specs →
        ∃ g ∈ groups, 3 * buckets.length * number heaviest.weight ≤
          (4 * buckets.length - 1) * ((g.map size).sum : ℚ) := by
  intro buckets
  have hpos : 0 < buckets.length := by
    rw [show buckets.length = _ from length_spread _ workers, weigh, List.length_map]
    exact bucketCount_pos (List.length_pos_iff.mpr hne)
  have hspecs : ∀ s ∈ weigh t fallback r specs, 0.0 ≤ s.2 :=
    List.forall_mem_map.mpr fun s hs => (Whole.of_number (hsize s hs).1 (hsize s hs).2).nonneg
  have hdescending : (buckets.map (·.weight)).Pairwise fun x y => y ≤ x :=
    loads_descending workers hspecs
  obtain ⟨heaviest, others, hcons⟩ := List.exists_cons_of_length_pos hpos
  have hmem : heaviest ∈ buckets := hcons ▸ List.mem_cons_self
  rw [hcons, List.map_cons, List.pairwise_cons] at hdescending
  refine ⟨spread_weigh_perm t fallback r specs workers, fun b => weight_exact hsize htotal, heaviest,
    others, hcons, ?_, ?_⟩
  · exact List.forall_mem_map.mp hdescending.1
  · intro groups hlength hperm
    obtain ⟨g, hg, hmax⟩ :=
      exists_heaviest (List.ne_nil_of_length_pos (hlength ▸ hpos)) size
    have hbound := bucket_makespan hsize htotal hmem hlength hperm hmax
    refine ⟨g, hg, ?_⟩
    rw [weight_exact hsize htotal hmem, ← hlength]
    have hcast : (3 * groups.length * (heaviest.specs.map size).sum + (g.map size).sum : ℚ) ≤
        4 * groups.length * (g.map size).sum := by exact_mod_cast hbound
    linarith

theorem spread_makespan_tight :
    spread (weigh threeForA 2.0 .longest ["1a", "2a", "b", "c", "d"]) 2 =
      [⟨7.0, ["1a", "c", "d"]⟩, ⟨5.0, ["2a", "b"]⟩] ∧
    ∃ g ∈ [["1a", "2a"], ["b", "c", "d"]], 3 * (2 : Nat) * number 7.0 ≤
      (4 * (2 : Nat) - 1) * ((g.map fun s => if s.length = 2 then 3 else 2).sum : Nat) := by
  have h3 : isFinite 3.0 = true ∧ number 3.0 = (3 : Nat) :=
    ⟨by decide, number_of_split (k := 51) (by decide) (by decide)⟩
  have h2 : isFinite 2.0 = true ∧ number 2.0 = (2 : Nat) :=
    ⟨by decide, number_of_split (k := 51) (by decide) (by decide)⟩
  have hsize : ∀ s ∈ ["1a", "2a", "b", "c", "d"],
      isFinite (threeForA.weightOf 2.0 .longest s) = true ∧
        number (threeForA.weightOf 2.0 .longest s) = (if s.length = 2 then 3 else 2 : Nat) := by
    have hweight : ∀ s ∈ ["1a", "2a", "b", "c", "d"],
        threeForA.weightOf 2.0 .longest s = if s.length = 2 then 3.0 else 2.0 := by decide
    intro s hs
    rw [hweight s hs]
    split
    · exact h3
    · exact h2
  obtain ⟨-, -, heaviest, others, hcons, -, h⟩ := spread_makespan threeForA 2.0 .longest
    ["1a", "2a", "b", "c", "d"] 2 (by decide) (fun s => if s.length = 2 then 3 else 2) hsize
    (by decide)
  rw [spread_threes_twos] at hcons h
  obtain ⟨rfl, -⟩ := List.cons.inj hcons
  exact ⟨spread_threes_twos, h [["1a", "2a"], ["b", "c", "d"]] rfl (by decide)⟩

end SuitePlan
