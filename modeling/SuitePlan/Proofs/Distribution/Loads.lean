import SuitePlan.Proofs.Distribution.LeastLoaded

/-! The loads that come of raising one of the least, weight after weight, as a multiset. It makes no
difference which of several least loads is raised, or in which order equal weights come. -/

namespace SuitePlan

open Binary64

/-- From loads that are all zero, each weight replaces a smallest load by itself plus the weight. -/
inductive Raised (n : Nat) : List Float → Multiset Float → Prop
  | start : Raised n [] (Multiset.replicate n 0.0)
  | raise {weights : List Float} {least : Float} {others : Multiset Float}
      (h : Raised n weights (least ::ₘ others)) (hle : ∀ x ∈ others, least ≤ x) (w : Float) :
      Raised n (weights ++ [w]) ((least + w) ::ₘ others)

theorem least_unique {a b : Float} {s t : Multiset Float} (h : a ::ₘ s = b ::ₘ t)
    (ha : ∀ x ∈ s, a ≤ x) (hb : ∀ x ∈ t, b ≤ x) (hu : ∀ x ∈ a ::ₘ s, Unsigned x) :
    a = b := by
  have hmem : a ∈ b ::ₘ t := h ▸ Multiset.mem_cons_self a s
  have hmem' : b ∈ a ::ₘ s := h ▸ Multiset.mem_cons_self b t
  rcases Multiset.mem_cons.mp hmem with rfl | hat
  · rfl
  · rcases Multiset.mem_cons.mp hmem' with rfl | hbs
    · rfl
    · have ha' : Unsigned a := hu a (Multiset.mem_cons_self a s)
      exact ha'.le_antisymm (hu b hmem') (ha b hbs) (hb a hat)

namespace Raised

variable {n : Nat} {weights : List Float} {loads : Multiset Float}

theorem unsigned (h : Raised n weights loads) (hw : ∀ w ∈ weights, 0.0 ≤ w) :
    ∀ x ∈ loads, Unsigned x := by
  induction h with
  | start =>
    intro x hx
    rw [Multiset.eq_of_mem_replicate hx]
    exact Unsigned.zero
  | @raise weights least others h hle w ih =>
    have hbefore := ih fun v hv => hw v (List.mem_append_left _ hv)
    intro x hx
    rcases Multiset.mem_cons.mp hx with rfl | hx
    · exact ((hbefore least (Multiset.mem_cons_self _ _)).add (hw w (by simp))).1
    · exact hbefore x (Multiset.mem_cons_of_mem hx)

/-- The sign of a zero among the weights makes no difference. -/
theorem congr {weights' : List Float} (h : Raised n weights loads) (hw : ∀ w ∈ weights, 0.0 ≤ w)
    (hw' : ∀ w ∈ weights', 0.0 ≤ w) (he : weights'.map magnitude = weights.map magnitude) :
    Raised n weights' loads := by
  induction h generalizing weights' with
  | start =>
    rw [List.map_eq_nil_iff.mp he]
    exact start
  | @raise weights least others h hle w ih =>
    rw [List.map_append] at he
    obtain ⟨weights', last, rfl, hinit, hlast⟩ := List.map_eq_append_iff.mp he
    obtain ⟨w', rfl, hmagnitude⟩ := List.map_eq_singleton_iff.mp hlast
    have hw₀ : ∀ v ∈ weights, 0.0 ≤ v := fun v hv => hw v (List.mem_append_left _ hv)
    have hleast : Unsigned least := h.unsigned hw₀ least (Multiset.mem_cons_self _ _)
    rw [hleast.add_congr (hw w (by simp)) (hw' w' (by simp)) hmagnitude.symm]
    exact (ih hw₀ (fun v hv => hw' v (List.mem_append_left _ hv)) hinit).raise hle w'

theorem unique {loads' : Multiset Float} (h : Raised n weights loads) (h' : Raised n weights loads')
    (hw : ∀ w ∈ weights, 0.0 ≤ w) : loads = loads' := by
  induction h generalizing loads' with
  | start =>
    generalize he : ([] : List Float) = weights' at h'
    cases h' with
    | start => rfl
    | raise => simp at he
  | @raise weights least others h hle w ih =>
    generalize he : weights ++ [w] = weights' at h'
    cases h' with
    | start => simp at he
    | @raise weights' least' others' h' hle' w' =>
      obtain ⟨rfl, hlast⟩ := List.append_inj' he rfl
      obtain ⟨rfl, -⟩ := List.cons.inj hlast
      have hw₀ : ∀ v ∈ weights, 0.0 ≤ v := fun v hv => hw v (List.mem_append_left _ hv)
      have hloads := ih h' hw₀
      have hleast := least_unique hloads hle hle' (h.unsigned hw₀)
      subst hleast
      rw [(Multiset.cons_inj_right least).mp hloads]

end Raised

theorem LeastLoaded.raised {n : Nat} {assigned : List (String × Float)}
    {parts : List (List (String × Float))} (h : LeastLoaded n assigned parts)
    (hs : ∀ s ∈ assigned, 0.0 ≤ s.2) :
    Raised n (assigned.map (·.2)) ((parts.map load : List Float) : Multiset Float) := by
  induction h with
  | start =>
    rw [List.map_replicate]
    exact Raised.start
  | reorder _ hp ih =>
    rw [← Multiset.coe_eq_coe.mpr (hp.map load)]
    exact ih hs
  | @assign assigned p rest h hle s ih =>
    have hs' : ∀ t ∈ assigned, 0.0 ≤ t.2 := fun t ht => hs t (List.mem_append_left _ ht)
    have hbefore : Raised n (assigned.map (·.2)) (load p ::ₘ (rest.map load : List Float)) := ih hs'
    rw [List.map_append, List.map_cons (l := rest), load_append_singleton]
    refine hbefore.raise (fun x hx => ?_) s.2
    obtain ⟨q, hq, rfl⟩ := List.mem_map.mp hx
    exact le_of_rank_le (h.unsigned hs' List.mem_cons_self).nonneg
      (h.unsigned hs' (List.mem_cons_of_mem _ hq)).nonneg (of_decide_eq_true (hle q hq))

/-- Equal weights may come in any order. -/
theorem magnitudes_eq_of_perm {l m : List Float} (hp : l.Perm m) (hl : ∀ x ∈ l, 0.0 ≤ x)
    (hd : l.Pairwise fun x y => y ≤ x) (hd' : m.Pairwise fun x y => y ≤ x) :
    l.map magnitude = m.map magnitude := by
  have hdescending : ∀ k : List Float, (∀ x ∈ k, 0.0 ≤ x) → (k.Pairwise fun x y => y ≤ x) →
      (k.map magnitude).Pairwise (· ≥ ·) := by
    intro k hk hd
    rw [List.pairwise_map]
    exact hd.imp_of_mem fun hx hy h => (le_iff_magnitude (hk _ hy) (hk _ hx)).mp h
  exact (hp.map magnitude).eq_of_pairwise' (hdescending l hl hd)
    (hdescending m (fun x hx => hl x (hp.mem_iff.mpr hx)) hd')

theorem eq_of_perm_descending {l m : List Float} (hp : l.Perm m) (hl : ∀ x ∈ l, Unsigned x)
    (hd : l.Pairwise fun x y => y ≤ x) (hd' : m.Pairwise fun x y => y ≤ x) : l = m :=
  hp.eq_of_pairwise (fun _ _ hx hy h h' =>
    (hl _ hx).le_antisymm (hl _ (hp.mem_iff.mpr hy)) h' h) hd hd'

theorem byWeight_eq_of_perm {specs specs' : List (String × Float)} (hp : specs'.Perm specs)
    (hd : (specs.map (·.2)).Nodup) : byWeight specs' = byWeight specs := by
  have hperm := ((byWeight_perm specs').trans hp).trans (byWeight_perm specs).symm
  refine hperm.eq_of_pairwise (fun a b ha hb h h' => ?_) (byWeight_descending specs')
    (byWeight_descending specs)
  have hweight : a.2 = b.2 := Binary64.le_antisymm (decide_eq_true h') (decide_eq_true h)
  refine List.inj_on_of_nodup_map hd ?_ ?_ hweight
  · exact hp.mem_iff.mp ((byWeight_perm specs').mem_iff.mp ha)
  · exact (byWeight_perm specs).mem_iff.mp hb

section Spread

variable {specs : List (String × Float)} (workers : Nat) (hs : ∀ s ∈ specs, 0.0 ≤ s.2)

include hs

theorem weights_descending : ((byWeight specs).map (·.2)).Pairwise fun v w => w ≤ v := by
  have hpos := forall_mem_byWeight hs
  rw [List.pairwise_map]
  exact (byWeight_descending specs).imp_of_mem fun ha hb hle => le_of_rank_le (hpos _ hb) (hpos _ ha) hle

theorem spread_raised : (∀ x ∈ (spread specs workers).map (·.weight), Unsigned x) ∧
    Raised (bucketCount workers specs.length) ((byWeight specs).map (·.2))
      ((spread specs workers).map (·.weight) : List Float) := by
  have hpos := forall_mem_byWeight hs
  obtain ⟨parts, hrun, hparts⟩ := spread_leastLoaded specs workers
  have hloads : (spread specs workers).map (·.weight) = parts.map load := by
    rw [hparts, List.map_map]
    rfl
  rw [hloads]
  exact ⟨List.forall_mem_map.mpr fun p hp => hrun.unsigned hpos hp, hrun.raised hpos⟩

theorem loads_descending :
    ((spread specs workers).map (·.weight)).Pairwise fun x y => y ≤ x := by
  have hunsigned := (spread_raised workers hs).1
  rw [List.pairwise_map]
  refine (pairwise_heaviestFirst _).imp_of_mem fun hb hc hle => ?_
  exact le_of_rank_le (hunsigned _ (List.mem_map_of_mem hc)).nonneg
    (hunsigned _ (List.mem_map_of_mem hb)).nonneg (of_decide_eq_true hle)

theorem raised_iff (weights : List Float) (hp : weights.Perm (specs.map (·.2)))
    (hd : weights.Pairwise fun v w => w ≤ v) (listed : List Float) :
    Raised (bucketCount workers specs.length) weights listed ↔
      listed.Perm ((spread specs workers).map (·.weight)) := by
  have hperm := (byWeight_perm specs).map (·.2)
  have hnonneg : ∀ w ∈ specs.map (·.2), 0.0 ≤ w := List.forall_mem_map.mpr hs
  have hw : ∀ w ∈ weights, 0.0 ≤ w := fun w h => hnonneg w (hp.mem_iff.mp h)
  have hsame := magnitudes_eq_of_perm (hp.trans hperm.symm) hw hd (weights_descending hs)
  have hraised := (spread_raised workers hs).2.congr (fun w h => hnonneg w (hperm.mem_iff.mp h)) hw hsame
  refine ⟨fun h => Multiset.coe_eq_coe.mp (h.unique hraised hw), fun h => ?_⟩
  rwa [Multiset.coe_eq_coe.mpr h]

theorem listed_iff (listed : List Float) :
    (listed.Perm ((spread specs workers).map (·.weight)) ∧ listed.Pairwise fun x y => y ≤ x) ↔
      listed = (spread specs workers).map (·.weight) := by
  constructor
  · rintro ⟨hp, hd⟩
    have hdescending := loads_descending workers hs
    exact (eq_of_perm_descending hp.symm (spread_raised workers hs).1 hdescending hd).symm
  · rintro rfl
    exact ⟨List.Perm.refl _, loads_descending workers hs⟩

end Spread

/-- The loads are those of any way to assign the specs by descending weight to workers with the
least load. -/
theorem spread_loads (t : Weights Float) (fallback : Float) (r : KeyRule) (specs : List String)
    (workers : Nat) (h : ∀ s ∈ specs, 0.0 ≤ t.weightOf fallback r s) :
    let weight := t.weightOf fallback r
    let count := min (max workers 1) specs.length
    let loads := (spread (weigh t fallback r specs) workers).map (·.weight)
    (∀ weights : List Float, weights.Perm (specs.map weight) →
      (weights.Pairwise fun v w => w ≤ v) →
        ∀ listed : List Float, Raised count weights listed ↔ listed.Perm loads) ∧
    (∀ listed : List Float,
      (listed.Perm loads ∧ listed.Pairwise fun x y => y ≤ x) ↔ listed = loads) ∧
    (∀ order : List String, order.Perm specs → ((order.map weight).Pairwise fun v w => w ≤ v) →
      ∀ parts, LeastLoaded count (weigh t fallback r order) parts → (parts.map load).Perm loads) ∧
    ∀ specs' : List String, specs'.Perm specs →
      (spread (weigh t fallback r specs') workers).map (·.weight) = loads ∧
      ((specs.map weight).Nodup →
        spread (weigh t fallback r specs') workers = spread (weigh t fallback r specs) workers) := by
  intro weight count loads
  have hweigh : ∀ {order : List String}, order.Perm specs →
      (∀ s ∈ weigh t fallback r order, 0.0 ≤ s.2) ∧
        (weigh t fallback r order).map (·.2) = order.map weight ∧
          bucketCount workers (weigh t fallback r order).length = count := by
    intro order hp
    refine ⟨List.forall_mem_map.mpr fun s hs => h s (hp.mem_iff.mp hs), List.map_map, ?_⟩
    rw [weigh, List.length_map, hp.length_eq, bucketCount]
  obtain ⟨hpos, hweights, hcount⟩ := hweigh (List.Perm.refl specs)
  have hiff := raised_iff workers hpos
  rw [hweights, hcount] at hiff
  refine ⟨hiff, listed_iff workers hpos, ?_, ?_⟩
  · intro order hp hd parts hrun
    obtain ⟨hpos', hweights', -⟩ := hweigh hp
    have hraised := hrun.raised hpos'
    rw [hweights'] at hraised
    exact (hiff _ (hp.map weight) hd _).mp hraised
  · intro specs' hp
    obtain ⟨hpos', hweights', hcount'⟩ := hweigh hp
    refine ⟨?_, fun hd => ?_⟩
    · have hraised := (spread_raised workers hpos').2
      have hperm := (byWeight_perm (weigh t fallback r specs')).map (·.2)
      rw [hweights'] at hperm
      rw [hcount'] at hraised
      refine (listed_iff workers hpos _).mp ⟨?_, loads_descending workers hpos'⟩
      exact (hiff _ (hperm.trans (hp.map weight)) (weights_descending hpos') _).mp hraised
    · have horder : byWeight (weigh t fallback r specs') = byWeight (weigh t fallback r specs) :=
        byWeight_eq_of_perm (hp.map _) (hweights ▸ hd)
      rw [spread, spread, hcount, hcount', horder]

theorem spread_loads_shuffled :
    Raised 2 [3.0, 3.0, 2.0, 2.0, 2.0] ([7.0, 5.0] : List Float) ∧
      (spread (weigh threeForA 2.0 .longest ["b", "1a", "c", "2a", "d"]) 2).map (·.weight) =
        [7.0, 5.0] := by
  obtain ⟨hraised, -, -, hperm⟩ :=
    spread_loads threeForA 2.0 .longest ["1a", "2a", "b", "c", "d"] 2 (by decide)
  rw [spread_threes_twos] at hraised hperm
  have hweights : ["1a", "2a", "b", "c", "d"].map (threeForA.weightOf 2.0 .longest) =
      [3.0, 3.0, 2.0, 2.0, 2.0] := by decide
  rw [hweights] at hraised
  refine ⟨?_, ?_⟩
  · exact (hraised _ (List.Perm.refl _) (by decide) _).mpr (List.Perm.refl _)
  · exact (hperm ["b", "1a", "c", "2a", "d"] (by decide)).1

end SuitePlan
