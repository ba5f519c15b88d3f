import SuitePlan.Proofs.Decimal.Nonnegative
import SuitePlan.Proofs.Distribution.Idle

/-! Assigning every spec to a worker with the least load. Before its last spec came no worker had more to do
than any other has in the end. -/

namespace SuitePlan

open Binary64

/-- What a worker has to do who was assigned some weighted specs. -/
def load (p : List (String × Float)) : Float := (Bucket.holding p).weight

theorem load_append_singleton (p : List (String × Float)) (s : String × Float) :
    load (p ++ [s]) = load p + s.2 :=
  congrArg Bucket.weight (Bucket.holding_append_singleton p s)

theorem unsigned_load {p : List (String × Float)} (h : ∀ s ∈ p, 0.0 ≤ s.2) :
    Unsigned (load p) := by
  induction p using List.reverseRecOn with
  | nil => exact Unsigned.zero
  | append_singleton p s ih =>
    rw [load_append_singleton]
    exact ((ih fun t ht => h t (List.mem_append_left _ ht)).add (h s (by simp))).1

/-- What may come of assigning specs one after another: each goes to a worker with the least load, and
in between the workers may be brought into any order. -/
inductive LeastLoaded (n : Nat) : List (String × Float) → List (List (String × Float)) → Prop
  | start : LeastLoaded n [] (List.replicate n [])
  | reorder {assigned : List (String × Float)} {parts parts' : List (List (String × Float))}
      (h : LeastLoaded n assigned parts) (hp : parts.Perm parts') : LeastLoaded n assigned parts'
  | assign {assigned p : List (String × Float)} {rest : List (List (String × Float))}
      (h : LeastLoaded n assigned (p :: rest)) (hle : ∀ q ∈ rest, Binary64.le (load p) (load q))
      (s : String × Float) : LeastLoaded n (assigned ++ [s]) ((p ++ [s]) :: rest)

namespace LeastLoaded

variable {n : Nat} {assigned : List (String × Float)} {parts : List (List (String × Float))}

theorem length_eq (h : LeastLoaded n assigned parts) : parts.length = n := by
  induction h with
  | start => exact List.length_replicate
  | reorder _ hp ih => exact hp.length_eq.symm.trans ih
  | assign _ _ _ ih => exact ih

theorem perm (h : LeastLoaded n assigned parts) : parts.flatten.Perm assigned := by
  induction h with
  | start => simp
  | reorder _ hp ih => exact hp.symm.flatten.trans ih
  | @assign assigned p rest _ _ s ih => exact (flatten_assign_perm p rest s).trans (ih.append_right [s])

theorem sublist (h : LeastLoaded n assigned parts) {p : List (String × Float)} (hp : p ∈ parts) :
    p.Sublist assigned := by
  induction h generalizing p with
  | start =>
    rw [List.eq_of_mem_replicate hp]
  | reorder _ hperm ih => exact ih (hperm.mem_iff.mpr hp)
  | assign _ _ s ih =>
    rcases List.mem_cons.mp hp with rfl | hp
    · exact (ih List.mem_cons_self).append (List.Sublist.refl _)
    · exact (ih (List.mem_cons_of_mem _ hp)).trans (List.sublist_append_left _ _)

theorem unsigned (h : LeastLoaded n assigned parts) (hs : ∀ s ∈ assigned, 0.0 ≤ s.2)
    {p : List (String × Float)} (hp : p ∈ parts) : Unsigned (load p) :=
  unsigned_load fun s hm => hs s ((h.sublist hp).subset hm)

/-- Before its last spec came a worker had no more to do than any other has at the end. -/
theorem balanced (h : LeastLoaded n assigned parts) (hs : ∀ s ∈ assigned, 0.0 ≤ s.2)
    {p q : List (String × Float)} {s : String × Float} (hp : p ++ [s] ∈ parts) (hq : q ∈ parts) :
    magnitude (load p) ≤ magnitude (load q) := by
  induction h generalizing p q s with
  | start =>
    have he := List.eq_of_mem_replicate hp
    simp at he
  | reorder _ hperm ih => exact ih hs (hperm.mem_iff.mpr hp) (hperm.mem_iff.mpr hq)
  | @assign assigned p₀ rest h hle t ih =>
    have hs' : ∀ s ∈ assigned, 0.0 ≤ s.2 := fun s hm => hs s (List.mem_append_left _ hm)
    have hload := h.unsigned hs' List.mem_cons_self
    have hgrow : magnitude (load p₀) ≤ magnitude (load (p₀ ++ [t])) := by
      rw [load_append_singleton]
      exact hload.magnitude_le_add (hs t (by simp))
    have hleast : ∀ r ∈ rest, magnitude (load p₀) ≤ magnitude (load r) := by
      intro r hr
      have hrank := of_decide_eq_true (hle r hr)
      rw [hload.rank_eq, (h.unsigned hs' (List.mem_cons_of_mem _ hr)).rank_eq] at hrank
      exact Int.ofNat_le.mp hrank
    rcases List.mem_cons.mp hp with he | hp
    · obtain ⟨rfl, -⟩ := List.append_inj' he rfl
      rcases List.mem_cons.mp hq with rfl | hq
      · exact hgrow
      · exact hleast q hq
    · have hp' := List.mem_cons_of_mem p₀ hp
      rcases List.mem_cons.mp hq with rfl | hq
      · exact (ih hs' hp' List.mem_cons_self).trans hgrow
      · exact ih hs' hp' (List.mem_cons_of_mem p₀ hq)

theorem foldl (h : LeastLoaded n assigned parts) (hn : 0 < n) (specs : List (String × Float)) :
    ∃ parts', LeastLoaded n (assigned ++ specs) parts' ∧
      specs.foldl assignLightest (parts.map .holding) = parts'.map .holding := by
  induction specs generalizing assigned parts with
  | nil =>
    rw [List.append_nil]
    exact ⟨parts, h, rfl⟩
  | cons s specs ih =>
    have hsorted := pairwise_lightestFirst (parts.map .holding)
    have hlightest : lightestFirst (parts.map Bucket.holding) =
        (parts.mergeSort fun p q => Binary64.le (load p) (load q)).map .holding :=
      (List.map_mergeSort (f := Bucket.holding) fun _ _ _ _ => rfl).symm
    have hperm := List.mergeSort_perm parts fun p q => Binary64.le (load p) (load q)
    have hlength := hperm.length_eq.trans h.length_eq
    rw [hlightest, List.pairwise_map] at hsorted
    rw [List.foldl_cons, assignLightest, hlightest, List.append_cons]
    cases hl : parts.mergeSort fun p q => Binary64.le (load p) (load q) with
    | nil =>
      rw [hl] at hlength
      exact absurd hlength (by simpa using hn.ne)
    | cons p rest =>
      rw [hl] at hperm hsorted
      have hstep := (h.reorder hperm.symm).assign
        (fun q hq => List.rel_of_pairwise_cons hsorted hq) s
      have hassign : assignFirst s ((p :: rest).map Bucket.holding) =
          ((p ++ [s]) :: rest).map .holding := by
        rw [List.map_cons, List.map_cons, assignFirst, Bucket.holding_append_singleton]
      rw [hassign]
      exact ih hstep

end LeastLoaded

theorem spread_leastLoaded (specs : List (String × Float)) (workers : Nat) :
    ∃ parts, LeastLoaded (bucketCount workers specs.length) (byWeight specs) parts ∧
      spread specs workers = parts.map .holding := by
  have hrun : ∃ parts, LeastLoaded (bucketCount workers specs.length) (byWeight specs) parts ∧
      (byWeight specs).foldl assignLightest
        (List.replicate (bucketCount workers specs.length) .empty) = parts.map .holding := by
    have hstart : List.replicate (bucketCount workers specs.length) (.empty : Bucket Float) =
        (List.replicate (bucketCount workers specs.length) []).map .holding := by
      rw [List.map_replicate]
      rfl
    rw [hstart]
    by_cases hs : specs = []
    · subst hs
      rw [byWeight, List.mergeSort_nil]
      exact ⟨_, .start, rfl⟩
    · exact LeastLoaded.start.foldl (bucketCount_pos (List.length_pos_iff.mpr hs)) (byWeight specs)
  obtain ⟨parts, h, hparts⟩ := hrun
  refine ⟨parts.mergeSort fun p q => Binary64.le (load q) (load p),
    h.reorder (List.mergeSort_perm _ _).symm, ?_⟩
  rw [spread, hparts, heaviestFirst]
  exact (List.map_mergeSort (f := Bucket.holding) fun _ _ _ _ => rfl).symm

theorem byWeight_descending (specs : List (String × Float)) :
    (byWeight specs).Pairwise fun a b => rank b.2 ≤ rank a.2 :=
  (pairwise_byWeight specs).imp of_decide_eq_true

theorem forall_mem_byWeight {specs : List (String × Float)} (hs : ∀ s ∈ specs, 0.0 ≤ s.2) :
    ∀ s ∈ byWeight specs, 0.0 ≤ s.2 :=
  fun s h => hs s ((byWeight_perm specs).mem_iff.mp h)

theorem LeastLoaded.weigh_of_mem {n : Nat} {t : Weights Float} {fallback : Float} {r : KeyRule}
    {order : List String} {parts : List (List (String × Float))}
    (h : LeastLoaded n (weigh t fallback r order) parts) {p : List (String × Float)}
    (hp : p ∈ parts) :
    ∃ l : List String, l.Sublist order ∧ p = weigh t fallback r l :=
  List.sublist_map_iff.mp (h.sublist hp)

/-- Without its last spec, which is the lightest, a worker has no more to do than any other. -/
theorem spread_balanced (t : Weights Float) (fallback : Float) (r : KeyRule) (specs : List String)
    (workers : Nat) (h : ∀ s ∈ specs, 0.0 ≤ t.weightOf fallback r s) :
    let weight := t.weightOf fallback r
    let buckets := spread (weigh t fallback r specs) workers
    (buckets.flatMap Bucket.specs).Perm specs ∧
    ∀ b ∈ buckets, ∀ c ∈ buckets, ∀ init last, b.specs = init ++ [last] →
      (init.map weight).foldl (· + ·) 0.0 ≤ c.weight ∧
      (∀ s ∈ init, weight last ≤ weight s) ∧
      (number b.weight = number ((init.map weight).foldl (· + ·) 0.0) + number (weight last) →
        number b.weight ≤ number c.weight + number (weight last)) := by
  intro weight buckets
  refine ⟨spread_weigh_perm t fallback r specs workers, fun b hb c hc init last hlast => ?_⟩
  obtain ⟨parts, hrun, hparts⟩ := spread_leastLoaded (weigh t fallback r specs) workers
  have hspecs : ∀ s ∈ weigh t fallback r specs, 0.0 ≤ s.2 := List.forall_mem_map.mpr h
  have hpos := forall_mem_byWeight hspecs
  have hdescending := byWeight_descending (weigh t fallback r specs)
  rw [byWeight_weigh] at hrun hpos hdescending
  simp only [buckets, hparts, List.mem_map] at hb hc
  obtain ⟨p, hp, rfl⟩ := hb
  obtain ⟨q, hq, rfl⟩ := hc
  obtain ⟨l, hl, rfl⟩ := hrun.weigh_of_mem hp
  rw [holding_weigh_specs] at hlast
  subst hlast
  have hsplit : weigh t fallback r (init ++ [last]) =
      weigh t fallback r init ++ [(last, weight last)] := List.map_append
  have hload : load (weigh t fallback r init) = (init.map weight).foldl (· + ·) 0.0 :=
    holding_weigh_weight t fallback r init
  have hmem : ∀ s ∈ init ++ [last], 0.0 ≤ weight s := fun s hs =>
    h s ((List.mergeSort_perm specs _).mem_iff.mp (hl.subset hs))
  have hdescending' := hdescending.sublist (hrun.sublist hp)
  rw [hsplit] at hp hdescending'
  have hinit : Unsigned (load (weigh t fallback r init)) := by
    refine unsigned_load fun s hs => ?_
    obtain ⟨x, hx, rfl⟩ := List.mem_map.mp hs
    exact hmem x (List.mem_append_left _ hx)
  have hother := hrun.unsigned hpos hq
  have hbalanced := hrun.balanced hpos hp hq
  rw [← hload]
  refine ⟨?_, ?_, ?_⟩
  · exact (le_iff_magnitude hinit.nonneg hother.nonneg).mpr hbalanced
  · intro s hs
    have hlater := (List.pairwise_append.mp hdescending').2.2 (s, weight s) (List.mem_map_of_mem hs)
    have hrank := hlater (last, weight last) List.mem_cons_self
    exact le_of_rank_le (hmem last (by simp)) (hmem s (List.mem_append_left _ hs)) hrank
  · intro hexact
    rw [hexact, number_eq hinit.nonneg]
    show _ ≤ number (load q) + _
    rw [number_eq hother.nonneg]
    exact add_le_add_left (value_strictMono.monotone hbalanced) _

def threeForA : Weights Float := ⟨[("a", { weight := some 3.0 })]⟩

/-- Two specs of weight three and three of weight two. -/
theorem spread_threes_twos :
    spread (weigh threeForA 2.0 .longest ["1a", "2a", "b", "c", "d"]) 2 =
      [⟨7.0, ["1a", "c", "d"]⟩, ⟨5.0, ["2a", "b"]⟩] := by
  have hweigh : weigh threeForA 2.0 .longest ["1a", "2a", "b", "c", "d"] =
      [("1a", 3.0), ("2a", 3.0), ("b", 2.0), ("c", 2.0), ("d", 2.0)] := by decide
  have hsorted : byWeight [("1a", (3.0 : Float)), ("2a", 3.0), ("b", 2.0), ("c", 2.0), ("d", 2.0)] =
      [("1a", 3.0), ("2a", 3.0), ("b", 2.0), ("c", 2.0), ("d", 2.0)] :=
    List.mergeSort_of_pairwise (by decide)
  have h00 : Binary64.le 0.0 0.0 = true := by decide
  have h30 : Binary64.le 3.0 0.0 = false := by decide
  have h33 : Binary64.le 3.0 3.0 = true := by decide
  have h53 : Binary64.le 5.0 3.0 = false := by decide
  have h55 : Binary64.le 5.0 5.0 = true := by decide
  have h57 : Binary64.le 5.0 7.0 = true := by decide
  have ha : (0.0 : Float) + 3.0 = 3.0 := by decide
  have hb : (3.0 : Float) + 2.0 = 5.0 := by decide
  have hc : (5.0 : Float) + 2.0 = 7.0 := by decide
  rw [hweigh, spread, hsorted]
  simp [bucketCount, heaviestFirst, lightestFirst, assignLightest, assignFirst, mergeSort_pair,
    List.replicate, Bucket.empty, Bucket.assign, Load.le, Load.zero, Load.add, *]

theorem spread_balanced_tight :
    spread (weigh threeForA 2.0 .longest ["1a", "2a", "b", "c", "d"]) 2 =
      [⟨7.0, ["1a", "c", "d"]⟩, ⟨5.0, ["2a", "b"]⟩] ∧
    (5.0 : Float) ≤ 5.0 ∧ (2.0 : Float) ≤ 3.0 ∧ number 7.0 ≤ number 5.0 + number 2.0 := by
  obtain ⟨-, h⟩ := spread_balanced threeForA 2.0 .longest ["1a", "2a", "b", "c", "d"] 2 (by decide)
  rw [spread_threes_twos] at h
  obtain ⟨hinit, hlast, hexact⟩ := h ⟨7.0, ["1a", "c", "d"]⟩ (by simp) ⟨5.0, ["2a", "b"]⟩
    (by simp) ["1a", "c"] "d" rfl
  have ha : threeForA.weightOf 2.0 .longest "1a" = 3.0 := by decide
  have hc : threeForA.weightOf 2.0 .longest "c" = 2.0 := by decide
  have hd : threeForA.weightOf 2.0 .longest "d" = 2.0 := by decide
  have hsum : (0.0 : Float) + 3.0 + 2.0 = 5.0 := by decide
  have h7 : number 7.0 = (7 : Nat) := number_of_split (k := 50) (by decide) (by decide)
  have h5 : number 5.0 = (5 : Nat) := number_of_split (k := 50) (by decide) (by decide)
  have h2 : number 2.0 = (2 : Nat) := number_of_split (k := 51) (by decide) (by decide)
  simp only [List.map_cons, List.map_nil, List.foldl_cons, List.foldl_nil, ha, hc, hd, hsum]
    at hinit hlast hexact
  refine ⟨spread_threes_twos, hinit, ?_, hexact ?_⟩
  · exact ha ▸ hlast "1a" (by simp)
  · rw [h7, h5, h2]
    norm_num

end SuitePlan
