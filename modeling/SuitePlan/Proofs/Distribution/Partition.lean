import Mathlib.Data.List.Induction
import Mathlib.Data.List.Perm.Basic
import SuitePlan.Distribution

/-! The buckets hold a partition of the specs, whatever order they are brought into between two
assignments. -/

namespace SuitePlan

section StablySorted

variable {α : Type} {le : α → α → Bool}

/-- Two elements are equal in an order, though they may be different. -/
def ties (le : α → α → Bool) (a b : α) : Bool := le a b && le b a

/-- The elements of `l` in an order, those that are equal in it as they come in `l`. -/
structure StablySorted (le : α → α → Bool) (l sorted : List α) : Prop where
  perm : sorted.Perm l
  ordered : sorted.Pairwise fun a b => le a b
  stable : ∀ a, sorted.filter (ties le a) = l.filter (ties le a)

theorem refl_of_total (htotal : ∀ a b, le a b || le b a) (a : α) : le a a := by
  simpa using htotal a a

theorem stablySorted_mergeSort (htrans : ∀ a b c, le a b → le b c → le a c)
    (htotal : ∀ a b, le a b || le b a) (l : List α) : StablySorted le l (l.mergeSort le) := by
  refine ⟨List.mergeSort_perm l _, List.pairwise_mergeSort htrans htotal l, fun a => ?_⟩
  -- The elements that tie with one are a sorted sublist, so they are still one after the sorting.
  have hties : (l.filter (ties le a)).Pairwise fun b c => le b c := by
    refine List.pairwise_of_forall_mem_list fun b hb c hc => ?_
    have hba := (Bool.and_eq_true_iff.mp (List.mem_filter.mp hb).2).2
    have hac := (Bool.and_eq_true_iff.mp (List.mem_filter.mp hc).2).1
    exact htrans b a c hba hac
  have hsub := (List.sublist_mergeSort htrans htotal hties List.filter_sublist).filter (ties le a)
  simp only [List.filter_filter, Bool.and_self] at hsub
  exact (hsub.eq_of_length ((List.mergeSort_perm l _).filter _).length_eq.symm).symm

theorem head_le (htotal : ∀ a b, le a b || le b a) {a b : α} {l : List α}
    (h : (b :: l).Pairwise fun a b => le a b) (ha : a ∈ b :: l) : le b a := by
  rcases List.mem_cons.mp ha with rfl | ha
  · exact refl_of_total htotal a
  · exact List.rel_of_pairwise_cons h ha

theorem eq_of_ordered (htotal : ∀ a b, le a b || le b a) {l m : List α}
    (hl : l.Pairwise fun a b => le a b) (hm : m.Pairwise fun a b => le a b) (hp : l.Perm m)
    (hf : ∀ a, l.filter (ties le a) = m.filter (ties le a)) : l = m := by
  induction l generalizing m with
  | nil => exact hp.nil_eq
  | cons a l ih =>
    cases m with
    | nil => exact hp.eq_nil
    | cons b m =>
      have hself : ties le a a = true := by simp [ties, refl_of_total htotal a]
      have hties : ties le a b = true := Bool.and_eq_true_iff.mpr
        ⟨head_le htotal hl (hp.mem_iff.mpr List.mem_cons_self),
          head_le htotal hm (hp.mem_iff.mp List.mem_cons_self)⟩
      have hab : a = b := by
        have hh := hf a
        rw [List.filter_cons_of_pos hself, List.filter_cons_of_pos hties] at hh
        exact (List.cons.inj hh).1
      subst hab
      rw [ih hl.of_cons hm.of_cons hp.cons_inv fun c => ?_]
      have hh := hf c
      by_cases hc : ties le c a = true
      · rw [List.filter_cons_of_pos hc, List.filter_cons_of_pos hc] at hh
        exact (List.cons.inj hh).2
      · rwa [List.filter_cons_of_neg hc, List.filter_cons_of_neg hc] at hh

theorem StablySorted.unique {l s u : List α} (h : StablySorted le l s) (h' : StablySorted le l u)
    (htotal : ∀ a b, le a b || le b a) : s = u :=
  eq_of_ordered htotal h.ordered h'.ordered (h.perm.trans h'.perm.symm)
    fun a => (h.stable a).trans (h'.stable a).symm

end StablySorted

variable {W : Type} [Load W]

section Orders

variable {α : Type} (load : α → W)

theorem lighter_trans (a b c : α) (h : Load.le (load a) (load b)) (h' : Load.le (load b) (load c)) :
    Load.le (load a) (load c) := Load.le_trans _ _ _ h h'

theorem lighter_total (a b : α) : Load.le (load a) (load b) || Load.le (load b) (load a) :=
  Load.le_total _ _

theorem heavier_trans (a b c : α) (h : Load.le (load b) (load a)) (h' : Load.le (load c) (load b)) :
    Load.le (load c) (load a) := Load.le_trans _ _ _ h' h

theorem heavier_total (a b : α) : Load.le (load b) (load a) || Load.le (load a) (load b) :=
  Load.le_total _ _

end Orders

theorem pairwise_lightestFirst (bs : List (Bucket W)) :
    (lightestFirst bs).Pairwise fun a b => Load.le a.weight b.weight :=
  List.pairwise_mergeSort (lighter_trans Bucket.weight) (lighter_total Bucket.weight) bs

theorem pairwise_heaviestFirst (bs : List (Bucket W)) :
    (heaviestFirst bs).Pairwise fun a b => Load.le b.weight a.weight :=
  List.pairwise_mergeSort (heavier_trans Bucket.weight) (heavier_total Bucket.weight) bs

theorem pairwise_byWeight (specs : List (String × W)) :
    (byWeight specs).Pairwise fun a b => Load.le b.2 a.2 :=
  List.pairwise_mergeSort (heavier_trans Prod.snd) (heavier_total Prod.snd) specs

theorem byWeight_perm (specs : List (String × W)) : (byWeight specs).Perm specs :=
  List.mergeSort_perm specs _

/-- A bucket to which specs have been assigned one after the other. -/
def Bucket.holding (specs : List (String × W)) : Bucket W :=
  specs.foldl (fun b s => b.assign s.1 s.2) .empty

theorem Bucket.holding_append_singleton (specs : List (String × W)) (s : String × W) :
    holding (specs ++ [s]) = (holding specs).assign s.1 s.2 := by
  simp [holding]

theorem Bucket.holding_specs (specs : List (String × W)) :
    (holding specs).specs = specs.map (·.1) := by
  induction specs using List.reverseRecOn with
  | nil => rfl
  | append_singleton specs s ih => simp [holding_append_singleton, assign, ih]

theorem Bucket.holding_weight (specs : List (String × W)) :
    (holding specs).weight = (specs.map (·.2)).foldl Load.add Load.zero := by
  induction specs using List.reverseRecOn with
  | nil => rfl
  | append_singleton specs s ih => simp [holding_append_singleton, assign, ih]

theorem length_assignLightest (bs : List (Bucket W)) (s : String × W) :
    (assignLightest bs s).length = bs.length := by
  have hl : (lightestFirst bs).length = bs.length := List.length_mergeSort bs
  rw [← hl, assignLightest]
  cases lightestFirst bs with
  | nil => rfl
  | cons b bs => rfl

theorem length_foldl_assignLightest (specs : List (String × W)) (bs : List (Bucket W)) :
    (specs.foldl assignLightest bs).length = bs.length := by
  induction specs generalizing bs with
  | nil => rfl
  | cons s specs ih => rw [List.foldl_cons, ih, length_assignLightest]

theorem flatten_assign_perm {α : Type} (p : List α) (ps : List (List α)) (a : α) :
    ((p ++ [a]) :: ps).flatten.Perm ((p :: ps).flatten ++ [a]) := by
  rw [List.flatten_cons, List.flatten_cons, List.append_assoc, List.append_assoc]
  exact List.perm_append_comm.append_left p

/-- The buckets hold the specs assigned so far, each bucket a part of them in their order. -/
def Partitions (assigned : List (String × W)) (bs : List (Bucket W)) : Prop :=
  ∃ parts : List (List (String × W)), bs = parts.map Bucket.holding ∧
    parts.flatten.Perm assigned ∧ ∀ p ∈ parts, p.Sublist assigned

namespace Partitions

variable {assigned : List (String × W)} {bs : List (Bucket W)}

theorem empty (n : Nat) : Partitions [] (List.replicate n (.empty : Bucket W)) := by
  refine ⟨List.replicate n [], ?_, ?_, ?_⟩
  · rw [List.map_replicate]
    rfl
  · simp
  · intro p hp
    rw [List.eq_of_mem_replicate hp]

theorem mergeSort (h : Partitions assigned bs) (le : Bucket W → Bucket W → Bool) :
    Partitions assigned (bs.mergeSort le) := by
  obtain ⟨parts, rfl, hperm, hsub⟩ := h
  have hp := List.mergeSort_perm parts fun p q => le (.holding p) (.holding q)
  refine ⟨parts.mergeSort fun p q => le (.holding p) (.holding q), ?_, ?_, ?_⟩
  · exact (List.map_mergeSort (f := Bucket.holding) fun _ _ _ _ => rfl).symm
  · exact hp.flatten.trans hperm
  · exact fun p hm => hsub p (hp.mem_iff.mp hm)

theorem first (h : Partitions assigned bs) (hne : bs ≠ []) (s : String × W) :
    Partitions (assigned ++ [s]) (assignFirst s bs) := by
  obtain ⟨parts, rfl, hperm, hsub⟩ := h
  cases parts with
  | nil => exact (hne rfl).elim
  | cons p ps =>
    refine ⟨(p ++ [s]) :: ps, ?_, ?_, ?_⟩
    · simp [assignFirst, Bucket.holding_append_singleton]
    · exact (flatten_assign_perm p ps s).trans (hperm.append_right [s])
    · intro q hq
      rcases List.mem_cons.mp hq with rfl | hq
      · exact (hsub p List.mem_cons_self).append (List.Sublist.refl _)
      · exact (hsub q (List.mem_cons_of_mem p hq)).trans (List.sublist_append_left _ _)

theorem assign (h : Partitions assigned bs) (hne : bs ≠ []) (s : String × W) :
    Partitions (assigned ++ [s]) (assignLightest bs s) := by
  refine (h.mergeSort _).first (fun he => hne ?_) s
  rw [← List.length_eq_zero_iff, ← List.length_mergeSort bs, he, List.length_nil]

theorem assign_all (h : Partitions assigned bs) (hne : bs ≠ [])
    (specs : List (String × W)) :
    Partitions (assigned ++ specs) (specs.foldl assignLightest bs) := by
  induction specs generalizing assigned bs with
  | nil => rwa [List.append_nil]
  | cons s specs ih =>
    have hl := length_assignLightest bs s
    have hne' : assignLightest bs s ≠ [] := fun he => hne (by simpa [he] using hl.symm)
    rw [List.foldl_cons, List.append_cons]
    exact ih (h.assign hne s) hne'

end Partitions

theorem length_spread (specs : List (String × W)) (workers : Nat) :
    (spread specs workers).length = bucketCount workers specs.length := by
  rw [spread, heaviestFirst, List.length_mergeSort, length_foldl_assignLightest,
    List.length_replicate]

theorem bucketCount_pos {workers specs : Nat} (h : 0 < specs) : 0 < bucketCount workers specs := by
  unfold bucketCount
  omega

theorem spread_partitions (specs : List (String × W)) (workers : Nat) :
    Partitions (byWeight specs) (spread specs workers) := by
  refine Partitions.mergeSort ?_ _
  by_cases hs : specs = []
  · subst hs
    rw [byWeight, List.mergeSort_nil]
    exact .empty _
  · refine (Partitions.empty _).assign_all (List.ne_nil_of_length_pos ?_) _
    rw [List.length_replicate]
    exact bucketCount_pos (List.length_pos_iff.mpr hs)

theorem byWeight_weigh (t : Weights W) (fallback : W) (r : KeyRule) (specs : List String) :
    byWeight (weigh t fallback r specs) = weigh t fallback r (specs.mergeSort fun a b =>
      Load.le (t.weightOf fallback r b) (t.weightOf fallback r a)) :=
  (List.map_mergeSort (f := fun s => (s, t.weightOf fallback r s)) fun _ _ _ _ => rfl).symm

theorem holding_weigh_specs (t : Weights W) (fallback : W) (r : KeyRule) (specs : List String) :
    (Bucket.holding (weigh t fallback r specs)).specs = specs := by
  rw [Bucket.holding_specs, weigh, List.map_map]
  exact List.map_id specs

theorem holding_weigh_weight (t : Weights W) (fallback : W) (r : KeyRule) (specs : List String) :
    (Bucket.holding (weigh t fallback r specs)).weight =
      (specs.map (t.weightOf fallback r)).foldl Load.add Load.zero := by
  rw [Bucket.holding_weight, weigh, List.map_map]
  rfl

theorem Partitions.specs_perm {assigned : List (String × W)} {bs : List (Bucket W)}
    (h : Partitions assigned bs) : (bs.flatMap Bucket.specs).Perm (assigned.map (·.1)) := by
  obtain ⟨parts, rfl, hperm, -⟩ := h
  have hf : Bucket.specs ∘ Bucket.holding (W := W) = List.map (·.1) := funext Bucket.holding_specs
  rw [List.flatMap_def, List.map_map, hf, ← List.map_flatten]
  exact hperm.map _

theorem Partitions.holding_of_mem {t : Weights W} {fallback : W} {r : KeyRule} {specs : List String}
    {bs : List (Bucket W)} (h : Partitions (weigh t fallback r specs) bs) {b : Bucket W}
    (hb : b ∈ bs) : ∃ l : List String, l.Sublist specs ∧ b = .holding (weigh t fallback r l) := by
  obtain ⟨parts, rfl, -, hsub⟩ := h
  obtain ⟨p, hp, rfl⟩ := List.mem_map.mp hb
  obtain ⟨l, hl, rfl⟩ := List.sublist_map_iff.mp (hsub p hp)
  exact ⟨l, hl, rfl⟩

theorem spread_weigh_perm (t : Weights W) (fallback : W) (r : KeyRule) (specs : List String)
    (workers : Nat) : ((spread (weigh t fallback r specs) workers).flatMap Bucket.specs).Perm specs := by
  have hp := (spread_partitions (weigh t fallback r specs) workers).specs_perm
  rw [byWeight_weigh, ← Bucket.holding_specs, holding_weigh_specs] at hp
  exact hp.trans (List.mergeSort_perm specs _)

/-- Every spec is in one bucket. The weights may be negative, infinite or not a number. -/
theorem spread_partition (t : Weights W) (fallback : W) (r : KeyRule) (specs : List String)
    (workers : Nat) :
    let weight := t.weightOf fallback r
    let buckets := spread (weigh t fallback r specs) workers
    (specs = [] → buckets = []) ∧
    buckets.length = min (max workers 1) specs.length ∧
    (buckets.flatMap Bucket.specs).Perm specs ∧
    (∃ order, StablySorted (fun a b => Load.le (weight b) (weight a)) specs order ∧
      ∀ b ∈ buckets, b.specs.Sublist order) ∧
    (∀ b ∈ buckets, b.weight = (b.specs.map weight).foldl Load.add Load.zero) ∧
    buckets.Pairwise fun a b => Load.le b.weight a.weight := by
  intro weight buckets
  have hlength : buckets.length = min (max workers 1) specs.length := by
    rw [length_spread, weigh, List.length_map, bucketCount]
  have hpart := spread_partitions (weigh t fallback r specs) workers
  rw [byWeight_weigh] at hpart
  have hsorted := stablySorted_mergeSort (heavier_trans weight) (heavier_total weight) specs
  refine ⟨?_, hlength, spread_weigh_perm t fallback r specs workers, ⟨_, hsorted, ?_⟩, ?_,
    pairwise_heaviestFirst _⟩
  · rintro rfl
    exact List.eq_nil_of_length_eq_zero (by simpa using hlength)
  · intro b hb
    obtain ⟨l, hl, rfl⟩ := hpart.holding_of_mem hb
    rw [holding_weigh_specs]
    exact hl
  · intro b hb
    obtain ⟨l, -, rfl⟩ := hpart.holding_of_mem hb
    rw [holding_weigh_specs, holding_weigh_weight]

theorem mergeSort_pair {α : Type} (le : α → α → Bool) (a b : α) :
    [a, b].mergeSort le = if le a b then [a, b] else [b, a] := by
  simp [List.mergeSort, List.MergeSort.Internal.splitInTwo, List.merge]

/-- The sum of opposite infinities is below all numbers, so its worker is given the next spec too. -/
theorem spread_partition_infinities :
    let up : Pattern := ⟨0x7ff0000000000000⟩
    let down : Pattern := ⟨0xfff0000000000000⟩
    let t : Weights Pattern := ⟨[("a", ⟨none, some up⟩), ("b", ⟨none, some up⟩)]⟩
    let buckets := spread (weigh t down .longest ["a", "b", "c", "d"]) 2
    buckets = [⟨up, ["a"]⟩, ⟨.undefined, ["b", "c", "d"]⟩] ∧
      (buckets.flatMap Bucket.specs).Perm ["a", "b", "c", "d"] := by
  intro up down t buckets
  refine ⟨?_, (spread_partition t down .longest ["a", "b", "c", "d"] 2).2.2.1⟩
  have hweigh : weigh t down .longest ["a", "b", "c", "d"] =
      [("a", up), ("b", up), ("c", down), ("d", down)] := by decide
  have hsorted : byWeight [("a", up), ("b", up), ("c", down), ("d", down)] =
      [("a", up), ("b", up), ("c", down), ("d", down)] := List.mergeSort_of_pairwise (by decide)
  have hzero : Pattern.le (.ofFloat 0.0) (.ofFloat 0.0) = true := by decide
  have hup : Pattern.le up (.ofFloat 0.0) = false := by decide
  have hups : Pattern.le up up = true := by decide
  have hsum : Pattern.le .undefined up = true := by decide
  have hadd : Pattern.add (.ofFloat 0.0) up = up := by decide
  have hopposite : Pattern.add up down = .undefined := by decide
  have hkept : Pattern.add .undefined down = .undefined := by decide
  have hsum' : Pattern.le up .undefined = false := by decide
  simp [buckets, hweigh, spread, hsorted, bucketCount, heaviestFirst, lightestFirst, assignLightest,
    assignFirst, mergeSort_pair, List.replicate, Bucket.empty, Bucket.assign, Load.le, Load.zero, Load.add,
    hzero, hup, hups, hsum, hsum', hadd, hopposite, hkept]

end SuitePlan
