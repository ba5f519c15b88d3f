import Mathlib.Data.List.Infix
import SuitePlan.Distribution
import SuitePlan.Proofs.Weight.Merging

/-! The key that gives a path its weight. Keys that a path ends with are suffixes of each other, so
no two of them are equally long, and the longest one does not depend on the order of the table. -/

namespace SuitePlan

/-- Of two texts that end the same text the shorter one ends the longer one. -/
theorem suffix_of_utf8ByteSize_le {a b s : String} (ha : a.toList <:+ s.toList)
    (hb : b.toList <:+ s.toList) (h : a.utf8ByteSize ≤ b.utf8ByteSize) : a.toList <:+ b.toList := by
  rcases List.suffix_or_suffix_of_suffix ha hb with hab | ⟨p, hp⟩
  · exact hab
  · have he : a = String.ofList p ++ b := by
      apply String.toList_inj.mp
      rw [String.toList_append, String.toList_ofList, hp]
    have hsize : (String.ofList p).utf8ByteSize = 0 := by
      rw [he, String.utf8ByteSize_append] at h
      omega
    have hnil : p = [] := by
      have hh := String.utf8ByteSize_eq_zero_iff.mp hsize
      simpa using congrArg String.toList hh
    rw [hnil, List.nil_append] at hp
    rw [hp]

theorem eq_of_utf8ByteSize_eq {a b s : String} (ha : a.toList <:+ s.toList)
    (hb : b.toList <:+ s.toList) (h : a.utf8ByteSize = b.utf8ByteSize) : a = b := by
  have hab := suffix_of_utf8ByteSize_le ha hb (Nat.le_of_eq h)
  have hba := suffix_of_utf8ByteSize_le hb ha (Nat.le_of_eq h.symm)
  exact String.toList_inj.mp (hab.eq_of_length_le hba.length_le)

namespace KeyRule

variable {W : Type}

theorem choose?_eq_none_iff (r : KeyRule) (l : List (String × W)) :
    r.choose? l = none ↔ l = [] := by
  cases l with
  | nil => simp [choose?]
  | cons m ms => cases r <;> simp [choose?, List.getLast?_cons]

theorem choose?_last (l : List (String × W)) : last.choose? l = l.getLast? := by
  cases l <;> rfl

theorem longer_cases (a b : String × W) : longer a b = a ∨ longer a b = b := by
  unfold longer
  split
  · exact .inl rfl
  · exact .inr rfl

theorem le_longer (a b : String × W) :
    a.1.utf8ByteSize ≤ (longer a b).1.utf8ByteSize ∧
      b.1.utf8ByteSize ≤ (longer a b).1.utf8ByteSize := by
  unfold longer
  split <;> omega

/-- The scan keeps a key that is as long as any it has seen. -/
theorem foldl_longer (m : String × W) (ms : List (String × W)) :
    ms.foldl longer m ∈ m :: ms ∧
      ∀ x ∈ m :: ms, x.1.utf8ByteSize ≤ (ms.foldl longer m).1.utf8ByteSize := by
  induction ms generalizing m with
  | nil => simp
  | cons n ms ih =>
    obtain ⟨hmem, hle⟩ := ih (longer m n)
    obtain ⟨hm, hn⟩ := le_longer m n
    have hsub : longer m n :: ms ⊆ m :: n :: ms := by
      rcases longer_cases m n with he | he <;> simp [he]
    rw [List.forall_mem_cons] at hle
    simp only [List.foldl_cons, List.forall_mem_cons]
    exact ⟨hsub hmem, hm.trans hle.1, hn.trans hle.1, hle.2⟩

theorem choose?_longest {l : List (String × W)} {m : String × W} (h : longest.choose? l = some m) :
    m ∈ l ∧ ∀ x ∈ l, x.1.utf8ByteSize ≤ m.1.utf8ByteSize := by
  cases l with
  | nil => cases h
  | cons x l =>
    cases h
    exact foldl_longer x l

theorem mem_of_choose? {r : KeyRule} {l : List (String × W)} {m : String × W}
    (h : r.choose? l = some m) : m ∈ l := by
  cases r with
  | longest => exact (choose?_longest h).1
  | last => exact List.mem_of_getLast? ((choose?_last l).symm.trans h)

theorem longer_map {V : Type} (f : W → V) (a b : String × W) :
    longer (Prod.map id f a) (Prod.map id f b) = Prod.map id f (longer a b) :=
  (apply_ite (Prod.map id f) _ a b).symm

/-- The choice looks at the keys alone. -/
theorem choose?_map {V : Type} (f : W → V) (r : KeyRule) (l : List (String × W)) :
    r.choose? (l.map (Prod.map id f)) = (r.choose? l).map (Prod.map id f) := by
  cases r with
  | last => rw [choose?_last, choose?_last, List.getLast?_map]
  | longest =>
    cases l with
    | nil => rfl
    | cons m ms =>
      rw [List.map_cons, choose?, choose?, List.foldl_map, Option.map_some]
      exact congrArg some (List.foldl_hom (Prod.map id f) fun a b => longer_map f a b)

end KeyRule

namespace Weights

variable {W : Type} {t u : Weights W} {path : String} {m : String × W}

/-- The key `m.1` has the weight `m.2`, and the path ends with it. -/
def Matches (t : Weights W) (path : String) (m : String × W) : Prop :=
  m.1.toList <:+ path.toList ∧ ∃ time, t.get? m.1 = some ⟨time, some m.2⟩

/-- No other key that matches is longer. -/
def IsLongest (t : Weights W) (path : String) (m : String × W) : Prop :=
  t.Matches path m ∧ ∀ x, t.Matches path x → x.1.utf8ByteSize ≤ m.1.utf8ByteSize

/-- No key that matches stands behind this one. -/
def IsLast (t : Weights W) (path : String) (m : String × W) : Prop :=
  t.Matches path m ∧ ∃ before after, t.keys = before ++ m.1 :: after ∧
    ∀ x, t.Matches path x → x.1 ∉ after

theorem get?_eq_some_iff (hn : t.keys.Nodup) (key : String) (e : Weighing W) :
    t.get? key = some e ↔ (key, e) ∈ t.entries := by
  rw [get?, List.lookup_eq_some_iff]
  constructor
  · rintro ⟨before, after, he, -⟩
    rw [he]
    exact List.mem_append_right _ List.mem_cons_self
  · intro h
    obtain ⟨before, after, he⟩ := List.append_of_mem h
    refine ⟨before, after, he, fun x hx => ?_⟩
    have hkeys : t.keys = before.map (·.1) ++ key :: after.map (·.1) := by
      rw [keys, he, List.map_append, List.map_cons]
    rw [hkeys] at hn
    have hne : key ≠ x.1 := by
      rintro rfl
      exact (List.nodup_append'.mp hn).2.2 (List.mem_map_of_mem hx) List.mem_cons_self
    simpa using hne

/-- The match that an entry is for a path. -/
def matchOf (path : String) (x : String × Weighing W) : Option (String × W) :=
  if x.1.toList.isSuffixOf path.toList then x.2.weight.map (x.1, ·) else none

theorem matching_eq (t : Weights W) (path : String) :
    t.matching path = t.entries.filterMap (matchOf path) := rfl

theorem matchOf_eq_some_iff {x : String × Weighing W} :
    matchOf path x = some m ↔ m.1 = x.1 ∧ m.1.toList <:+ path.toList ∧ x.2.weight = some m.2 := by
  obtain ⟨k, time, weight⟩ := x
  obtain ⟨key, w⟩ := m
  by_cases hk : k.toList.isSuffixOf path.toList
  · have hs := List.isSuffixOf_iff_suffix.mp hk
    simp only [matchOf, hk, if_true, Option.map_eq_some_iff, Prod.mk.injEq]
    constructor
    · rintro ⟨v, hv, rfl, rfl⟩
      exact ⟨rfl, hs, hv⟩
    · rintro ⟨rfl, -, hw⟩
      exact ⟨w, hw, rfl, rfl⟩
  · simp only [matchOf, hk, Bool.false_eq_true, if_false, reduceCtorEq, false_iff]
    rintro ⟨rfl, hs, -⟩
    exact hk (List.isSuffixOf_iff_suffix.mpr hs)

theorem matchOf_of_matches (hn : t.keys.Nodup) {x : String × Weighing W} (hx : x ∈ t.entries)
    (hm : t.Matches path m) (h : m.1 = x.1) : matchOf path x = some m := by
  obtain ⟨hs, time, hget⟩ := hm
  have hx' : t.get? x.1 = some x.2 := (get?_eq_some_iff hn x.1 x.2).mpr hx
  rw [h, hx'] at hget
  exact matchOf_eq_some_iff.mpr ⟨h, hs, by rw [Option.some.inj hget]⟩

theorem mem_matching_iff (hn : t.keys.Nodup) : m ∈ t.matching path ↔ t.Matches path m := by
  rw [matching_eq, List.mem_filterMap]
  constructor
  · rintro ⟨⟨k, time, weight⟩, hx, hm⟩
    obtain ⟨rfl, hs, rfl⟩ := matchOf_eq_some_iff.mp hm
    exact ⟨hs, time, (get?_eq_some_iff hn _ _).mpr hx⟩
  · rintro ⟨hs, time, hget⟩
    have hx := (get?_eq_some_iff hn _ _).mp hget
    exact ⟨_, hx, matchOf_eq_some_iff.mpr ⟨rfl, hs, rfl⟩⟩

theorem Matches.eq {x : String × W} (hm : t.Matches path m) (hx : t.Matches path x)
    (h : m.1 = x.1) : m = x := by
  obtain ⟨-, time, hm⟩ := hm
  obtain ⟨-, time', hx⟩ := hx
  rw [h, hx] at hm
  have hw : x.2 = m.2 := by
    injection hm with he
    injection he with _ hw
    injection hw
  exact Prod.ext h hw.symm

theorem IsLongest.unique {x : String × W} (hm : t.IsLongest path m) (hx : t.IsLongest path x) :
    m = x := by
  have hsize := Nat.le_antisymm (hx.2 m hm.1) (hm.2 x hx.1)
  exact hm.1.eq hx.1 (eq_of_utf8ByteSize_eq hm.1.1 hx.1.1 hsize)

theorem exists_choose? (hn : t.keys.Nodup) (r : KeyRule) (h : ∃ x, t.Matches path x) :
    ∃ x, r.choose? (t.matching path) = some x := by
  obtain ⟨x, hx⟩ := h
  apply Option.ne_none_iff_exists'.mp
  intro hnone
  rw [KeyRule.choose?_eq_none_iff] at hnone
  have hmem := (mem_matching_iff hn).mpr hx
  rw [hnone] at hmem
  cases hmem

theorem choose?_longest_iff (hn : t.keys.Nodup) :
    KeyRule.longest.choose? (t.matching path) = some m ↔ t.IsLongest path m := by
  have hlongest : ∀ x, KeyRule.longest.choose? (t.matching path) = some x →
      t.IsLongest path x := by
    intro x hx
    obtain ⟨hmem, hle⟩ := KeyRule.choose?_longest hx
    exact ⟨(mem_matching_iff hn).mp hmem, fun y hy => hle y ((mem_matching_iff hn).mpr hy)⟩
  refine ⟨hlongest m, fun hm => ?_⟩
  obtain ⟨x, hx⟩ := exists_choose? hn .longest ⟨m, hm.1⟩
  rw [hx, hm.unique (hlongest x hx)]

theorem choose?_last_iff (hn : t.keys.Nodup) :
    KeyRule.last.choose? (t.matching path) = some m ↔ t.IsLast path m := by
  rw [KeyRule.choose?_last, List.getLast?_eq_some_iff]
  constructor
  · rintro ⟨ms, hms⟩
    have hm : t.Matches path m := (mem_matching_iff hn).mp (by simp [hms])
    rw [matching_eq] at hms
    obtain ⟨l, l', hl, -, hl'⟩ := List.filterMap_eq_append_iff.mp hms
    obtain ⟨before, x, after, rfl, -, hx, hafter⟩ := List.filterMap_eq_cons_iff.mp hl'
    have hkeys : t.keys = (l ++ before).map (·.1) ++ m.1 :: after.map (·.1) := by
      simp [keys, hl, (matchOf_eq_some_iff.mp hx).1]
    refine ⟨hm, _, _, hkeys, fun y hy hmem => ?_⟩
    -- a match behind the last one would be an entry of the rest
    obtain ⟨z, hz, hzy⟩ := List.mem_map.mp hmem
    have hfound := matchOf_of_matches hn (x := z) (by simp [hl, hz]) hy hzy.symm
    rw [List.filterMap_eq_nil_iff.mp hafter z hz] at hfound
    cases hfound
  · rintro ⟨hm, before, after, hkeys, hlast⟩
    obtain ⟨l, l', hl, -, hl'⟩ := List.map_eq_append_iff.mp hkeys
    obtain ⟨x, l'', rfl, hx, rfl⟩ := List.map_eq_cons_iff.mp hl'
    have hfound := matchOf_of_matches hn (x := x) (by simp [hl]) hm hx.symm
    have hrest : l''.filterMap (matchOf path) = [] := by
      refine List.filterMap_eq_nil_iff.mpr fun z hz => Option.eq_none_iff_forall_ne_some.mpr ?_
      intro y hy
      have hmem : y ∈ t.matching path := List.mem_filterMap.mpr ⟨z, by simp [hl, hz], hy⟩
      refine hlast y ((mem_matching_iff hn).mp hmem) ?_
      exact List.mem_map.mpr ⟨z, hz, (matchOf_eq_some_iff.mp hy).1.symm⟩
    refine ⟨l.filterMap (matchOf path), ?_⟩
    rw [matching_eq, hl, List.filterMap_append, List.filterMap_cons, hfound, hrest]

theorem weightOf_of_choose? {r : KeyRule} (h : r.choose? (t.matching path) = some m)
    (fallback : W) : t.weightOf fallback r path = m.2 := by
  rw [weightOf, h, Option.map_some, Option.getD_some]

theorem matching_map {V : Type} (f : W → V) (t : Weights W) (path : String) :
    (t.map f).matching path = (t.matching path).map (Prod.map id f) := by
  rw [matching_eq, matching_eq, map, List.filterMap_map, List.map_filterMap]
  refine List.filterMap_congr fun e _ => ?_
  simp only [Function.comp_apply, matchOf, Weighing.map]
  split_ifs
  · cases e.2.weight with
    | none => rfl
    | some w => rfl
  · rfl

theorem weightOf_map {V : Type} (f : W → V) (t : Weights W) (fallback : W) (r : KeyRule) (path : String) :
    (t.map f).weightOf (f fallback) r path = f (t.weightOf fallback r path) := by
  rw [weightOf, weightOf, matching_map, KeyRule.choose?_map]
  cases r.choose? (t.matching path) with
  | none => rfl
  | some m => rfl

theorem weigh_map {V : Type} (f : W → V) (t : Weights W) (fallback : W) (r : KeyRule) (specs : List String) :
    weigh (t.map f) (f fallback) r specs = (weigh t fallback r specs).map (Prod.map id f) := by
  rw [weigh, weigh, List.map_map]
  exact List.map_congr_left fun s _ => Prod.ext rfl (t.weightOf_map f fallback r s)

/-- What holds of the fallback and of the weights in the table holds of the weight of every path. -/
theorem forall_weightOf {p : W → Prop} {fallback : W} (ht : ∀ e ∈ t.entries, ∀ w ∈ e.2.weight, p w)
    (hf : p fallback) (r : KeyRule) (path : String) : p (t.weightOf fallback r path) := by
  cases hm : r.choose? (t.matching path) with
  | none => rwa [weightOf, hm]
  | some m =>
    rw [weightOf_of_choose? hm]
    obtain ⟨e, he, hmatch⟩ := List.mem_filterMap.mp (KeyRule.mem_of_choose? hm)
    exact ht e he m.2 (matchOf_eq_some_iff.mp hmatch).2.2

theorem weightOf_fallback_iff [Nontrivial W] (hn : t.keys.Nodup) (r : KeyRule) :
    (∀ fallback, t.weightOf fallback r path = fallback) ↔ ∀ x, ¬ t.Matches path x := by
  constructor
  · intro hall x hx
    obtain ⟨m, hm⟩ := exists_choose? hn r ⟨x, hx⟩
    obtain ⟨fallback, hne⟩ := exists_ne m.2
    exact hne ((hall fallback).symm.trans (weightOf_of_choose? hm fallback))
  · intro hnone fallback
    have hnil : t.matching path = [] := by
      refine List.eq_nil_iff_forall_not_mem.mpr fun x hx => hnone x ?_
      exact (mem_matching_iff hn).mp hx
    rw [weightOf, (KeyRule.choose?_eq_none_iff r _).mpr hnil, Option.map_none, Option.getD_none]

theorem weightOf_longest_of_perm (hn : t.keys.Nodup) (h : u.entries.Perm t.entries) (fallback : W)
    (path : String) : u.weightOf fallback .longest path = t.weightOf fallback .longest path := by
  have hkeys : u.keys.Perm t.keys := h.map _
  have hu : u.keys.Nodup := hkeys.nodup_iff.mpr hn
  have hmatches : ∀ x, u.Matches path x ↔ t.Matches path x := by
    intro x
    rw [← mem_matching_iff hu, ← mem_matching_iff hn]
    exact (h.filterMap (matchOf path)).mem_iff
  have hchoose : KeyRule.longest.choose? (u.matching path) =
      KeyRule.longest.choose? (t.matching path) := by
    refine Option.ext fun m => ?_
    rw [choose?_longest_iff hu, choose?_longest_iff hn]
    simp only [IsLongest, hmatches]
  rw [weightOf, weightOf, hchoose]

theorem weigh_longest_of_perm (hn : t.keys.Nodup) (h : u.entries.Perm t.entries) (fallback : W)
    (specs : List String) : weigh u fallback .longest specs = weigh t fallback .longest specs := by
  simp only [weigh, weightOf_longest_of_perm hn h fallback]

instance : Nontrivial Float := ⟨0.0, 1.0, by decide⟩

/-- In a table that is built the weight of a path is that of the only longest key, or of the last
key, among those that have a weight and that the path ends with. If there is none, the fallback is
taken. The order of the table is of no account where the longest key counts. -/
theorem weightOf_built {h : List (String × Weighing Float)} {t : Weights Float} (ht : Built h t)
    (path : String) :
    ((∃ x, t.Matches path x) → ∃! m, t.IsLongest path m) ∧
    (∀ m, t.IsLongest path m → ∀ fallback, t.weightOf fallback .longest path = m.2) ∧
    ((∃ x, t.Matches path x) → ∃! m, t.IsLast path m) ∧
    (∀ m, t.IsLast path m → ∀ fallback, t.weightOf fallback .last path = m.2) ∧
    (∀ r, (∀ fallback, t.weightOf fallback r path = fallback) ↔ ∀ x, ¬ t.Matches path x) ∧
    ∀ (u : Weights Float) (fallback : Float), u.entries.Perm t.entries →
      u.weightOf fallback .longest path = t.weightOf fallback .longest path ∧
      ∀ specs workers, weigh u fallback .longest specs = weigh t fallback .longest specs ∧
        spread (weigh u fallback .longest specs) workers =
          spread (weigh t fallback .longest specs) workers := by
  have hn := ht.keeps.nodup
  refine ⟨fun hx => ?_, fun m hm => ?_, fun hx => ?_, fun m hm => ?_,
    fun r => weightOf_fallback_iff hn r, fun u fallback hp => ?_⟩
  · obtain ⟨m, hm⟩ := exists_choose? hn .longest hx
    rw [choose?_longest_iff hn] at hm
    exact ⟨m, hm, fun y hy => hy.unique hm⟩
  · exact weightOf_of_choose? ((choose?_longest_iff hn).mpr hm)
  · obtain ⟨m, hm⟩ := exists_choose? hn .last hx
    refine ⟨m, (choose?_last_iff hn).mp hm, fun y hy => ?_⟩
    exact Option.some.inj (((choose?_last_iff hn).mpr hy).symm.trans hm)
  · exact weightOf_of_choose? ((choose?_last_iff hn).mpr hm)
  · refine ⟨weightOf_longest_of_perm hn hp fallback path, fun specs workers => ?_⟩
    rw [weigh_longest_of_perm hn hp]
    exact ⟨rfl, rfl⟩

theorem weightOf_built_overlapping :
    let t : Weights Float := (((insert {} "é/a" ⟨none, some 5⟩).insert "a" ⟨none, some 1⟩).insert
      "x/é/a" ⟨some 9, none⟩).insert "a" ⟨none, some 2⟩
    let u : Weights Float := ⟨t.entries.reverse⟩
    t.keys = ["é/a", "a", "x/é/a"] ∧
      t.IsLongest "x/é/a" ("é/a", 5) ∧ t.weightOf 1 .longest "x/é/a" = 5 ∧
      t.IsLast "x/é/a" ("a", 2) ∧ t.weightOf 1 .last "x/é/a" = 2 ∧
      u.weightOf 1 .longest "x/é/a" = 5 ∧ u.weightOf 1 .last "x/é/a" = 5 := by
  intro t u
  have ht : Built [("é/a", ⟨none, some 5⟩), ("a", ⟨none, some 1⟩), ("x/é/a", ⟨some 9, none⟩),
      ("a", ⟨none, some 2⟩)] t :=
    .insert _ _ (.insert _ _ (.insert _ _ (.insert _ _ .empty)))
  obtain ⟨-, hlongest, -, hlast, -, hperm⟩ := weightOf_built ht "x/é/a"
  have hm : t.IsLongest "x/é/a" ("é/a", 5) := (choose?_longest_iff ht.keeps.nodup).mp (by decide)
  have hl : t.IsLast "x/é/a" ("a", 2) := (choose?_last_iff ht.keeps.nodup).mp (by decide)
  refine ⟨by decide, hm, hlongest _ hm 1, hl, hlast _ hl 1, ?_, by decide⟩
  rw [(hperm u 1 (List.reverse_perm _)).1]
  exact hlongest _ hm 1

end Weights

end SuitePlan
